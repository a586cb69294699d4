/-
# Memory of nodes

Memory comes from `ssmem`, which gives every thread its own allocator, so a
node's address names the thread that allocated it. Freed nodes are never given
out again, and `ssmem_free` only records the address.
-/
import Ascylib.Concur.Run
import Mathlib.Data.Set.Finite.Lattice

set_option linter.unusedSectionVars false

namespace Ascylib

open Concur

/-- An address: `NULL`, a sentinel, or the `i`-th node that thread `t` allocated. -/
inductive Ptr (T : Type*) where
  | null
  | head
  | tail
  | node (t : T) (i : ℕ)
  deriving DecidableEq

/-- A shared memory of nodes `N`: its contents, how many nodes each thread has
allocated, and the addresses passed to `ssmem_free`, newest first. -/
structure Memory (T N : Type*) where
  mem : Ptr T → N
  count : T → ℕ
  freed : List (Ptr T)

namespace Memory

variable {T N : Type*} [DecidableEq T]

/-- The node at `x` becomes `n`. -/
def set (s : Memory T N) (x : Ptr T) (n : N) : Memory T N :=
  { s with mem := Function.update s.mem x n }

/-- The node at `x` is changed by `f`. -/
def modify (s : Memory T N) (x : Ptr T) (f : N → N) : Memory T N := s.set x (f (s.mem x))

/-- Thread `t` allocates a node and fills it with `n`: the memory, and the address. -/
def allocate (s : Memory T N) (t : T) (n : N) : Memory T N × Ptr T :=
  ({ s with
      mem := Function.update s.mem (.node t (s.count t)) n
      count := Function.update s.count t (s.count t + 1) },
    .node t (s.count t))

def ssmemFree (s : Memory T N) (x : Ptr T) : Memory T N := { s with freed := x :: s.freed }

/-- The node exists. -/
def Allocated (s : Memory T N) (x : Ptr T) : Prop :=
  x = .head ∨ x = .tail ∨ ∃ t i, x = .node t i ∧ i < s.count t

section

variable (s : Memory T N) (x y : Ptr T) (n : N) (t : T)

@[simp] theorem mem_set_self : (s.set x n).mem x = n := by simp [set]

theorem mem_set_of_ne (h : y ≠ x) : (s.set x n).mem y = s.mem y := by simp [set, h]

@[simp] theorem count_set : (s.set x n).count = s.count := rfl

@[simp] theorem mem_modify_self (f : N → N) : (s.modify x f).mem x = f (s.mem x) := by simp [modify]

theorem mem_modify_of_ne (f : N → N) (h : y ≠ x) : (s.modify x f).mem y = s.mem y :=
  s.mem_set_of_ne x y _ h

/-- A field that the change leaves alone. -/
theorem field_modify {β : Type*} (g : N → β) {f : N → N} (hf : ∀ n, g (f n) = g n) :
    g ((s.modify x f).mem y) = g (s.mem y) := by
  by_cases h : y = x
  · subst h; rw [mem_modify_self, hf]
  · rw [mem_modify_of_ne s x y f h]

@[simp] theorem mem_ssmemFree : (s.ssmemFree x).mem = s.mem := rfl

@[simp] theorem count_ssmemFree : (s.ssmemFree x).count = s.count := rfl

@[simp] theorem mem_allocate_self :
    (s.allocate t n).1.mem (s.allocate t n).2 = n := by simp [allocate]

theorem mem_allocate_of_ne (h : y ≠ .node t (s.count t)) : (s.allocate t n).1.mem y = s.mem y := by
  simp [allocate, h]

theorem count_allocate_self : s.count t < (s.allocate t n).1.count t := by simp [allocate]

theorem count_le_allocate (u : T) : s.count u ≤ (s.allocate t n).1.count u := by
  by_cases h : u = t
  · subst h; exact Nat.le_of_lt (count_allocate_self s n u)
  · simp [allocate, h]

theorem not_allocated_next : ¬ s.Allocated (.node t (s.count t)) := by
  rintro (h | h | ⟨u, i, h, hi⟩) <;> cases h
  exact Nat.lt_irrefl _ hi

/-- An allocation adds the new node only. -/
theorem allocated_of_allocate (h : (s.allocate t n).1.Allocated x) :
    s.Allocated x ∨ x = .node t (s.count t) := by
  rcases h with rfl | rfl | ⟨u, i, rfl, hi⟩
  · exact Or.inl (Or.inl rfl)
  · exact Or.inl (Or.inr (Or.inl rfl))
  · by_cases hu : u = t
    · subst hu
      have hi : i < s.count u + 1 := by simpa [allocate] using hi
      rcases Nat.lt_succ_iff_lt_or_eq.mp hi with hi | rfl
      · exact Or.inl (Or.inr (Or.inr ⟨u, i, rfl, hi⟩))
      · exact Or.inr rfl
    · have hi : i < s.count u := by simpa [allocate, hu] using hi
      exact Or.inl (Or.inr (Or.inr ⟨u, i, rfl, hi⟩))

end

theorem Allocated.mono {s s' : Memory T N} {x : Ptr T} (h : s.Allocated x)
    (hc : ∀ t, s.count t ≤ s'.count t) : s'.Allocated x :=
  h.imp_right fun h => h.imp_right fun ⟨t, i, hx, hi⟩ => ⟨t, i, hx, Nat.lt_of_lt_of_le hi (hc t)⟩

/-! ### Finitely many nodes -/

theorem finite_allocated {s : Memory T N} (h : {u | s.count u ≠ 0}.Finite) :
    {x | s.Allocated x}.Finite := by
  have hnodes : (⋃ u ∈ {u | s.count u ≠ 0}, (fun i => Ptr.node u i) '' {i | i < s.count u}).Finite :=
    h.biUnion fun u _ => (Set.finite_lt_nat _).image _
  refine ((Set.toFinite {Ptr.head, Ptr.tail}).union hnodes).subset ?_
  rintro x (rfl | rfl | ⟨u, i, rfl, hi⟩)
  · exact Or.inl (Or.inl rfl)
  · exact Or.inl (Or.inr rfl)
  · refine Or.inr (Set.mem_biUnion (x := u) ?_ ⟨i, hi, rfl⟩)
    exact Nat.ne_of_gt (Nat.lt_of_le_of_lt (Nat.zero_le i) hi)

/-- In a run in which threads allocate for themselves, finitely many have. -/
theorem run_finite {Op Res σ L ι : Type*} {P : Program T Op Res σ L ι} (heap : σ → Memory T N)
    (h0 : ∀ u, (heap P.init).count u = 0)
    (hstep : ∀ {i t s op l s' l'}, P.step i t s op l = some (s', l') →
      ∀ u, u ≠ t → (heap s').count u = (heap s).count u) {es c} (hr : P.Run es c) :
    {x | (heap c.shared).Allocated x}.Finite := by
  refine finite_allocated ?_
  induction hr with
  | init => simp [Program.initial, h0]
  | @step es c e c' hr hst _ ih =>
    cases hst with
    | call => exact ih
    | ret => exact ih
    | @tau t op l s' l' i ht hres hs =>
      refine (ih.insert t).subset fun u hu => ?_
      by_cases hut : u = t
      · exact Or.inl hut
      · exact Or.inr (fun h => hu ((hstep hs u hut).trans h))

end Memory

end Ascylib
