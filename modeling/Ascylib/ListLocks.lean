/-
# The locks of the lists with a lock in each node

`linkedlist_lazy.h` and `linkedlist_pugh.h`, the second with and without
`RO_FAIL`. Only the updates take locks, and an update that holds one takes
another only further on in the list: `remove` locks the predecessor first, then
the node. So the calls never wait for each other in a circle, though nodes come
and go under them, and a lock on a node that was removed is given back like any
other.

Key definitions: `Memory.locking`, `LinkedListLazy.locking`, `LinkedListPugh.locking`.
Key theorem: `list_locks`.
-/
import Ascylib.Concur.Locks
import Ascylib.LinkedListLazy
import Ascylib.PughPointers

set_option linter.unusedSectionVars false

namespace Ascylib

open Concur

/-! ### Locks in the nodes -/

namespace Memory

variable {T N L : Type*} [DecidableEq T]

/-- The locks of a structure whose nodes have the lock `lk`. -/
def locking (lk : N → Option T) (holds : L → List (Ptr T)) (wants : L → Option (Ptr T)) :
    Locking (Memory T N) L (Ptr T) where
  taken s x := lk (s.mem x) ≠ none
  holds := holds
  wants := wants

variable {lk : N → Option T} {holds : L → List (Ptr T)} {wants : L → Option (Ptr T)}
  {s : Memory T N} {x y : Ptr T} {f : N → N} {l l' : L}

theorem mem_modify_cases (s : Memory T N) (x y : Ptr T) (f : N → N) :
    x = y ∧ (s.modify y f).mem x = f (s.mem x) ∨ x ≠ y ∧ (s.modify y f).mem x = s.mem x := by
  by_cases h : x = y
  · subst h
    exact Or.inl ⟨rfl, by simp⟩
  · exact Or.inr ⟨h, s.mem_modify_of_ne y x f h⟩

/-- A write that leaves the lock of the node alone. -/
theorem follows_write (hf : ∀ n, lk (f n) = lk n) (hh : holds l ⊆ holds l') :
    (locking lk holds wants).Follows s l (s.modify y f) l' := by
  refine .same (fun x hx => ?_) hh
  rcases mem_modify_cases s x y f with ⟨-, he⟩ | ⟨-, he⟩
  · simpa only [locking, he, hf] using hx
  · simpa only [locking, he] using hx

theorem follows_lock (hy : y ∈ holds l') (hh : holds l ⊆ holds l') :
    (locking lk holds wants).Follows s l (s.modify y f) l' := by
  refine .take (fun x hx => ?_) hy hh
  rcases mem_modify_cases s x y f with ⟨he, -⟩ | ⟨-, he⟩
  · exact Or.inl he
  · exact Or.inr (by simpa only [locking, he] using hx)

theorem follows_unlock (hf : ∀ n, lk (f n) = none) (hh : ∀ x ∈ holds l, x = y ∨ x ∈ holds l') :
    (locking lk holds wants).Follows s l (s.modify y f) l' := by
  refine .give (fun x hx => ?_) hh
  rcases mem_modify_cases s x y f with ⟨-, he⟩ | ⟨hne, he⟩
  · exact absurd (by rw [he, hf]) hx
  · exact ⟨hne, by simpa only [locking, he] using hx⟩

theorem follows_read (hh : holds l ⊆ holds l') : (locking lk holds wants).Follows s l s l' :=
  .same (fun _ hx => hx) hh

/-- A new node is not locked. -/
theorem follows_allocate {t : T} {n : N} (hn : lk n = none) (hh : holds l ⊆ holds l') :
    (locking lk holds wants).Follows s l (s.allocate t n).1 l' := by
  refine .same (fun x hx => ?_) hh
  by_cases he : x = .node t (s.count t)
  · subst he
    exact absurd ((congrArg lk (s.mem_allocate_self n t)).trans hn) hx
  · simpa only [locking, s.mem_allocate_of_ne x n t he] using hx

end Memory

/-! ### The lazy list -/

namespace LinkedListLazy

variable {T K V : Type*} [DecidableEq T] [LinearOrder K] [Zero V]

/-- The nodes whose locks the call holds. -/
def holds : Pc T V → List (Ptr T)
  | .insertPredMarked pred _ => [pred]
  | .insertCurrMarked pred _ => [pred]
  | .insertPredNext pred _ => [pred]
  | .insertNe pred _ => [pred]
  | .insertAlloc pred _ => [pred]
  | .insertStore pred _ => [pred]
  | .insertUnlock pred _ => [pred]
  | .removeLockCurr pred _ => [pred]
  | .removePredMarked pred curr => [pred, curr]
  | .removeCurrMarked pred curr => [pred, curr]
  | .removePredNext pred curr => [pred, curr]
  | .removeEq pred curr => [pred, curr]
  | .removeVal pred curr => [pred, curr]
  | .removeCnext pred curr _ => [pred, curr]
  | .removeMark pred curr _ _ => [pred, curr]
  | .removeStore pred curr _ _ => [pred, curr]
  | .removeFree pred curr _ => [pred, curr]
  | .removeUnlockCurr pred curr _ => [pred, curr]
  | .removeUnlockPred pred _ => [pred]
  | _ => []

/-- The lock that the next step asks for. -/
def wants : Pc T V → Option (Ptr T)
  | .insertLock pred _ => some pred
  | .removeLockPred pred _ => some pred
  | .removeLockCurr _ curr => some curr
  | _ => none

abbrev locking (T K V : Type*) [DecidableEq T] : Locking (MarkedHeap T K V) (Pc T V) (Ptr T) :=
  Memory.locking LlMarked.lock holds wants

variable {t : T} {s s' : MarkedHeap T K V} {op : Call K V} {l l' : Pc T V}

theorem follows_acquire {x : Ptr T} {l₁ : Pc T V}
    (hst : (s.acquire t x).map (fun s => (s, l₁)) = some (s', l')) (hx : x ∈ holds l₁)
    (hh : holds l ⊆ holds l₁) : (locking T K V).Follows s l s' l' := by
  obtain ⟨s₁, h1, h2⟩ := Option.map_eq_some_iff.mp hst
  obtain ⟨-, rfl⟩ := MarkedHeap.acquire_eq_some h1
  cases h2
  exact Memory.follows_lock hx hh

/-- What a step does to the locks. -/
theorem step_follows (hst : step t s op l = some (s', l')) : (locking T K V).Follows s l s' l' := by
  cases l
  case insertLock p c | removeLockPred p c | removeLockCurr p c =>
    exact follows_acquire hst (by simp [holds]) (by simp [holds])
  case insertAlloc p c =>
    cases op <;> cases hst
    · exact Memory.follows_read (by simp [holds])
    · exact Memory.follows_allocate rfl (by simp [holds])
    · exact Memory.follows_read (by simp [holds])
  case insertUnlock p r =>
    cases hst
    exact Memory.follows_unlock (fun _ => rfl) (by simp [holds])
  case removeUnlockCurr p c r | removeUnlockPred p r =>
    cases hst
    exact Memory.follows_unlock (fun _ => rfl) (by simp [holds])
  case insertStore p n | removeMark p c n r | removeStore p c n r =>
    cases hst
    exact Memory.follows_write (fun _ => rfl) (by simp [holds])
  case removeFree p c r =>
    cases hst
    exact .same (fun _ hx => hx) (by simp [holds, Memory.locking])
  case searchNext | searchVal | insertHead | insertNext | removeHead | removeNext | removeVal |
      removeCnext | done | unchanged =>
    cases hst
    exact Memory.follows_read (by simp [holds])
  all_goals
    cases hst
    exact Memory.follows_read (by split_ifs <;> simp [holds])

/-- A call that cannot take its next step asks for a lock that is taken. -/
theorem wants_of_waits (hres : result l = none) (hst : step t s op l = none) :
    ∃ x, wants l = some x ∧ s.lock x ≠ none := by
  have hacquire : ∀ {x} {g : MarkedHeap T K V → MarkedHeap T K V × Pc T V},
      (s.acquire t x).map g = none → s.lock x ≠ none := by
    intro x g h hl
    simp [MarkedHeap.acquire, hl] at h
  cases l
  case insertLock p c | removeLockPred p c | removeLockCurr p c => exact ⟨_, rfl, hacquire hst⟩
  case insertAlloc => cases op <;> cases hst
  case done | unchanged => cases hres
  all_goals cases hst

variable [BoundedOrder K] [Nontrivial K] {S W : Set (MarkedHeap T K V)}
  {es : Trace T (Call K V) (Answer V) (MarkedHeap T K V) (Pc T V)}
  {c : Config T (Call K V) (MarkedHeap T K V) (Pc T V)}

/-- `remove` locks the predecessor, then the node, which has a larger key. -/
theorem At.ordered (h : At t S W s op l) {x y : Ptr T} (hx : wants l = some x) (hy : y ∈ holds l) :
    s.key y < s.key x := by
  cases l
  case removeLockCurr p c =>
    obtain ⟨-, -, h3, -, h5⟩ := h
    cases hx
    obtain rfl := List.mem_singleton.mp hy
    rw [h5]
    exact h3
  case insertLock | removeLockPred => cases hy
  all_goals cases hx

theorem ordered (hr : (program T K V).Run es c) :
    ((locking T K V).table c).Ordered c.shared.key := by
  intro t x hx y ⟨op, l, ht, hy⟩
  have hx : wants l = some x := by simpa [Locking.table, ht, Memory.locking] using hx
  exact ((outline.holds hr).loc t op l ht).2.2.2.ordered hx hy

/-- **No deadlock in the lazy list.** -/
theorem live [Finite T] : (locking T K V).Live (program T K V) := by
  intro es c hr
  have hheld : ∀ x, (locking T K V).taken c.shared x → ∃ t op l, c.threads t = some (op, l) ∧
      x ∈ holds l := fun x hx =>
    Locking.held_of_taken (Q := locking T K V) (fun x => not_not.mpr (by cases x <;> rfl))
      (fun {l r} hres => by cases l <;> cases hres <;> rfl)
      (fun _ _ _ hst _ => step_follows hst) hr hx
  exact ⟨hheld, Locking.progress (ordered hr) hheld fun t op l ht hres hst =>
    wants_of_waits hres (hst ())⟩

end LinkedListLazy

/-! ### Pugh's list -/

namespace LinkedListPugh

open LockedList

variable {T K V : Type*} [DecidableEq T] [LinearOrder K] [Zero V]

/-- The nodes whose locks the call holds. -/
def holds : Pc T V → List (Ptr T)
  | .strongNext pred => [pred]
  | .strongLt pred _ => [pred]
  | .strongUnlock pred _ => [pred]
  | .rightEq left _ => [left]
  | .insertNext left => [left]
  | .insertAlloc left _ => [left]
  | .insertStore left _ => [left]
  | .insertUnlock left _ => [left]
  | .removeLock left _ => [left]
  | .removeVal left right => [left, right]
  | .removeNext left right _ => [left, right]
  | .removeStore left right _ _ => [left, right]
  | .removeBack left right _ => [left, right]
  | .removeUnlockRight left right _ => [left, right]
  | .removeFree left _ _ => [left]
  | .removeUnlockLeft left _ => [left]
  | _ => []

/-- The lock that the next step asks for. -/
def wants : Pc T V → Option (Ptr T)
  | .strongLock pred => some pred
  | .removeLock _ right => some right
  | _ => none

abbrev locking (T K V : Type*) [DecidableEq T] : Locking (LockedHeap T K V) (Pc T V) (Ptr T) :=
  Memory.locking LlLocked.lock holds wants

variable {t : T} {s s' : LockedHeap T K V} {op : Call K V} {l l' : Pc T V}

theorem follows_acquire {x : Ptr T} {l₁ : Pc T V}
    (hst : (s.acquire t x).map (fun s => (s, l₁)) = some (s', l')) (hx : x ∈ holds l₁)
    (hh : holds l ⊆ holds l₁) : (locking T K V).Follows s l s' l' := by
  obtain ⟨s₁, h1, h2⟩ := Option.map_eq_some_iff.mp hst
  obtain ⟨-, rfl⟩ := LockedHeap.acquire_eq_some h1
  cases h2
  exact Memory.follows_lock hx hh

/-- What a step does to the locks. -/
theorem step_follows (hst : step t s op l = some (s', l')) : (locking T K V).Follows s l s' l' := by
  cases l
  case strongLock p | removeLock p c =>
    exact follows_acquire hst (by simp [holds]) (by simp [holds])
  case insertAlloc p c =>
    cases op <;> cases hst
    · exact Memory.follows_read (by simp [holds])
    · exact Memory.follows_allocate rfl (by simp [holds])
    · exact Memory.follows_read (by simp [holds])
  case strongUnlock p c | insertUnlock p r | removeUnlockRight p c r | removeUnlockLeft p r =>
    cases hst
    exact Memory.follows_unlock (fun _ => rfl) (by simp [holds])
  case insertStore p n | removeStore p c n r | removeBack p c r =>
    cases hst
    exact Memory.follows_write (fun _ => rfl) (by simp [holds])
  case removeFree p c r =>
    cases hst
    exact .same (fun _ hx => hx) (by simp [holds, Memory.locking])
  case rightEq p c =>
    cases hst
    refine Memory.follows_read ?_
    rcases op with k | ⟨k, v⟩ | k <;> unfold found <;> split <;> simp [holds]
  case weakRightLt c | searchEq c | weakLeftLt p c | condEq p c | strongLt p c =>
    cases hst
    exact Memory.follows_read (by split_ifs <;> simp [holds])
  all_goals
    cases hst
    exact Memory.follows_read (by simp [holds])

theorem stepStrong_follows (hst : stepStrong t s op l = some (s', l')) :
    (locking T K V).Follows s l s' l' := by
  cases l
  case weakLeftLt p c =>
    cases hst
    exact Memory.follows_read (by split_ifs <;> simp [holds])
  all_goals exact step_follows (show step t s op _ = _ from hst)

/-- A call that cannot take its next step asks for a lock that is taken. -/
theorem wants_of_waits (hres : result l = none) (hst : step t s op l = none) :
    ∃ x, wants l = some x ∧ s.lock x ≠ none := by
  have hacquire : ∀ {x} {g : LockedHeap T K V → LockedHeap T K V × Pc T V},
      (s.acquire t x).map g = none → s.lock x ≠ none := by
    intro x g h hl
    simp [LockedHeap.acquire, hl] at h
  cases l
  case strongLock p | removeLock p c => exact ⟨_, rfl, hacquire hst⟩
  case insertAlloc => cases op <;> cases hst
  case done | unchanged => cases hres
  all_goals cases hst

theorem wants_of_waitsStrong (hres : result l = none) (hst : stepStrong t s op l = none) :
    ∃ x, wants l = some x ∧ s.lock x ≠ none := by
  cases l
  case weakLeftLt => cases hst
  all_goals exact wants_of_waits hres (show step t s op _ = _ from hst)

variable [BoundedOrder K] [Nontrivial K] {S W : Set (LockedHeap T K V)} {roFail : Bool}
  {es : Trace T (Call K V) (Answer V) (LockedHeap T K V) (Pc T V)}
  {c : Config T (Call K V) (LockedHeap T K V) (Pc T V)}

/-- `remove` locks the node after the one it has locked. -/
theorem Place.ordered (h : Place t S W s op l) {x y : Ptr T} (hx : wants l = some x)
    (hy : y ∈ holds l) : s.key y < s.key x := by
  cases l
  case removeLock p c =>
    obtain ⟨k, -, h2, -⟩ := h nofun
    cases hx
    obtain rfl := List.mem_singleton.mp hy
    exact h2.lt.trans_le h2.le
  case strongLock => cases hy
  all_goals cases hx

theorem ordered (hr : (pughList T K V roFail).Run es c) :
    ((locking T K V).table c).Ordered c.shared.key := by
  intro t x hx y ⟨op, l, ht, hy⟩
  have hx : wants l = some x := by simpa [Locking.table, ht, Memory.locking] using hx
  exact (((pointers roFail).holds hr).loc t op l ht).2.2.2.ordered hx hy

/-- **No deadlock in Pugh's list**, in either build. -/
theorem live [Finite T] (roFail : Bool) : (locking T K V).Live (pughList T K V roFail) := by
  intro es c hr
  have hheld : ∀ x, (locking T K V).taken c.shared x → ∃ t op l, c.threads t = some (op, l) ∧
      x ∈ holds l := fun x hx =>
    Locking.held_of_taken (Q := locking T K V) (fun x => not_not.mpr (by cases x <;> rfl))
      (fun {l r} hres => by cases l <;> cases hres <;> rfl)
      (fun _ _ _ hst _ => by cases roFail; exacts [stepStrong_follows hst, step_follows hst]) hr hx
  refine ⟨hheld, Locking.progress (ordered hr) hheld fun t op l ht hres hst => ?_⟩
  cases roFail
  · exact wants_of_waitsStrong hres (hst ())
  · exact wants_of_waits hres (hst ())

end LinkedListPugh

/-- **The lists with a lock in each node do not deadlock.** A lock that is taken
is held by an unfinished call, and as long as there are unfinished calls, not all
of them wait. -/
theorem list_locks {T K V : Type*} [DecidableEq T] [Finite T] [LinearOrder K] [BoundedOrder K]
    [Nontrivial K] [Zero V] :
    (LinkedListLazy.locking T K V).Live (LinkedListLazy.program T K V) ∧
      ∀ roFail, (LinkedListPugh.locking T K V).Live (LinkedListPugh.pughList T K V roFail) :=
  ⟨LinkedListLazy.live, LinkedListPugh.live⟩

/-- Three threads, and keys 1 to 8. -/
theorem list_locks_three : (LinkedListLazy.locking (Fin 3) (Fin 10) ℕ).Live
    (LinkedListLazy.program (Fin 3) (Fin 10) ℕ) :=
  list_locks.1

end Ascylib
