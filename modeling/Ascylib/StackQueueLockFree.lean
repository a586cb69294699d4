/-
# The stack of Treiber and the queue of Michael and Scott are lock-free

A CAS on `set->top`, or on the pointers of the queue, fails only if the pointer
was changed since the call read it, and then another call got on. The credits
(`due`) say how often a call can still do that: a call of the stack changes `top`
once, and one of the queue links one node or takes one out. `set->tail` is behind
by one node at most, so moving it on is paid for by the call that linked the node
(`lag`). Between two such changes each call needs one round to begin anew and
one to succeed (`rank`).

Key theorem: `stack_queue_lock_free`.
-/
import Ascylib.Concur.LockFree
import Ascylib.QueueMSLF
import Ascylib.StackTreiber

set_option linter.unusedSectionVars false
set_option linter.constructorNameAsVariable false

namespace Ascylib

open Concur

/-! ### The stack -/

namespace StackTreiber

open TreiberStack

variable {T A V : Type*} [DecidableEq T] [DecidableEq A]

/-- How often a call can still change `top`. -/
def due : Pc A V → ℕ
  | .alloc _ | .addTop _ | .setNext _ _ | .push _ _ => 1
  | .removeTop | .loadNext _ | .pop _ _ => 1
  | _ => 0

/-- The steps to the end of the round, or of the call. -/
def left : Pc A V → ℕ
  | .alloc _ => 4
  | .addTop _ | .removeTop => 3
  | .setNext _ _ | .loadNext _ => 2
  | .push _ _ | .pop _ _ => 1
  | .loadItem _ => 2
  | .release _ _ => 1
  | .added | .done _ | .empty => 0

/-- One round more for a call that has read another `top`. -/
def stale (s : TreiberStack A V) : Pc A V → ℕ
  | .setNext _ top | .push _ top => if s.top = top then 0 else 4
  | .loadNext top | .pop top _ => if s.top = some top then 0 else 4
  | _ => 0

def rank (s : TreiberStack A V) (l : Pc A V) : ℕ := left l + stale s l

variable {s s' : TreiberStack A V} {l l' : Pc A V} {a : A}

theorem rank_congr (h : s'.top = s.top) (l : Pc A V) : rank s' l = rank s l := by
  unfold rank
  congr 1
  cases l <;> simp only [stale, h]

/-- A step changes `top`, which uses up a credit, or leads on. -/
theorem step_rank [Zero V] (hres : result l = none) (hst : step a s l = some (s', l')) :
    due l' < due l ∨ due l' ≤ due l ∧ s'.top = s.top ∧ rank s' l' < rank s l := by
  cases l with
  | alloc item =>
    simp only [step] at hst
    split_ifs at hst
    cases hst
    exact Or.inr ⟨le_rfl, rfl, by simp [rank, left, stale]⟩
  | push node top =>
    by_cases ht : s.top = top
    · simp only [step, casTop, if_pos ht] at hst
      cases hst
      exact Or.inl (by simp [due])
    · simp only [step, casTop, if_neg ht] at hst
      cases hst
      exact Or.inr ⟨le_rfl, rfl, by simp [rank, left, stale, ht]⟩
  | pop top next =>
    by_cases ht : s.top = some top
    · simp only [step, casTop, if_pos ht] at hst
      cases hst
      exact Or.inl (by simp [due])
    · simp only [step, casTop, if_neg ht] at hst
      cases hst
      exact Or.inr ⟨le_rfl, rfl, by simp [rank, left, stale, ht]⟩
  | removeTop =>
    rcases ht : s.top with _ | top
    · simp only [step, ht] at hst
      cases hst
      exact Or.inl (by simp [due])
    · simp only [step, ht] at hst
      obtain ⟨rfl, rfl⟩ := Prod.mk.inj (Option.some.inj hst)
      exact Or.inr ⟨le_rfl, ht, by simp [rank, left, stale, ht]⟩
  | setNext node top =>
    cases hst
    exact Or.inr ⟨le_rfl, rfl, Nat.add_lt_add_right (Nat.lt_succ_self 1) _⟩
  | added => cases hres
  | done => cases hres
  | empty => cases hres
  | _ =>
    cases hst
    exact Or.inr ⟨le_rfl, rfl, by simp [rank, left, stale]⟩

variable [Zero V] {mem : A → StackqueueNodePadded A V}

theorem lock_free [Fintype T] : (program T mem).LockFree fun _ _ _ _ => True := by
  refine Program.lockFree_of_credit (tally fun _ => due) (fun s _ l => rank s l) ?_
  intro es c t op l a s' l' _ ht hres hst _
  have htally := tally_tau (f := fun _ => due) ht s' l' fun _ _ _ _ _ => rfl
  rcases step_rank hres hst with h | ⟨h, htop, hrank⟩
  · exact Or.inl (by omega)
  · exact Or.inr ⟨by omega, hrank, fun u op₁ l₁ _ _ => (rank_congr htop l₁).le⟩

omit [Zero V] in
/-- A step gives out its own address at most. -/
theorem given_of_step {b : A} (hst : step a s l = some (s', l')) (hb : b ≠ a)
    (h : s'.given b = true) : s.given b = true := by
  cases l with
  | alloc item =>
    simp only [step] at hst
    split_ifs at hst
    cases hst
    rw [← h]
    exact (Function.update_of_ne hb _ _).symm
  | push node top =>
    simp only [step, casTop] at hst
    split_ifs at hst <;> cases hst <;> exact h
  | pop top next =>
    simp only [step, casTop] at hst
    split_ifs at hst <;> cases hst <;> exact h
  | removeTop =>
    simp only [step] at hst
    split at hst <;> cases hst <;> exact h
  | release top val =>
    cases hst
    rcases eq_or_ne b top with rfl | hne
    · simp [release] at h
    · rw [← h]
      exact (Function.update_of_ne hne _ _).symm
  | _ =>
    cases hst
    exact h

/-- Finitely many addresses are given out. -/
theorem finite_given {es} {c : Config T (SqCall V) (TreiberStack A V) (Pc A V)}
    (hr : (program T mem).Run es c) : {a | c.shared.given a = true}.Finite := by
  induction hr with
  | init => exact Set.finite_empty.subset fun a ha => by cases ha
  | step _ hst _ ih =>
    cases hst with
    | call => exact ih
    | ret => exact ih
    | @tau t op l s' l' a ht hres hst =>
      -- an allocation adds its address, and every other step none
      refine (ih.insert a).subset fun b hb => ?_
      by_cases hba : b = a
      · exact Or.inl hba
      · exact Or.inr (given_of_step hst hba hb)

/-- An unfinished call can go on: there is an address for it. -/
theorem goes_on [Infinite A] {es} {c : Config T (SqCall V) (TreiberStack A V) (Pc A V)}
    (hr : (program T mem).Run es c) (l : Pc A V) : ∃ a q, step a c.shared l = some q := by
  obtain ⟨a, ha⟩ := (finite_given hr).exists_notMem
  have hg : c.shared.given a = false := by simpa using ha
  refine ⟨a, Option.ne_none_iff_exists'.mp ?_⟩
  cases l with
  | alloc item => simp [step, hg]
  | push node top =>
    simp only [step, casTop]
    split_ifs <;> simp
  | pop top next =>
    simp only [step, casTop]
    split_ifs <;> simp
  | removeTop =>
    simp only [step]
    split <;> simp
  | _ => simp [step]

end StackTreiber

/-! ### The queue -/

namespace QueueMSLF

open MsQueue

variable {T V : Type*} [DecidableEq T]

/-- How far `set->tail` is behind. -/
def lag (s : MsQueue T V) : ℕ := if s.next s.tail = .null then 0 else 1

/-- How often a call can still change a pointer of the queue; a linked node also
pays for moving `set->tail` on. -/
def due : Pc T V → ℕ
  | .add (.swing _ _) | .add .done => 0
  | .add _ => 2
  | .remove (.loadItem _ _) | .remove (.release _ _) | .remove (.done _) | .remove .empty => 0
  | .remove _ => 1

/-- The steps to the end of the round, or of the call. -/
def left : Pc T V → ℕ
  | .add (.alloc _) => 6
  | .add (.loadTail _) => 5
  | .add (.loadTailAgain _ _) => 4
  | .add (.loadNext _ _ _) => 3
  | .add (.check _ _ _) => 2
  | .add (.link _ _) | .add (.help _ _ _) | .add (.swing _ _) => 1
  | .add .done => 0
  | .remove .loadHead => 5
  | .remove (.loadTail _) => 4
  | .remove (.loadNext _ _) => 3
  | .remove (.check _ _ _) => 2
  | .remove (.swing _ _) | .remove (.pop _ _) => 1
  | .remove (.loadItem _ _) => 2
  | .remove (.release _ _) => 1
  | .remove (.done _) | .remove .empty => 0

/-- What the call has read in this round is still so. -/
def Fresh (s : MsQueue T V) : Pc T V → Prop
  | .add (.loadTailAgain _ tail) => s.tail = tail
  | .add (.loadNext _ tail tail2) => s.tail = tail ∧ s.tail = tail2
  | .add (.check _ tail next) => s.tail = tail ∧ s.next s.tail = next
  | .add (.link _ tail) => s.tail = tail ∧ s.next s.tail = .null
  | .add (.help _ tail _) => s.tail = tail
  | .remove (.loadTail head) => s.head = head
  | .remove (.loadNext head tail) => s.head = head ∧ s.tail = tail
  | .remove (.check head tail next) => s.head = head ∧ s.tail = tail ∧ s.next s.head = next
  | .remove (.swing tail _) => s.tail = tail
  | .remove (.pop head _) => s.head = head
  | _ => True

open Classical in
/-- One round more for a call that is not fresh. -/
noncomputable def rank (s : MsQueue T V) (l : Pc T V) : ℕ := left l + if Fresh s l then 0 else 6

/-- The pointers that a round reads. -/
structure Same (s s' : MsQueue T V) : Prop where
  head : s'.head = s.head
  tail : s'.tail = s.tail
  headNext : s'.next s.head = s.next s.head
  tailNext : s'.next s.tail = s.next s.tail

variable {s s' : MsQueue T V} {l l' : Pc T V}

theorem Same.lag (h : Same s s') : lag s' = lag s := by
  unfold QueueMSLF.lag
  rw [h.tail, h.tailNext]

theorem Same.fresh (h : Same s s') (l : Pc T V) : Fresh s' l ↔ Fresh s l := by
  obtain ⟨h1, h2, h3, h4⟩ := h
  rcases l with l | l <;> cases l <;> simp only [Fresh, h1, h2, h3, h4]

theorem Same.rank (h : Same s s') (l : Pc T V) : rank s' l = rank s l := by
  unfold QueueMSLF.rank
  rw [propext (h.fresh l)]

/-- A step within a round, which leaves what is fresh fresh. -/
theorem rank_next (hl : left l' < left l) (h : Fresh s l → Fresh s' l') :
    rank s' l' < rank s l := by
  unfold rank
  by_cases h1 : Fresh s l
  · rw [if_pos h1, if_pos (h h1)]
    exact hl
  · rw [if_neg h1]
    split_ifs <;> omega

/-- A round that fails was not fresh. -/
theorem rank_again (hl : left l' < left l + 6) (h : ¬ Fresh s l) (h' : Fresh s' l') :
    rank s' l' < rank s l := by
  unfold rank
  rw [if_neg h, if_pos h']
  exact hl

/-- A step moves a pointer of the queue on, which uses up a credit, or leads on. -/
def Pays (s : MsQueue T V) (l : Pc T V) (s' : MsQueue T V) (l' : Pc T V) : Prop :=
  due l' + lag s' < due l + lag s ∨ due l' ≤ due l ∧ Same s s' ∧ rank s' l' < rank s l

theorem Same.refl (s : MsQueue T V) : Same s s := ⟨rfl, rfl, rfl, rfl⟩

theorem Pays.next (hs : Same s s') (hd : due l' ≤ due l) (hl : left l' < left l)
    (h : Fresh s l → Fresh s' l') : Pays s l s' l' := Or.inr ⟨hd, hs, rank_next hl h⟩

theorem Pays.again (hd : due l' ≤ due l) (hl : left l' < left l + 6) (h : ¬ Fresh s l)
    (h' : Fresh s l') : Pays s l s l' := Or.inr ⟨hd, .refl s, rank_again hl h h'⟩

variable [Zero V]

/-- `set->tail` is brought up. -/
theorem lag_swing (w : Wf s) (h : s.next s.tail ≠ .null) :
    lag s = 1 ∧ lag (s.setTail (s.next s.tail)) = 0 :=
  ⟨if_neg h, if_pos (w.last.resolve_left h)⟩

theorem addStep_pays {t : T} {item : V} {l : AddPc T V} (w : Wf s) (h : AddAt t s item l)
    (hres : l ≠ .done) : Pays s (.add l) (addStep t s l).1 (.add (addStep t s l).2) := by
  cases l with
  | alloc v =>
    have hn : ∀ y ∈ s.all, (s.allocateStackqueueNode t v).1.next y = s.next y := fun y hy =>
      congrArg StackqueueNode.next
        (s.memory.mem_allocate_of_ne y _ t fun h => w.not_mem_next t (h ▸ hy))
    exact .next ⟨rfl, rfl, hn _ w.head, hn _ w.tail⟩ le_rfl (Nat.lt_succ_self _) id
  | loadTail node => exact .next (.refl s) le_rfl (Nat.lt_succ_self _) fun _ => rfl
  | loadTailAgain node tail => exact .next (.refl s) le_rfl (Nat.lt_succ_self _) fun h => ⟨h, rfl⟩
  | loadNext node tail tail2 =>
    exact .next (.refl s) le_rfl (Nat.lt_succ_self _) fun h => ⟨h.1, congrArg s.next h.2⟩
  | check node tail next =>
    simp only [addStep]
    split_ifs with ht hn
    · exact .next (.refl s) le_rfl (Nat.lt_succ_self _) fun h => ⟨h.1, h.2.trans hn⟩
    · exact .next (.refl s) le_rfl (Nat.lt_succ_self _) fun h => h.1
    · exact .again le_rfl (by simp [left]) (fun h => ht h.1.symm) trivial
  | link node tail =>
    by_cases hz : s.next tail = .null
    · -- at the last node `tail` is `set->tail`
      have he : s.tail = tail := eq_of_last h.2.2 hz
      subst he
      simp only [addStep, casNext, if_pos hz]
      have hlag : lag s = 0 ∧ lag (s.setNext s.tail node) = 1 :=
        ⟨if_pos hz, if_neg ((next_setNext_self ..).trans_ne h.1.ne_null)⟩
      exact Or.inl (by simp [hlag.1, hlag.2, due])
    · simp only [addStep, casNext, if_neg hz]
      exact .again le_rfl (by simp [left]) (fun h => hz (h.1 ▸ h.2)) trivial
  | help node tail next =>
    obtain ⟨-, -, h3, h4⟩ := h
    by_cases ht : s.tail = tail
    · subst ht
      simp only [addStep, casTail, if_true, ← h4]
      have hlag := lag_swing w (by rw [h4]; exact h3)
      exact Or.inl (by simp [hlag.1, hlag.2, due])
    · simp only [addStep, casTail, if_neg ht]
      exact .again le_rfl (by simp [left]) ht trivial
  | swing node tail =>
    obtain ⟨-, h2, h3⟩ := h
    by_cases ht : s.tail = tail
    · subst ht
      simp only [addStep, casTail, if_true, ← h3]
      have hlag := lag_swing w (by rw [h3]; exact h2)
      exact Or.inl (by simp [hlag.1, hlag.2, due])
    · simp only [addStep, casTail, if_neg ht]
      exact .next (.refl s) le_rfl (Nat.lt_succ_self _) id
  | done => exact absurd rfl hres

theorem removeStep_pays {E : Prop} {l : RemovePc T V} (w : Wf s) (h : RemoveAt E s l)
    (hres : l.result = none) :
    Pays s (.remove l) (removeStep s l).1 (.remove (removeStep s l).2) := by
  cases l with
  | loadHead => exact .next (.refl s) le_rfl (Nat.lt_succ_self _) fun _ => rfl
  | loadTail head => exact .next (.refl s) le_rfl (Nat.lt_succ_self _) fun h => ⟨h, rfl⟩
  | loadNext head tail =>
    exact .next (.refl s) le_rfl (Nat.lt_succ_self _) fun h => ⟨h.1, h.2, congrArg s.next h.1⟩
  | check head tail next =>
    simp only [removeStep]
    split_ifs with hh ht hn
    · exact Or.inl (Nat.add_lt_add_right Nat.one_pos _)
    · exact .next (.refl s) le_rfl (Nat.lt_succ_self _) fun h => h.2.1
    · exact .next (.refl s) le_rfl (Nat.lt_succ_self _) fun h => h.1
    · exact .again le_rfl (by simp [left]) (fun h => hh h.1.symm) trivial
  | swing tail next =>
    obtain ⟨-, h2, h3⟩ := h
    by_cases ht : s.tail = tail
    · subst ht
      rw [removeStep_swing_eq s _ next rfl, ← h3]
      have hlag := lag_swing w (by rw [h3]; exact h2)
      exact Or.inl (by simp [hlag.1, hlag.2, due])
    · rw [removeStep_swing_ne s tail next ht]
      exact .again le_rfl (by simp [left]) ht trivial
  | pop head next =>
    by_cases hh : s.head = head
    · rw [removeStep_pop_eq s head next hh]
      exact Or.inl (Nat.add_lt_add_right Nat.one_pos _)
    · rw [removeStep_pop_ne s head next hh]
      exact .again le_rfl (by simp [left]) hh trivial
  | loadItem head next => exact .next (.refl s) le_rfl (Nat.lt_succ_self _) id
  | release head item => exact .next ⟨rfl, rfl, rfl, rfl⟩ le_rfl (Nat.lt_succ_self _) id
  | done item => cases hres
  | empty => cases hres

theorem lock_free [Fintype T] : (program T V).LockFree fun _ _ _ _ => True := by
  refine Program.lockFree_of_credit (fun c => tally (fun _ => due) c + lag c.shared)
    (fun s _ l => rank s l) ?_
  intro es c t op l _ s' l' hr ht hres hst _
  have htally := tally_tau (f := fun _ => due) ht s' l' fun _ _ _ _ _ => rfl
  have hpays : Pays c.shared l s' l' := by
    have hat : At t (since t es) c.shared op l := at_loc hr ht
    have w : Wf c.shared := (inv hr).wf
    obtain ⟨rfl, rfl⟩ := Prod.mk.inj (Option.some.inj hst)
    cases op with
    | add item =>
      cases l with
      | remove l => exact hat.elim
      | add l => exact addStep_pays w hat.2 fun h => by rw [h] at hres; cases hres
    | remove =>
      cases l with
      | add l => exact hat.elim
      | remove l => exact removeStep_pays w hat hres
  rcases hpays with h | ⟨h, hsame, hrank⟩
  · exact Or.inl (by simp only; omega)
  · refine Or.inr ⟨?_, hrank, fun u op₁ l₁ _ _ => (hsame.rank l₁).le⟩
    rw [hsame.lag]
    omega

end QueueMSLF

/-- **The stack of Treiber and the queue of Michael and Scott are lock-free**: in
every run that goes on for ever, whichever threads the scheduler stops, calls
return again and again, and a call that has not returned can always go on. -/
theorem stack_queue_lock_free {T A V : Type*} [Fintype T] [DecidableEq T] [DecidableEq A]
    [Infinite A] [Zero V] (mem : A → StackqueueNodePadded A V) :
    ((StackTreiber.program T mem).LockFree (fun _ _ _ _ => True) ∧
      ∀ es c, (StackTreiber.program T mem).Run es c → ∀ t op l, c.threads t = some (op, l) →
        ∃ a q, (StackTreiber.program T mem).step a t c.shared op l = some q) ∧
    (QueueMSLF.program T V).LockFree fun _ _ _ _ => True :=
  ⟨⟨StackTreiber.lock_free, fun _ _ hr _ _ l _ => StackTreiber.goes_on hr l⟩, QueueMSLF.lock_free⟩

theorem stack_queue_lock_free_three :
    ((StackTreiber.program (Fin 3) (A := ℕ) (V := ℕ) fun _ => ⟨0, none⟩).LockFree
        (fun _ _ _ _ => True) ∧
      ∀ es c, (StackTreiber.program (Fin 3) (A := ℕ) (V := ℕ) fun _ => ⟨0, none⟩).Run es c →
        ∀ t op l, c.threads t = some (op, l) →
          ∃ a q, (StackTreiber.program (Fin 3) fun _ => ⟨0, none⟩).step a t c.shared op l =
            some q) ∧
    (QueueMSLF.program (Fin 3) ℕ).LockFree fun _ _ _ _ => True :=
  stack_queue_lock_free fun _ => ⟨0, none⟩

end Ascylib
