/-
# Which calls give their locks back

The build with `LL_GLOBAL_LOCK` makes `LOCK` and `UNLOCK` empty and keeps
`LOCK_A` and `UNLOCK_A`. `StackLock` and `QueueMSHybrid` use only these, so
their calls give back in both builds what they took. A `remove` of `QueueMSLB`
that finds the queue empty takes `head_lock` with `LOCK_A` and gives it back
with `UNLOCK`: in the build with `LL_GLOBAL_LOCK` it returns with the lock held
(`head_lock_leaks`).

In the runs in which no `remove` does that, every held lock is held by a call
that has not returned (`locks_given_back`).
-/
import Ascylib.LockInit

set_option linter.unusedSectionVars false

namespace Ascylib

open Concur

namespace QueueMSLB

variable {T V Λ : Type*} [DecidableEq T] [Zero V] {A : LockOps T Λ} {headLock tailLock : Λ}

/-- The queue in one of the two builds, for any clients. -/
abbrev anyClients (A : LockOps T Λ) (llGlobalLock : Bool) (headLock tailLock : Λ) :
    Program T (SqCall V) (Answer V) (LockedQueue T V Λ) (Pc T V) Unit :=
  { program A llGlobalLock headLock tailLock with pre := fun _ => True }

/-- In the build with `LL_GLOBAL_LOCK` no `remove` finds the queue empty. -/
def FindsItem (llGlobalLock : Bool) (_ : Trace T (SqCall V) (Answer V) (LockedQueue T V Λ) (Pc T V))
    (c : Config T (SqCall V) (LockedQueue T V Λ) (Pc T V)) (e : Event T (SqCall V) (Answer V))
    (_ : Config T (SqCall V) (LockedQueue T V Λ) (Pc T V)) : Prop :=
  llGlobalLock = true → ∀ t op node, e = .tau t →
    c.threads t = some (op, .remove (.loadNext node)) → c.shared.queue.next node ≠ .null

/-- A local state from which `UNLOCK` is the next thing to do. -/
def AtUnlock : Pc T V → Prop
  | .remove .unlockEmpty => True
  | _ => False

/-- Both builds do the same but for `UNLOCK`. -/
theorem step_build {llGlobalLock : Bool} {t : T} {s : LockedQueue T V Λ} {l : Pc T V}
    (h : llGlobalLock = true → ¬ AtUnlock l) : step A llGlobalLock t s l = step A false t s l := by
  cases llGlobalLock with
  | false => rfl
  | true =>
    rcases l with l | l
    · rfl
    · cases l
      case unlockEmpty => exact absurd trivial (h rfl)
      all_goals rfl

/-- `UNLOCK` is what a `remove` does that has found the queue empty. -/
theorem atUnlock_step {t : T} {s s' : LockedQueue T V Λ} {l l' : Pc T V}
    (hstep : step A false t s l = some (s', l')) (h : AtUnlock l') :
    ∃ node, l = .remove (.loadNext node) ∧ s.queue.next node = .null := by
  rcases l with l | l
  · obtain ⟨⟨s₁, l₁⟩, -, he⟩ := Option.map_eq_some_iff.mp hstep
    cases he
    exact h.elim
  · obtain ⟨⟨s₁, l₁⟩, hremove, he⟩ := Option.map_eq_some_iff.mp hstep
    cases he
    cases l
    case lock =>
      obtain ⟨w, -, he⟩ := Option.map_eq_some_iff.mp hremove
      cases he
      exact h.elim
    case loadNext node =>
      cases hremove
      by_cases hn : s.queue.next node = .null
      · exact ⟨node, rfl, hn⟩
      · rw [if_neg hn] at h
        exact h.elim
    all_goals
      cases hremove
      exact h.elim

/-- **A run that finds items is one of the build with a lock for every node.** -/
theorem run_build {llGlobalLock : Bool} {es} {c : Config T (SqCall V) (LockedQueue T V Λ) (Pc T V)}
    (hr : (anyClients A llGlobalLock headLock tailLock).RunIf (FindsItem llGlobalLock) es c) :
    (anyClients A false headLock tailLock).Run es c ∧
      (llGlobalLock = true → ∀ t op l, c.threads t = some (op, l) → ¬ AtUnlock l) := by
  induction hr with
  | init => exact ⟨.init, fun _ t op l h => by cases h⟩
  | @step es c e c' hr hst hok ih =>
    obtain ⟨hrun, hat⟩ := ih
    cases hst with
    | @call t op hidle hpre =>
      refine ⟨.step hrun (.call hidle hpre) trivial, fun hb u op₁ l₁ hu => ?_⟩
      rcases update_eq_some.mp hu with ⟨rfl, h⟩ | ⟨-, hu⟩
      · cases h
        cases op <;> exact id
      · exact hat hb u op₁ l₁ hu
    | @ret t op l r ht hres =>
      refine ⟨.step hrun (.ret ht hres) trivial, fun hb u op₁ l₁ hu => ?_⟩
      rcases update_eq_some.mp hu with ⟨rfl, h⟩ | ⟨-, hu⟩
      · cases h
      · exact hat hb u op₁ l₁ hu
    | @tau t op l s' l' i ht hres hstep =>
      have hs : step A false t c.shared l = some (s', l') := by
        rw [← step_build fun hb => hat hb t op l ht]
        exact hstep
      refine ⟨.step hrun (.tau i ht hres hs) trivial, fun hb u op₁ l₁ hu => ?_⟩
      rcases update_eq_some.mp hu with ⟨rfl, h⟩ | ⟨-, hu⟩
      · cases h
        intro hunlock
        obtain ⟨node, rfl, hn⟩ := atUnlock_step hs hunlock
        exact hok hb _ _ node rfl ht hn
      · exact hat hb u op₁ l₁ hu

end QueueMSLB

section

variable {T V Λ : Type*} [DecidableEq T] [Nonempty T] [Zero V]

/-- `QueueMSHybrid` does not touch its `head_lock`. -/
theorem QueueMSHybrid.headLock_eq (A : LockOps T Λ) (headLock tailLock : Λ) {es c}
    (hr : Program.Run { QueueMSHybrid.program (V := V) A headLock tailLock with pre := fun _ => True }
      es c) : c.shared.headLock = headLock := by
  induction hr with
  | init => rfl
  | @step es c e c' hr hst hok ih =>
    cases hst with
    | call | ret => exact ih
    | @tau t op l s' l' i ht hres hstep =>
      rcases l with l | l
      · obtain ⟨⟨s₁, l₁⟩, hadd, he⟩ := Option.map_eq_some_iff.mp hstep
        cases he
        exact (LockedQueue.addStep_lock hadd).1.trans ih
      · cases hstep
        exact ih

/-- **A held lock is held by a call that has not returned**, in both builds, if
the locks are free at the start and, in the build with `LL_GLOBAL_LOCK`, no
`remove` of a `QueueMSLB` finds the queue empty. -/
theorem locks_given_back (A : LockOps T Λ) (Free Held : Λ → Prop) (hA : A.Lawful Free Held)
    (lock headLock tailLock : Λ) (h0 : Free lock) (hh : Free headLock) (ht : Free tailLock) :
    GivesBack { StackLock.program (V := V) A lock with pre := fun _ => True }
      (fun s => Held s.lock) StackLock.Inside ∧
    GivesBack { QueueMSHybrid.program (V := V) A headLock tailLock with pre := fun _ => True }
      (fun s => Held s.headLock) (fun _ => False) ∧
    GivesBack { QueueMSHybrid.program (V := V) A headLock tailLock with pre := fun _ => True }
      (fun s => Held s.tailLock) QueueMSHybrid.Inside ∧
    ∀ llGlobalLock,
      GivesBackIf (QueueMSLB.anyClients (V := V) A llGlobalLock headLock tailLock)
        (QueueMSLB.FindsItem llGlobalLock) (fun s => Held s.headLock) QueueMSLB.InsideHead ∧
      GivesBackIf (QueueMSLB.anyClients (V := V) A llGlobalLock headLock tailLock)
        (QueueMSLB.FindsItem llGlobalLock) (fun s => Held s.tailLock) QueueMSLB.InsideTail := by
  refine ⟨(StackLock.lockUse A lock fun _ => True).gives_back hA h0, fun es c hr hheld => ?_,
    (QueueMSHybrid.tailUse A headLock tailLock fun _ => True).gives_back hA ht,
    fun b => ⟨fun es c hr => ?_, fun es c hr => ?_⟩⟩
  · have hheld : Held c.shared.headLock := hheld
    rw [QueueMSHybrid.headLock_eq A headLock tailLock hr] at hheld
    exact (hA.not_both (Classical.arbitrary T) hh hheld).elim
  · exact (QueueMSLB.headUse A headLock tailLock fun _ => True).gives_back hA hh es c
      (QueueMSLB.run_build hr).1
  · exact (QueueMSLB.tailUse A headLock tailLock fun _ => True).gives_back hA ht es c
      (QueueMSLB.run_build hr).1

end

/-- Three threads and TAS locks, in the build with `LL_GLOBAL_LOCK`. -/
theorem locks_given_back_tas :
    GivesBackIf (QueueMSLB.anyClients (V := ℕ) (tasOps (Fin 3)) true TAS_FREE TAS_FREE)
      (QueueMSLB.FindsItem true) (fun s => s.headLock = TAS_LCKD) QueueMSLB.InsideHead :=
  ((locks_given_back (V := ℕ) (tasOps (Fin 3)) _ _ tasOps_lawful TAS_FREE TAS_FREE TAS_FREE rfl rfl
    rfl).2.2.2 true).1

/-! ### A lock that is not given back -/

/-- One thread finds the queue empty, and returns. -/
def removeEmpty : List (Move (Fin 1) (SqCall ℕ) Unit) :=
  [.call 0 .remove] ++ List.replicate 4 (.tau 0 ()) ++ [.ret 0]

theorem removeEmpty_state :
    (Program.play (QueueMSLB.anyClients (tasOps (Fin 1)) true TAS_FREE TAS_FREE)
      ([], Program.initial (QueueMSLB.anyClients (tasOps (Fin 1)) true TAS_FREE TAS_FREE))
      removeEmpty).any
      (fun q => decide (q.2.shared.headLock = TAS_LCKD) && (q.2.threads 0).isNone) = true := by
  decide +kernel

/-- **A `remove` can return with the lock held.** -/
theorem head_lock_leaks :
    ¬ GivesBack (QueueMSLB.anyClients (V := ℕ) (tasOps (Fin 1)) true TAS_FREE TAS_FREE)
      (fun s => s.headLock = TAS_LCKD) fun _ => True := by
  intro hclaim
  obtain ⟨⟨es, c⟩, hplay, hq⟩ := (Option.any_eq_true _ _).mp removeEmpty_state
  obtain ⟨hlock, hnone⟩ := Bool.and_eq_true_iff.mp hq
  obtain ⟨t, op, l, ht, -⟩ := hclaim es c (Program.play_run _ .init (fun _ _ _ => trivial) hplay)
    (of_decide_eq_true hlock)
  rw [Subsingleton.elim t 0, Option.isNone_iff_eq_none.mp hnone] at ht
  cases ht

end Ascylib
