/-
# Locks that no constructor initialises

`StackLock`, `QueueMSLB` and `QueueMSHybrid` use locks that their constructors
leave as `aligned_alloc` gave them. In the TAS build a word other than
`TAS_FREE` and `TAS_LCKD` lets every thread through until the first unlock, and
`TAS_LCKD` none at all. So each lock excludes for any number of threads exactly
if its word happens to be `TAS_FREE` (`locks_exclude_iff`).
-/
import Ascylib.QueueMSHybrid
import Ascylib.QueueMSLB
import Ascylib.StackLock

set_option linter.unusedSectionVars false

namespace Ascylib

open Concur

section tas

variable {T Op Res σ L ι : Type*} [DecidableEq T] {P : Program T Op Res σ L ι}
  {U : LockUse (tasOps T) P}

/-- A step of a thread that asks for a TAS lock. -/
theorem tas_enter {i : ι} {t : T} {s s' : σ} {op : Op} {l l' : L} (h : U.Asks l)
    (hs : P.step i t s op l = some (s', l')) :
    tasLock (U.word s) = some (U.word s') ∧ U.Holds l' := by
  rcases U.step hs with ⟨-, h1, h2⟩ | ⟨h1, -, -⟩ | ⟨h1, -, -⟩
  · exact ⟨h1, h2⟩
  · exact absurd h1 (U.apart h)
  · exact absurd h h1

/-- **A TAS lock that does not start free keeps nobody out, or everybody.** -/
theorem tas_not_excludes [Nonempty ι] (hreach : U.Reaches) {t u : T} (htu : t ≠ u)
    (h0 : U.word P.init ≠ TAS_FREE) : ¬ U.Excludes := by
  intro hex
  obtain ⟨i⟩ := ‹Nonempty ι›
  obtain ⟨es₁, c₁, op₁, l₁, hr₁, hw₁, ht₁, ha₁⟩ := hreach [] P.initial t .init rfl
  have hw₁ : U.word c₁.shared = U.word P.init := hw₁
  have hc₁ : c₁.threads t = some (op₁, l₁) := by
    rw [ht₁]
    exact Function.update_self ..
  have hnone : ∀ v, ¬ U.Inside c₁ v := by
    rintro v ⟨op, l, hv, hh⟩
    rw [ht₁, update_eq_some] at hv
    rcases hv with ⟨-, hv⟩ | ⟨-, hv⟩
    · cases hv
      exact U.apart ha₁ hh
    · cases hv
  -- the first thread gets in
  obtain ⟨s₂, l₂, hs₂, hh₂⟩ := (hex es₁ c₁ hr₁).2 t op₁ l₁ hc₁ ha₁ hnone i
  have hlock := (tas_enter ha₁ hs₂).1
  rw [hw₁] at hlock
  have hl : U.word P.init ≠ TAS_LCKD := by
    intro hl
    rw [hl, tasLock_lckd] at hlock
    cases hlock
  rw [tasLock_other h0 hl] at hlock
  have hr₂ := hr₁.step (.tau i hc₁ (LockUse.result_of_asks ha₁) hs₂) trivial
  -- and so does the second
  have hu₂ : Function.update c₁.threads t (some (op₁, l₂)) u = none := by
    rw [Function.update_of_ne htu.symm, ht₁, Function.update_of_ne htu.symm]
    rfl
  obtain ⟨es₃, c₃, op₃, l₃, hr₃, hw₃, ht₃, ha₃⟩ := hreach _ _ u hr₂ hu₂
  have hc₃ : c₃.threads u = some (op₃, l₃) := by
    rw [ht₃]
    exact Function.update_self ..
  have hword : tasLock (U.word c₃.shared) = some (U.word P.init) := by
    rw [hw₃, show U.word s₂ = U.word P.init from (Option.some.inj hlock).symm, tasLock_other h0 hl]
  obtain ⟨⟨s₄, l₄⟩, hs₄⟩ := Option.isSome_iff_exists.mp (U.enter (t := u) i op₃ ha₃ hword)
  have hr₄ := hr₃.step (.tau i hc₃ (LockUse.result_of_asks ha₃) hs₄) trivial
  refine htu ((hex _ _ hr₄).1 t u ?_ ?_)
  · rw [LockUse.inside_update]
    refine Or.inr ⟨htu, op₁, l₂, ?_, hh₂⟩
    rw [ht₃, Function.update_of_ne htu]
    exact Function.update_self ..
  · rw [LockUse.inside_update]
    exact Or.inl ⟨rfl, (tas_enter ha₃ hs₄).2⟩

/-- A TAS lock excludes if it starts free. -/
theorem tas_excludes (h0 : U.word P.init = TAS_FREE) : U.Excludes := LockUse.excludes tasOps_lawful h0

end tas

/-! ### The three structures -/

section structures

variable {V : Type*} [Zero V]

/-- The lock of a `StackLock` for `n` threads and any clients. -/
def StackLock.Excludes (V : Type*) [Zero V] (n : ℕ) (lock : TasWord) : Prop :=
  (StackLock.lockUse (V := V) (tasOps (Fin n)) lock fun _ => True).Excludes

/-- Both locks of a `QueueMSLB`. -/
def QueueMSLB.Excludes (V : Type*) [Zero V] (n : ℕ) (headLock tailLock : TasWord) : Prop :=
  (QueueMSLB.headUse (V := V) (tasOps (Fin n)) headLock tailLock fun _ => True).Excludes ∧
    (QueueMSLB.tailUse (V := V) (tasOps (Fin n)) headLock tailLock fun _ => True).Excludes

/-- The lock that a `QueueMSHybrid` uses. -/
def QueueMSHybrid.Excludes (V : Type*) [Zero V] (n : ℕ) (headLock tailLock : TasWord) : Prop :=
  (QueueMSHybrid.tailUse (V := V) (tasOps (Fin n)) headLock tailLock fun _ => True).Excludes

variable {n : ℕ} {lock headLock tailLock : TasWord}

theorem StackLock.reaches :
    (StackLock.lockUse (V := V) (tasOps (Fin n)) lock fun _ => True).Reaches :=
  LockUse.reaches_of_start .remove trivial trivial

theorem QueueMSLB.reaches_head :
    (QueueMSLB.headUse (V := V) (tasOps (Fin n)) headLock tailLock fun _ => True).Reaches :=
  LockUse.reaches_of_start .remove trivial trivial

theorem QueueMSLB.reaches_tail :
    (QueueMSLB.tailUse (V := V) (tasOps (Fin n)) headLock tailLock fun _ => True).Reaches :=
  LockUse.reaches_of_next (.add 0) trivial rfl () fun _ _ => ⟨_, _, rfl, rfl, trivial⟩

theorem QueueMSHybrid.reaches_tail :
    (QueueMSHybrid.tailUse (V := V) (tasOps (Fin n)) headLock tailLock fun _ => True).Reaches :=
  LockUse.reaches_of_next (.add 0) trivial rfl () fun _ _ => ⟨_, _, rfl, rfl, trivial⟩

/-- **Each lock excludes for any number of threads exactly if its word was
`TAS_FREE` in the memory that the constructor got.** `QueueMSHybrid` never uses
its `head_lock`. -/
theorem locks_exclude_iff (V : Type*) [Zero V] (lock headLock tailLock : TasWord) :
    ((∀ n, StackLock.Excludes V n lock) ↔ lock = TAS_FREE) ∧
    ((∀ n, QueueMSLB.Excludes V n headLock tailLock) ↔ headLock = TAS_FREE ∧ tailLock = TAS_FREE) ∧
    ((∀ n, QueueMSHybrid.Excludes V n headLock tailLock) ↔ tailLock = TAS_FREE) := by
  have h01 : (0 : Fin 2) ≠ 1 := nofun
  refine ⟨⟨fun h => ?_, fun h n => tas_excludes h⟩,
    ⟨fun h => ⟨?_, ?_⟩, fun h n => ⟨tas_excludes h.1, tas_excludes h.2⟩⟩,
    ⟨fun h => ?_, fun h n => tas_excludes h⟩⟩
  · exact not_not.mp fun h0 => tas_not_excludes StackLock.reaches h01 h0 (h 2)
  · exact not_not.mp fun h0 => tas_not_excludes QueueMSLB.reaches_head h01 h0 (h 2).1
  · exact not_not.mp fun h0 => tas_not_excludes QueueMSLB.reaches_tail h01 h0 (h 2).2
  · exact not_not.mp fun h0 => tas_not_excludes QueueMSHybrid.reaches_tail h01 h0 (h 2)

/-- Two threads on a `StackLock` whose lock word was 5. -/
theorem stack_lock_five : ¬ StackLock.Excludes ℕ 2 5 :=
  tas_not_excludes StackLock.reaches (by decide : (0 : Fin 2) ≠ 1) (by decide : (5 : TasWord) ≠ TAS_FREE)

end structures

end Ascylib
