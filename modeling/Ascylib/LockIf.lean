/-
# The locks of `lock_if.h`

`include/lock_if.h` gives `LOCK` and `UNLOCK` one meaning in each build. A
mutex of the C library knows its owner. A TAS lock is a 32-bit word that `LOCK`
sets with a CAS, and the loop around it ends at any old value but `TAS_LCKD`.
So the lock keeps its promise on the words `TAS_FREE` and `TAS_LCKD`, and lets
everybody through on any other.
-/
import Ascylib.Concur.Mutex
import Mathlib.Data.BitVec

namespace Ascylib

open Concur

variable {T : Type*}

/-- `UNLOCK(lock)`, which is empty in the build with `LL_GLOBAL_LOCK`, unlike
`UNLOCK_A(lock)`. -/
def unlockNode {Λ : Type*} (A : LockOps T Λ) (llGlobalLock : Bool) (t : T) (w : Λ) : Λ :=
  if llGlobalLock then w else A.unlock t w

/-- `pthread_mutex_lock` and `pthread_mutex_unlock`: a mutex names its owner. -/
def mutexOps (T : Type*) : LockOps T (Option T) where
  lock t
    | none => some (some t)
    | some _ => none
  unlock _ _ := none

theorem mutexOps_lawful : (mutexOps T).Lawful (· = none) (· ≠ none) where
  lock := by
    rintro t w rfl
    exact ⟨some t, rfl, nofun⟩
  wait := by
    intro t w hw
    cases w with
    | none => exact absurd rfl hw
    | some u => rfl
  unlock _ := rfl

/-- `ptlock_t` of the TAS build. -/
abbrev TasWord := BitVec 32

def TAS_FREE : TasWord := 0
def TAS_LCKD : TasWord := 1

/-- `CAS_UTYPE(l, old, new)`: the value before, and the word after. -/
def casUtype (w old new : TasWord) : TasWord × TasWord := (w, if w = old then new else w)

/-- One round of `tas_lock`: its loop goes on while the CAS returns `TAS_LCKD`. -/
def tasLock (w : TasWord) : Option TasWord :=
  let (old, w') := casUtype w TAS_FREE TAS_LCKD
  if old = TAS_LCKD then none else some w'

def tasOps (T : Type*) : LockOps T TasWord where
  lock _ := tasLock
  unlock _ _ := TAS_FREE

theorem tasLock_lckd : tasLock TAS_LCKD = none := rfl

/-- A word that is neither free nor locked lets the thread through. -/
theorem tasLock_other {w : TasWord} (hf : w ≠ TAS_FREE) (hl : w ≠ TAS_LCKD) : tasLock w = some w := by
  simp only [tasLock, casUtype, if_neg hf, if_neg hl]

theorem tasOps_lawful : (tasOps T).Lawful (· = TAS_FREE) (· = TAS_LCKD) where
  lock := by
    rintro t w rfl
    exact ⟨TAS_LCKD, rfl, rfl⟩
  wait := by
    rintro t w rfl
    rfl
  unlock _ := rfl

/-! ### Attempts -/

/-- A lock that one may try for: `A` is where an attempt is, and `step` its next
access, with the value that `TRYLOCK` returns in the end. -/
structure TryLockOps (T Λ A : Type*) where
  /-- `INIT_LOCK` -/
  init : Λ
  first : A
  step : T → Λ → A → Λ × (A ⊕ ℕ)
  /-- `UNLOCK` -/
  unlock : T → Λ → Λ

/-- What the loop `while (!TRYLOCK(lock))` takes for granted: a value other than
0 comes with the lock, and any other attempt leaves the lock alone. `At` says
what an attempt under way has read. -/
structure TryLockOps.Lawful {Λ A : Type*} (O : TryLockOps T Λ A) (Free Held : Λ → Prop)
    (At : A → Prop) : Prop where
  init : Free O.init
  first : At O.first
  apart : ∀ {w}, Free w → ¬ Held w
  again : ∀ {t w a w' a'}, At a → O.step t w a = (w', .inl a') → w' = w ∧ At a'
  fail : ∀ {t w a w'}, At a → O.step t w a = (w', .inr 0) → w' = w
  take : ∀ {t w a w' v}, At a → O.step t w a = (w', .inr v) → v ≠ 0 → Free w ∧ Held w'
  unlock : ∀ {t w}, Held w → Free (O.unlock t w)

/-- The error number of a mutex that is held. -/
def EBUSY : ℕ := 16

/-- `pthread_mutex_trylock` returns 0 if it acquired the mutex. -/
def mutexTryOps (T : Type*) : TryLockOps T (Option T) Unit where
  init := none
  first := ()
  step t w _ :=
    match w with
    | none => (some t, .inr 0)
    | some u => (some u, .inr EBUSY)
  unlock _ _ := none

/-- `tas_trylock`. -/
def tasTryOps (T : Type*) : TryLockOps T TasWord Unit where
  init := TAS_FREE
  first := ()
  step _ w _ :=
    let (old, w') := casUtype w TAS_FREE TAS_LCKD
    (w', .inr (if old = TAS_FREE then 1 else 0))
  unlock _ _ := TAS_FREE

def TTAS_FREE : TasWord := 0
def TTAS_LCKD : TasWord := 1

/-- `ttas_trylock`. -/
def ttasTryOps (T : Type*) : TryLockOps T TasWord Unit where
  init := TTAS_FREE
  first := ()
  step _ w _ :=
    let (old, w') := casUtype w TTAS_FREE TTAS_LCKD
    (w', .inr (if old = TTAS_FREE then 1 else 0))
  unlock _ _ := TTAS_FREE

/-- `ptlock_t` of the TICKET build, whose counters wrap. -/
structure TicketWord where
  ticket : BitVec 32
  curr : BitVec 32
  deriving DecidableEq

/-- `ticket_trylock`: a load of the whole word, and then a CAS on it. -/
def ticketTryOps (T : Type*) : TryLockOps T TicketWord (Option TicketWord) where
  init := ⟨0, 0⟩
  first := none
  step _ w
    | none => (w, if w.curr = w.ticket then .inl (some w) else .inr 0)
    | some tc => if w = tc then (⟨tc.ticket + 1, tc.curr⟩, .inr 1) else (w, .inr 0)
  unlock _ w := ⟨w.ticket, w.curr + 1⟩

theorem tasTryOps_lawful : (tasTryOps T).Lawful (· = TAS_FREE) (· = TAS_LCKD) fun _ => True where
  init := rfl
  first := trivial
  apart := by
    rintro w rfl
    decide
  again := by
    rintro t w a w' a' - h
    cases (Prod.mk.inj h).2
  fail := by
    rintro t w a w' - h
    obtain ⟨h1, h2⟩ := Prod.mk.inj h
    by_cases hw : w = TAS_FREE
    · simp [hw] at h2
    · rw [← h1]
      simp [hw]
  take := by
    rintro t w a w' v - h hv
    obtain ⟨h1, h2⟩ := Prod.mk.inj h
    by_cases hw : w = TAS_FREE
    · exact ⟨hw, by rw [← h1]; simp [hw]⟩
    · simp [hw] at h2
      exact absurd h2.symm hv
  unlock _ := rfl

theorem ttasTryOps_lawful : (ttasTryOps T).Lawful (· = TTAS_FREE) (· = TTAS_LCKD) fun _ => True :=
  tasTryOps_lawful

theorem ticketTryOps_lawful : (ticketTryOps T).Lawful (fun w => w.ticket = w.curr)
    (fun w => w.ticket = w.curr + 1) (fun a => ∀ tc, a = some tc → tc.curr = tc.ticket) where
  init := rfl
  first := nofun
  apart := by
    intro w hf hh
    rw [hf] at hh
    have h : w.curr + 1 ≠ w.curr := by
      intro h
      have := congrArg BitVec.toNat h
      rw [BitVec.toNat_add] at this
      have hlt := w.curr.isLt
      simp at this
      omega
    exact h hh.symm
  again := by
    rintro t w (_ | tc) w' a' ha h
    · obtain ⟨h1, h2⟩ := Prod.mk.inj h
      by_cases hw : w.curr = w.ticket
      · rw [if_pos hw] at h2
        cases h2
        refine ⟨h1.symm, fun tc htc => ?_⟩
        cases htc
        exact hw
      · rw [if_neg hw] at h2
        cases h2
    · simp only [ticketTryOps] at h
      by_cases hw : w = tc
      · rw [if_pos hw] at h
        cases (Prod.mk.inj h).2
      · rw [if_neg hw] at h
        cases (Prod.mk.inj h).2
  fail := by
    rintro t w (_ | tc) w' ha h
    · exact (Prod.mk.inj h).1.symm
    · simp only [ticketTryOps] at h
      by_cases hw : w = tc
      · rw [if_pos hw] at h
        cases (Prod.mk.inj h).2
      · rw [if_neg hw] at h
        exact (Prod.mk.inj h).1.symm
  take := by
    rintro t w (_ | tc) w' v ha h hv
    · obtain ⟨-, h2⟩ := Prod.mk.inj h
      by_cases hw : w.curr = w.ticket
      · rw [if_pos hw] at h2
        cases h2
      · rw [if_neg hw] at h2
        cases h2
        exact absurd rfl hv
    · simp only [ticketTryOps] at h
      have hcurr := ha tc rfl
      by_cases hw : w = tc
      · rw [if_pos hw] at h
        rw [← (Prod.mk.inj h).1, hw]
        exact ⟨hcurr.symm, by rw [hcurr]⟩
      · rw [if_neg hw] at h
        cases (Prod.mk.inj h).2
        exact absurd rfl hv
  unlock := by
    intro t w hw
    exact hw

end Ascylib
