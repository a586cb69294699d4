/-
# The barrier of the benchmarks

`include/barrier.h`: a counter of the threads that have arrived, a mutex and a
condition variable. The last thread that arrives wakes the others and sets the
counter back. The counter is only accessed with the mutex. As in POSIX, a wait
gives the mutex back and blocks in one step, and returns with the mutex: after a
broadcast has woken the thread, or spuriously.

`barrier_cross` waits once, without a loop. A thread whose wait returns
spuriously goes on to the next round.

Key theorem: `barrier_rounds`.
-/
import Ascylib.Concur.Run
import Mathlib.Data.Fintype.Card
import Mathlib.Data.List.Count

set_option linter.unusedSectionVars false

namespace Ascylib

open Concur

namespace Barrier

variable {T : Type*}

/-- `barrier_t`; `waiting` are the threads that block on `complete`. -/
structure BarrierT (T : Type*) where
  mutex : Option T
  waiting : T → Bool
  count : ℕ
  crossing : ℕ

/-- `barrier_init` -/
def barrierInit (n : ℕ) : BarrierT T := ⟨none, fun _ => false, n, 0⟩

/-- Where a thread is in `barrier_cross`. -/
inductive Pc where
  /-- `pthread_mutex_lock(&b->mutex)` -/
  | lock
  /-- `b->crossing++` -/
  | increment
  /-- `b->crossing < b->count` -/
  | compare
  /-- `pthread_cond_wait(&b->complete, &b->mutex)` -/
  | wait
  /-- in `pthread_cond_wait`: until it has been woken and has the mutex -/
  | blocked
  /-- `pthread_cond_broadcast(&b->complete)` -/
  | broadcast
  /-- `b->crossing = 0` -/
  | reset
  /-- `pthread_mutex_unlock(&b->mutex)` -/
  | unlock
  | done
  deriving DecidableEq

variable [DecidableEq T]

/-- The next step of thread `t`. If the wait of a thread returns while it is still
among the waiting ones, it returns spuriously. -/
def step (t : T) (b : BarrierT T) : Pc → Option (BarrierT T × Pc)
  | .lock => if b.mutex = none then some ({ b with mutex := some t }, .increment) else none
  | .increment => some ({ b with crossing := b.crossing + 1 }, .compare)
  | .compare => some (b, if b.crossing < b.count then .wait else .broadcast)
  | .wait =>
    some ({ b with mutex := none, waiting := Function.update b.waiting t true }, .blocked)
  | .blocked =>
    if b.mutex = none then
      some ({ b with mutex := some t, waiting := Function.update b.waiting t false }, .unlock)
    else none
  | .broadcast => some ({ b with waiting := fun _ => false }, .reset)
  | .reset => some ({ b with crossing := 0 }, .unlock)
  | .unlock => some ({ b with mutex := none }, .done)
  | .done => none

/-- The threads of `T` share a barrier that is initialised with their number. -/
def program (T : Type*) [DecidableEq T] [Fintype T] : Program T Unit Unit (BarrierT T) Pc Unit where
  init := barrierInit (Fintype.card T)
  pre _ := True
  start _ := .lock
  step _ t b _ pc := step t b pc
  result
    | .done => some ()
    | _ => none

abbrev Run (T : Type*) := Trace T Unit Unit (BarrierT T) Pc

/-- How often the thread has called `barrier_cross`. -/
def calls (t : T) (es : Run T) : ℕ := es.countP fun p => p.1 = .call t ()

/-- How often it has returned from it. -/
def returns (t : T) (es : Run T) : ℕ := es.countP fun p => p.1 = .ret t () ()

/-- No wait returns before a broadcast has woken the thread. -/
def NoSpurious (_ : Run T) (c : Config T Unit (BarrierT T) Pc) (e : Event T Unit Unit)
    (_ : Config T Unit (BarrierT T) Pc) : Prop :=
  ∀ t, e = .tau t → c.threads t = some ((), .blocked) → c.shared.waiting t = false

/-! ### The rounds -/

/-- The assertion about a thread that has called `n` times, after `R` rounds. -/
def Loc (R : ℕ) (b : BarrierT T) (t : T) (n : ℕ) : Option (Unit × Pc) → Prop
  | none => n = R
  | some (_, .lock) => n = R + 1
  | some (_, .increment) | some (_, .compare) => b.mutex = some t ∧ n = R + 1
  | some (_, .wait) => b.mutex = some t ∧ n = R + 1 ∧ b.crossing < b.count
  | some (_, .broadcast) => b.mutex = some t ∧ n = R + 1 ∧ b.count ≤ b.crossing
  | some (_, .reset) => b.mutex = some t ∧ n = R + 1 ∧ b.count ≤ b.crossing ∧
      ∀ u, b.waiting u = false
  | some (_, .blocked) =>
    if b.waiting t = true then n = R + 1 else n = R ∨ (n = R + 1 ∧ b.count ≤ b.crossing)
  | some (_, .unlock) => b.mutex = some t ∧ n = R ∧ b.crossing < b.count
  | some (_, .done) => n = R

/-- The thread has been counted in the round. -/
def Arrived (R : ℕ) (n : ℕ) (x : Option (Unit × Pc)) : Prop :=
  n = R + 1 ∧ ∃ pc, x = some ((), pc) ∧ pc ≠ .lock ∧ pc ≠ .increment

/-- `R` rounds are over, and the threads of `A` have arrived in the next one. -/
structure Round [Fintype T] (R : ℕ) (A : Finset T) (es : Run T)
    (c : Config T Unit (BarrierT T) Pc) : Prop where
  count : c.shared.count = Fintype.card T
  inside : ∀ t, calls t es = returns t es + if (c.threads t).isSome then 1 else 0
  loc : ∀ t, Loc R c.shared t (calls t es) (c.threads t)
  arrived : ∀ t, t ∈ A ↔ Arrived R (calls t es) (c.threads t)
  crossing : c.shared.crossing = A.card
  free : c.shared.mutex = none → c.shared.crossing < c.shared.count

/-- What a thread without the mutex says stays true under the steps of others. -/
theorem Loc.frame {R n : ℕ} {b b' : BarrierT T} {u : T} {x : Option (Unit × Pc)}
    (h : Loc R b u n x) (hm : b.mutex ≠ some u)
    (hw : b'.waiting u = b.waiting u ∨ (b'.waiting u = false ∧ b'.count ≤ b'.crossing))
    (hc : b.count ≤ b.crossing → b'.count ≤ b'.crossing) : Loc R b' u n x := by
  rcases x with _ | ⟨_, pc⟩
  · exact h
  cases pc with
  | lock | done => exact h
  | increment | compare | wait | broadcast | reset | unlock => exact absurd h.1 hm
  | blocked =>
    simp only [Loc] at h ⊢
    by_cases hb : b.waiting u = true
    · rw [if_pos hb] at h
      rcases hw with hw | ⟨hw, hc'⟩
      · rw [if_pos (hw.trans hb)]
        exact h
      · rw [if_neg (by rw [hw]; nofun)]
        exact Or.inr ⟨h, hc'⟩
    · rw [if_neg hb] at h
      have hb' : ¬ b'.waiting u = true := by
        rcases hw with hw | ⟨hw, -⟩
        · rw [hw]
          exact hb
        · rw [hw]
          nofun
      rw [if_neg hb']
      exact h.imp_right fun h1 => ⟨h1.1, hc h1.2⟩

/-- A thread that has arrived and does not have the mutex is in the next round
once the others have been woken. -/
theorem Loc.reset {R n : ℕ} {b b' : BarrierT T} {u : T} {x : Option (Unit × Pc)}
    (h : Loc R b u n x) (ha : Arrived R n x) (hm : b.mutex ≠ some u) (hw : b'.waiting u = false) :
    Loc (R + 1) b' u n x := by
  obtain ⟨hn, pc, rfl, h1, h2⟩ := ha
  cases pc with
  | lock => exact absurd rfl h1
  | increment => exact absurd rfl h2
  | compare | wait | broadcast | reset | unlock => exact absurd h.1 hm
  | blocked =>
    simp only [Loc, hw, Bool.false_eq_true, if_false]
    exact Or.inl hn
  | done =>
    have hR : n = R := h
    omega

/-- A thread has called as often as there are rounds, or once more. -/
theorem Loc.calls {R n : ℕ} {b : BarrierT T} {u : T} {x : Option (Unit × Pc)} (h : Loc R b u n x) :
    R ≤ n ∧ n ≤ R + if x.isSome then 1 else 0 := by
  rcases x with _ | ⟨_, pc⟩
  · have hn : n = R := h
    simp [hn]
  have hn : n = R ∨ n = R + 1 := by
    cases pc with
    | lock => exact Or.inr h
    | done => exact Or.inl h
    | increment | compare => exact Or.inr h.2
    | wait | broadcast | reset => exact Or.inr h.2.1
    | unlock => exact Or.inl h.2.1
    | blocked =>
      simp only [Loc] at h
      split at h
      · exact Or.inr h
      · exact h.imp_right And.left
  simp only [Option.isSome_some, if_true]
  omega

section events

variable {es : Run T} {t u : T} {c : Config T Unit (BarrierT T) Pc}

theorem calls_tau : calls u ((.tau t, c) :: es) = calls u es := by simp [calls]

theorem returns_tau : returns u ((.tau t, c) :: es) = returns u es := by simp [returns]

theorem calls_call : calls u ((.call t (), c) :: es) = calls u es + if u = t then 1 else 0 := by
  simp [calls, List.countP_cons, eq_comm]

theorem returns_call : returns u ((.call t (), c) :: es) = returns u es := by simp [returns]

theorem calls_ret : calls u ((.ret t () (), c) :: es) = calls u es := by simp [calls]

theorem returns_ret : returns u ((.ret t () (), c) :: es) = returns u es + if u = t then 1 else 0 := by
  simp [returns, List.countP_cons, eq_comm]

end events

variable [Fintype T] {R : ℕ} {A : Finset T} {es : Run T} {c : Config T Unit (BarrierT T) Pc} {t : T}

theorem Round.initial [Nonempty T] : Round 0 ∅ [] (program T).initial where
  count := rfl
  inside _ := rfl
  loc _ := rfl
  arrived t := by simp [Arrived, Program.initial]
  crossing := rfl
  free _ := Fintype.card_pos

/-- A thread calls `barrier_cross`. -/
theorem Round.call (H : Round R A es c) (ht : c.threads t = none) :
    Round R A ((.call t (), ⟨c.shared, Function.update c.threads t (some ((), .lock))⟩) :: es)
      ⟨c.shared, Function.update c.threads t (some ((), .lock))⟩ := by
  have hR : calls t es = R := by
    have := H.loc t
    rw [ht] at this
    exact this
  refine ⟨H.count, fun u => ?_, fun u => ?_, fun u => ?_, H.crossing, H.free⟩
  · rw [calls_call, returns_call, H.inside u]
    by_cases hut : u = t
    · subst hut
      simp [ht]
    · simp [hut]
  · rw [calls_call]
    by_cases hut : u = t
    · subst hut
      simp [Loc, hR]
    · simpa [hut] using H.loc u
  · rw [calls_call]
    by_cases hut : u = t
    · subst hut
      simp [H.arrived, Arrived, ht]
    · simpa [hut] using H.arrived u

/-- A thread returns from `barrier_cross`. -/
theorem Round.ret (H : Round R A es c) (ht : c.threads t = some ((), .done)) :
    Round R A ((.ret t () (), ⟨c.shared, Function.update c.threads t none⟩) :: es)
      ⟨c.shared, Function.update c.threads t none⟩ := by
  have hR : calls t es = R := by
    have := H.loc t
    rw [ht] at this
    exact this
  refine ⟨H.count, fun u => ?_, fun u => ?_, fun u => ?_, H.crossing, H.free⟩
  · rw [calls_ret, returns_ret, H.inside u]
    by_cases hut : u = t
    · subst hut
      simp [ht]
    · simp [hut]
  · rw [calls_ret]
    by_cases hut : u = t
    · subst hut
      simpa [Loc] using hR
    · simpa [hut] using H.loc u
  · rw [calls_ret]
    by_cases hut : u = t
    · subst hut
      simp [H.arrived, Arrived, hR]
    · simpa [hut] using H.arrived u

/-- What a step in `barrier_cross` leaves to show. -/
theorem Round.tau (H : Round R A es c) {pc pc' : Pc} {b' : BarrierT T} {R' : ℕ} {A' : Finset T}
    (ht : c.threads t = some ((), pc)) (hcount : b'.count = c.shared.count)
    (hself : Loc R' b' t (calls t es) (some ((), pc')))
    (hother : ∀ u, u ≠ t → Loc R' b' u (calls u es) (c.threads u))
    (harr : t ∈ A' ↔ Arrived R' (calls t es) (some ((), pc')))
    (harr' : ∀ u, u ≠ t → (u ∈ A' ↔ Arrived R' (calls u es) (c.threads u)))
    (hcross : b'.crossing = A'.card) (hfree : b'.mutex = none → b'.crossing < b'.count) :
    Round R' A' ((.tau t, ⟨b', Function.update c.threads t (some ((), pc'))⟩) :: es)
      ⟨b', Function.update c.threads t (some ((), pc'))⟩ := by
  refine ⟨hcount.trans H.count, fun u => ?_, fun u => ?_, fun u => ?_, hcross, hfree⟩
  · rw [calls_tau, returns_tau, H.inside u]
    by_cases hut : u = t
    · subst hut
      simp [ht]
    · simp [hut]
  · rw [calls_tau]
    by_cases hut : u = t
    · subst hut
      simpa using hself
    · simpa [hut] using hother u hut
  · rw [calls_tau]
    by_cases hut : u = t
    · subst hut
      simpa using harr
    · simpa [hut] using harr' u hut

/-- **A step in which no wait returns spuriously keeps the rounds.** -/
theorem Round.step (H : Round R A es c) {e : Event T Unit Unit} {c' : Config T Unit (BarrierT T) Pc}
    (hst : (program T).Step c e c') (hok : NoSpurious es c e c') :
    ∃ R' A', Round R' A' ((e, c') :: es) c' := by
  cases hst with
  | call ht => exact ⟨R, A, H.call ht⟩
  | @ret t op pc r ht hres =>
    cases pc with
    | done => exact ⟨R, A, H.ret ht⟩
    | _ => cases hres
  | @tau t op pc b' pc' i ht hres hstep =>
    have hloc := H.loc t
    rw [ht] at hloc
    have harr := H.arrived t
    rw [ht] at harr
    have hstep : Barrier.step t c.shared pc = some (b', pc') := hstep
    -- a step after which the same threads have arrived, of a thread with the mutex or one that
    -- takes it
    have hsame : c.shared.mutex = none ∨ c.shared.mutex = some t →
        (∀ u, u ≠ t → b'.waiting u = c.shared.waiting u ∨
          (b'.waiting u = false ∧ b'.count ≤ b'.crossing)) →
        b'.count = c.shared.count → b'.crossing = c.shared.crossing →
        Loc R b' t (calls t es) (some ((), pc')) →
        (Arrived R (calls t es) (some ((), pc)) ↔ Arrived R (calls t es) (some ((), pc'))) →
        (b'.mutex = none → b'.crossing < b'.count) →
        ∃ R' A', Round R' A' ((.tau t, ⟨b', Function.update c.threads t (some ((), pc'))⟩) :: es)
          ⟨b', Function.update c.threads t (some ((), pc'))⟩ := by
      intro hm hw hcount hcross hself harr' hfree
      refine ⟨R, A, H.tau ht hcount hself (fun u hu => ?_) (harr.trans harr')
        (fun u _ => H.arrived u) (hcross.trans H.crossing) hfree⟩
      refine (H.loc u).frame ?_ (hw u hu) fun h => by rw [hcount, hcross]; exact h
      rcases hm with hm | hm <;> rw [hm]
      · nofun
      · exact fun h => hu (Option.some.inj h).symm
    cases pc with
    | done => cases hstep
    | lock =>
      simp only [Barrier.step] at hstep
      split at hstep
      · rename_i hm
        cases hstep
        exact hsame (Or.inl hm) (fun _ _ => Or.inl rfl) rfl rfl ⟨rfl, hloc⟩ (by simp [Arrived]) nofun
      · cases hstep
    | increment =>
      cases hstep
      have hnot : t ∉ A := fun h => by
        obtain ⟨-, pc, h1, -, h2⟩ := harr.mp h
        cases h1
        exact h2 rfl
      refine ⟨R, insert t A, H.tau ht rfl hloc (fun u hu => ?_) ?_ (fun u hu => ?_) ?_ ?_⟩
      · refine (H.loc u).frame ?_ (Or.inl rfl) fun h => Nat.le_succ_of_le h
        rw [hloc.1]
        exact fun h => hu (Option.some.inj h).symm
      · simp [Arrived, hloc.2]
      · rw [Finset.mem_insert, or_iff_right hu]
        exact H.arrived u
      · rw [Finset.card_insert_of_notMem hnot, ← H.crossing]
      · intro hm
        exact absurd (hloc.1.symm.trans hm) nofun
    | compare =>
      cases hstep
      refine hsame (Or.inr hloc.1) (fun _ _ => Or.inl rfl) rfl rfl ?_ ?_ H.free
      · split
        · exact ⟨hloc.1, hloc.2, ‹_›⟩
        · exact ⟨hloc.1, hloc.2, not_lt.mp ‹_›⟩
      · split <;> simp [Arrived]
    | wait =>
      cases hstep
      exact hsame (Or.inr hloc.1) (fun u hu => Or.inl (Function.update_of_ne hu ..)) rfl rfl
        (by simp [Loc, hloc.2.1]) (by simp [Arrived]) fun _ => hloc.2.2
    | blocked =>
      have hw : c.shared.waiting t = false := hok t rfl ht
      simp only [Barrier.step] at hstep
      simp only [Loc, hw, Bool.false_eq_true, if_false] at hloc
      split at hstep
      · rename_i hm
        have hlt := H.free hm
        have hR : calls t es = R := hloc.resolve_right fun h => absurd h.2 (not_le.mpr hlt)
        cases hstep
        exact hsame (Or.inl hm) (fun u hu => Or.inl (Function.update_of_ne hu ..)) rfl rfl
          ⟨rfl, hR, hlt⟩ (by simp [Arrived]) nofun
      · cases hstep
    | broadcast =>
      cases hstep
      exact hsame (Or.inr hloc.1) (fun u _ => Or.inr ⟨rfl, hloc.2.2⟩) rfl rfl
        ⟨hloc.1, hloc.2.1, hloc.2.2, fun _ => rfl⟩ (by simp [Arrived])
        fun hm => absurd (hloc.1.symm.trans hm) nofun
    | reset =>
      obtain ⟨hm, hn, hfull, hw⟩ := hloc
      cases hstep
      -- everybody has arrived, and the others have been woken
      have huniv : ∀ u, u ∈ A := by
        rw [H.count, H.crossing] at hfull
        have := (Finset.card_eq_iff_eq_univ A).mp (le_antisymm (Finset.card_le_univ A) hfull)
        simp [this]
      have hnext : ∀ u, calls u es = R + 1 := fun u => ((H.arrived u).mp (huniv u)).1
      have hpos : 0 < c.shared.count := H.count ▸ Fintype.card_pos_iff.mpr ⟨t⟩
      have hnone : ∀ u x, ¬ Arrived (R + 1) (calls u es) x := fun u x h => by
        have := h.1.symm.trans (hnext u)
        omega
      refine ⟨R + 1, ∅, H.tau ht rfl ⟨hm, hn, hpos⟩ (fun u hu => ?_) (by simp [hnone])
        (fun u _ => by simp [hnone]) rfl fun h => absurd (hm.symm.trans h) nofun⟩
      refine (H.loc u).reset ((H.arrived u).mp (huniv u)) ?_ (hw u)
      rw [hm]
      exact fun h => hu (Option.some.inj h).symm
    | unlock =>
      cases hstep
      exact hsame (Or.inr hloc.1) (fun _ _ => Or.inl rfl) rfl rfl hloc.2.1 (by simp [Arrived])
        fun _ => hloc.2.2

/-- **The rounds of the barrier.** If no wait returns spuriously, no thread returns
from its `r`-th `barrier_cross` before every thread has called its `r`-th. -/
theorem barrier_rounds (hr : (program T).RunIf NoSpurious es c) (t u : T) :
    returns t es ≤ calls u es := by
  have hround : ∃ R A, Round R A es c := by
    induction hr with
    | init =>
      have : Nonempty T := ⟨t⟩
      exact ⟨0, ∅, Round.initial⟩
    | step _ hst hok ih =>
      obtain ⟨R, A, H⟩ := ih
      exact H.step hst hok
  obtain ⟨R, A, H⟩ := hround
  have ht := (H.loc t).calls.2
  have hu := (H.loc u).calls.1
  have hin := H.inside t
  omega

theorem NoSpurious.of_pc {c' : Config T Unit (BarrierT T) Pc} {pc : Pc}
    (ht : c.threads t = some ((), pc)) (hpc : pc = .blocked → c.shared.waiting t = false) :
    NoSpurious es c (.tau t) c' := by
  intro u hu hb
  cases hu
  rw [ht] at hb
  cases hb
  exact hpc rfl

/-- Of two threads the first one waits for the second, and returns. -/
theorem barrier_rounds_two : ∃ es c, (program (Fin 2)).RunIf NoSpurious es c ∧ returns 0 es = 1 ∧
    returns 0 es ≤ calls 1 es := by
  have h0 : (program (Fin 2)).RunIf NoSpurious [] _ := .init
  have h1 := h0.step (e := .call 0 ()) (.call rfl trivial) nofun
  have h2 := h1.step (.tau () (t := 0) rfl rfl rfl) (.of_pc rfl nofun)
  have h3 := h2.step (.tau () (t := 0) rfl rfl rfl) (.of_pc rfl nofun)
  have h4 := h3.step (.tau () (t := 0) rfl rfl rfl) (.of_pc rfl nofun)
  have h5 := h4.step (.tau () (t := 0) rfl rfl rfl) (.of_pc rfl nofun)
  have h6 := h5.step (e := .call 1 ()) (.call rfl trivial) nofun
  have h7 := h6.step (.tau () (t := 1) rfl rfl rfl) (.of_pc rfl nofun)
  have h8 := h7.step (.tau () (t := 1) rfl rfl rfl) (.of_pc rfl nofun)
  have h9 := h8.step (.tau () (t := 1) rfl rfl rfl) (.of_pc rfl nofun)
  have h10 := h9.step (.tau () (t := 1) rfl rfl rfl) (.of_pc rfl nofun)
  have h11 := h10.step (.tau () (t := 1) rfl rfl rfl) (.of_pc rfl nofun)
  have h12 := h11.step (.tau () (t := 1) rfl rfl rfl) (.of_pc rfl nofun)
  have h13 := h12.step (.tau () (t := 0) rfl rfl rfl) (.of_pc rfl fun _ => rfl)
  have h14 := h13.step (.tau () (t := 0) rfl rfl rfl) (.of_pc rfl nofun)
  have h15 := h14.step (e := .ret 0 () ()) (.ret rfl rfl) nofun
  exact ⟨_, _, h15, rfl, barrier_rounds h15 0 1⟩

/-- **The wait of a thread returns spuriously, and `barrier_cross` returns**; the
other thread has not called yet. -/
theorem spurious_return : ¬ ∀ es c, (program (Fin 2)).Run es c →
    ∀ t u, returns t es ≤ calls u es := by
  intro hclaim
  have h0 : (program (Fin 2)).Run [] _ := .init
  have h1 := h0.step (e := .call 0 ()) (.call rfl trivial) trivial
  have h2 := h1.step (.tau () (t := 0) rfl rfl rfl) trivial
  have h3 := h2.step (.tau () (t := 0) rfl rfl rfl) trivial
  have h4 := h3.step (.tau () (t := 0) rfl rfl rfl) trivial
  have h5 := h4.step (.tau () (t := 0) rfl rfl rfl) trivial
  have h6 := h5.step (.tau () (t := 0) rfl rfl rfl) trivial
  have h7 := h6.step (.tau () (t := 0) rfl rfl rfl) trivial
  have h8 := h7.step (e := .ret 0 () ()) (.ret rfl rfl) trivial
  exact absurd (hclaim _ _ h8 0 1) (by decide)

end Barrier

end Ascylib
