/-
# Locks that exclude

How a lock is taken and given back (`LockOps`), and how a program uses one of
its locks (`LockUse`): a step takes the lock, gives it back, or leaves it and
its holder alone. If the operations keep the promise of a lock (`Lawful`) and it
is free at the start, no two threads hold it at a time, and it is free when
nobody does (`LockUse.excl`).

Key definitions: `LockOps`, `LockOps.Lawful`, `LockUse`, `LockUse.Excludes`,
`GivesBackIf`.
Key theorems: `LockUse.excl`, `LockUse.excludes`, `LockUse.gives_back`.
-/
import Ascylib.Concur.Run

set_option linter.unusedSectionVars false

namespace Concur

variable {Tid Op Res σ L ι Λ : Type*}

/-- The operations of a lock; `none` while the thread that asks goes on waiting. -/
structure LockOps (Tid Λ : Type*) where
  lock : Tid → Λ → Option Λ
  unlock : Tid → Λ → Λ

/-- A free lock is taken, a held one is waited for, and its holder frees it. -/
structure LockOps.Lawful (A : LockOps Tid Λ) (Free Held : Λ → Prop) : Prop where
  lock : ∀ {t w}, Free w → ∃ w', A.lock t w = some w' ∧ Held w'
  wait : ∀ {t w}, Held w → A.lock t w = none
  unlock : ∀ {t w}, Held w → Free (A.unlock t w)

theorem LockOps.Lawful.not_both {A : LockOps Tid Λ} {Free Held : Λ → Prop} (hA : A.Lawful Free Held)
    (t : Tid) {w : Λ} (hf : Free w) (hh : Held w) : False := by
  obtain ⟨w', hw, -⟩ := hA.lock (t := t) hf
  rw [hA.wait hh] at hw
  cases hw

/-- What a program does with one lock: where it is, and the local states that
ask for it and that hold it. -/
structure LockUse (A : LockOps Tid Λ) (P : Program Tid Op Res σ L ι) where
  word : σ → Λ
  Asks : L → Prop
  Holds : L → Prop
  start : ∀ op, ¬ Holds (P.start op)
  result : ∀ {l r}, P.result l = some r → ¬ Asks l ∧ ¬ Holds l
  apart : ∀ {l}, Asks l → ¬ Holds l
  step : ∀ {i t s op l s' l'}, P.step i t s op l = some (s', l') →
    (Asks l ∧ A.lock t (word s) = some (word s') ∧ Holds l') ∨
    (Holds l ∧ ¬ Holds l' ∧ word s' = A.unlock t (word s)) ∨
    (¬ Asks l ∧ word s' = word s ∧ (Holds l' ↔ Holds l))
  enter : ∀ {t s l w} i op, Asks l → A.lock t (word s) = some w → (P.step i t s op l).isSome

namespace LockUse

variable {A : LockOps Tid Λ} {P : Program Tid Op Res σ L ι} (U : LockUse A P)

/-- The thread is between taking the lock and giving it back. -/
def Inside (c : Config Tid Op σ L) (t : Tid) : Prop := ∃ op l, c.threads t = some (op, l) ∧ U.Holds l

variable [DecidableEq Tid]

/-- At most one thread at a time holds the lock, and a thread that asks for it
while nobody does takes it with its next step. -/
def Excludes : Prop :=
  ∀ es c, P.Run es c → (∀ t u, U.Inside c t → U.Inside c u → t = u) ∧
    ∀ t op l, c.threads t = some (op, l) → U.Asks l → (∀ u, ¬ U.Inside c u) →
      ∀ i, ∃ s' l', P.step i t c.shared op l = some (s', l') ∧ U.Holds l'

/-- Any thread outside a call can come to ask for the lock, which stays as it is. -/
def Reaches : Prop :=
  ∀ es c t, P.Run es c → c.threads t = none → ∃ es' c' op l, P.Run es' c' ∧
    U.word c'.shared = U.word c.shared ∧ c'.threads = Function.update c.threads t (some (op, l)) ∧
    U.Asks l

variable {U} {Free Held : Λ → Prop} {c : Config Tid Op σ L} {t u : Tid} {op : Op} {l : L} {s : σ}

theorem inside_update : U.Inside ⟨s, Function.update c.threads t (some (op, l))⟩ u ↔
    (u = t ∧ U.Holds l) ∨ (u ≠ t ∧ U.Inside c u) := by
  by_cases hu : u = t
  · subst hu
    simp [Inside]
  · simp [Inside, hu]

theorem inside_of (ht : c.threads t = some (op, l)) (h : U.Holds l) : U.Inside c t := ⟨op, l, ht, h⟩

theorem not_inside_of (ht : c.threads t = some (op, l)) (h : ¬ U.Holds l) : ¬ U.Inside c t := by
  rintro ⟨op₁, l₁, ht₁, h₁⟩
  rw [ht] at ht₁
  cases ht₁
  exact h h₁

theorem result_of_asks (h : U.Asks l) : P.result l = none := by
  rcases hr : P.result l with _ | r
  · rfl
  · exact absurd h (U.result hr).1

/-- A call whose first step asks. -/
theorem reaches_of_start (op : Op) (hpre : P.pre op) (h : U.Asks (P.start op)) : U.Reaches :=
  fun _ c _ hr ht => ⟨_, ⟨c.shared, _⟩, op, _, .step hr (.call ht hpre) trivial, rfl, rfl, h⟩

/-- A call whose second step asks. -/
theorem reaches_of_next (op : Op) (hpre : P.pre op) (hres : P.result (P.start op) = none) (i : ι)
    (h : ∀ t s, ∃ s' l, P.step i t s op (P.start op) = some (s', l) ∧ U.word s' = U.word s ∧ U.Asks l) :
    U.Reaches := by
  intro es c t hr ht
  obtain ⟨s', l, hs, hw, hask⟩ := h t c.shared
  have hcall : P.Step c (.call t op) ⟨c.shared, Function.update c.threads t (some (op, P.start op))⟩ :=
    .call ht hpre
  have htau : P.Step ⟨c.shared, Function.update c.threads t (some (op, P.start op))⟩ (.tau t)
      ⟨s', Function.update (Function.update c.threads t (some (op, P.start op))) t (some (op, l))⟩ :=
    .tau i (Function.update_self ..) hres hs
  rw [Function.update_idem] at htau
  exact ⟨_, _, op, l, .step (.step hr hcall trivial) htau trivial, hw, rfl, hask⟩

/-- **The lock is free with nobody inside, or held with one thread inside.** -/
theorem excl (hA : A.Lawful Free Held) (h0 : Free (U.word P.init)) {ok es} (hr : P.RunIf ok es c) :
    (Free (U.word c.shared) ∧ ∀ t, ¬ U.Inside c t) ∨
      (Held (U.word c.shared) ∧ ∃ t, U.Inside c t ∧ ∀ u, U.Inside c u → u = t) := by
  induction hr with
  | init =>
    refine Or.inl ⟨h0, ?_⟩
    rintro t ⟨op, l, h, -⟩
    cases h
  | @step es c e c' hr hst hok ih =>
    cases hst with
    | @call t op hidle hpre =>
      have hin : ∀ u, U.Inside ⟨c.shared, Function.update c.threads t (some (op, P.start op))⟩ u ↔
          U.Inside c u := by
        intro u
        rw [inside_update]
        by_cases hu : u = t
        · subst hu
          simp [U.start op, Inside, hidle]
        · simp [hu]
      simpa only [hin] using ih
    | @ret t op l r ht hres =>
      have hin : ∀ u, U.Inside ⟨c.shared, Function.update c.threads t none⟩ u ↔ U.Inside c u := by
        intro u
        by_cases hu : u = t
        · subst hu
          have := not_inside_of (U := U) ht (U.result hres).2
          simpa [Inside] using this
        · simp [Inside, hu]
      simpa only [hin] using ih
    | @tau t op l s' l' i ht hres hstep =>
      simp only [inside_update]
      rcases U.step hstep with ⟨-, hlock, hh⟩ | ⟨hh, hn, hword⟩ | ⟨-, hword, hiff⟩
      · -- only a free lock is taken
        rcases ih with ⟨hf, hnone⟩ | ⟨hheld, -⟩
        · obtain ⟨w, hw, hheld⟩ := hA.lock (t := t) hf
          rw [hlock] at hw
          cases hw
          refine Or.inr ⟨hheld, t, Or.inl ⟨rfl, hh⟩, fun u hu => ?_⟩
          rcases hu with ⟨rfl, -⟩ | ⟨-, hu⟩
          · rfl
          · exact absurd hu (hnone u)
        · rw [hA.wait hheld] at hlock
          cases hlock
      · rcases ih with ⟨-, hnone⟩ | ⟨hheld, v, -, huniq⟩
        · exact absurd (inside_of ht hh) (hnone t)
        · have hv : t = v := huniq t (inside_of ht hh)
          refine Or.inl ⟨by rw [hword]; exact hA.unlock hheld, fun u hu => ?_⟩
          rcases hu with ⟨-, hu⟩ | ⟨hut, hu⟩
          · exact hn hu
          · exact hut ((huniq u hu).trans hv.symm)
      · have hin : ∀ u, (u = t ∧ U.Holds l') ∨ (u ≠ t ∧ U.Inside c u) ↔ U.Inside c u := by
          intro u
          by_cases hu : u = t
          · subst hu
            by_cases hl : U.Holds l
            · simp [hiff.mpr hl, inside_of ht hl]
            · simp [mt hiff.mp hl, not_inside_of ht hl]
          · simp [hu]
        simpa only [hin, hword] using ih

/-- At most one thread is inside. -/
theorem unique (hA : A.Lawful Free Held) (h0 : Free (U.word P.init)) {ok es} (hr : P.RunIf ok es c)
    (ht : U.Inside c t) (hu : U.Inside c u) : t = u := by
  rcases excl hA h0 hr with ⟨-, hnone⟩ | ⟨-, v, -, huniq⟩
  · exact absurd ht (hnone t)
  · exact (huniq t ht).trans (huniq u hu).symm

theorem free_of_none (hA : A.Lawful Free Held) (h0 : Free (U.word P.init)) {ok es}
    (hr : P.RunIf ok es c) (h : ∀ u, ¬ U.Inside c u) : Free (U.word c.shared) := by
  rcases excl hA h0 hr with ⟨hf, -⟩ | ⟨-, v, hv, -⟩
  · exact hf
  · exact absurd hv (h v)

/-- Only a free lock is taken, and it is held then. -/
theorem taken (hA : A.Lawful Free Held) (h0 : Free (U.word P.init)) {ok es} (hr : P.RunIf ok es c)
    {w : Λ} (hw : A.lock t (U.word c.shared) = some w) : Free (U.word c.shared) ∧ Held w := by
  rcases excl hA h0 hr with ⟨hf, -⟩ | ⟨hh, -⟩
  · obtain ⟨w', hw', hh⟩ := hA.lock (t := t) hf
    rw [hw] at hw'
    cases hw'
    exact ⟨hf, hh⟩
  · rw [hA.wait hh] at hw
    cases hw

/-- **A lawful lock that is free at the start excludes.** -/
theorem excludes (hA : A.Lawful Free Held) (h0 : Free (U.word P.init)) : U.Excludes := by
  intro es c hr
  refine ⟨fun t u => unique hA h0 hr, fun t op l ht hask hnone i => ?_⟩
  obtain ⟨w, hw, -⟩ := hA.lock (t := t) (free_of_none hA h0 hr hnone)
  obtain ⟨⟨s', l'⟩, hs⟩ := Option.isSome_iff_exists.mp (U.enter i op hask hw)
  refine ⟨s', l', hs, ?_⟩
  rcases U.step hs with ⟨-, -, h⟩ | ⟨h, -, -⟩ | ⟨h, -, -⟩
  · exact h
  · exact absurd (inside_of ht h) (hnone t)
  · exact absurd hask h

end LockUse

/-! ### Locks that are given back -/

section

variable [DecidableEq Tid]

/-- In the runs that meet `ok`, a held lock is held by a call that has not
returned: one between taking it and giving it back. -/
def GivesBackIf (P : Program Tid Op Res σ L ι)
    (ok : Trace Tid Op Res σ L → Config Tid Op σ L → Event Tid Op Res → Config Tid Op σ L → Prop)
    (held : σ → Prop) (inside : L → Prop) : Prop :=
  ∀ es c, P.RunIf ok es c → held c.shared → ∃ t op l, c.threads t = some (op, l) ∧ inside l

/-- In every run. -/
abbrev GivesBack (P : Program Tid Op Res σ L ι) (held : σ → Prop) (inside : L → Prop) : Prop :=
  GivesBackIf P (fun _ _ _ _ => True) held inside

/-- **A program that pairs taking and giving back gives its lock back.** -/
theorem LockUse.gives_back [Nonempty Tid] {A : LockOps Tid Λ} {P : Program Tid Op Res σ L ι}
    (U : LockUse A P) {Free Held : Λ → Prop} (hA : A.Lawful Free Held) (h0 : Free (U.word P.init)) :
    GivesBack P (fun s => Held (U.word s)) U.Holds := by
  intro es c hr hh
  rcases U.excl hA h0 hr with ⟨hf, -⟩ | ⟨-, t, ht, -⟩
  · exact (hA.not_both (Classical.arbitrary Tid) hf hh).elim
  · exact ⟨t, ht⟩

end

end Concur
