/-
# Calls that run alone

A call returns when its thread is the only one that takes steps if every way
to go on leads, after finitely many steps, to a result (`Returns`). A rank that
goes down at every step proves it, and so does one that goes down until the
call begins afresh, if a fresh call stays fresh (`solo_of_rank`): what was read
before the others stopped can cost one more round, but only one. A call may
also go through several phases, each with a round of its own
(`returns_of_phase`).

Key definitions: `Program.Returns`, `Program.Goes`, `Program.Alone`,
`Program.Solo`, `Program.SoloIff`, `Program.Nearer`.
Key theorems: `Program.returns_of_phase`, `Program.solo_of_rank`,
`Program.Returns.not_of_stuck`.
-/
import Ascylib.Concur.Run
import Mathlib.Data.Prod.Lex
import Mathlib.Order.WellFounded
import Mathlib.Logic.Relation
import Mathlib.Algebra.Order.Group.Nat

namespace Concur

section

variable {α β : Type*} [Preorder α] [Preorder β] {a c : α} {b d : β}

theorem lex_left (h : a < c) : toLex (a, b) < toLex (c, d) :=
  Prod.Lex.toLex_lt_toLex.mpr (Or.inl h)

theorem lex_right (h : b < d) : toLex (a, b) < toLex (a, d) :=
  Prod.Lex.toLex_lt_toLex.mpr (Or.inr ⟨rfl, h⟩)

end

variable {Tid Op Res σ L ι : Type*} [DecidableEq Tid]

namespace Program

variable (P : Program Tid Op Res σ L ι)

/-- Alone, thread `t` comes to the end of its call, whatever its steps draw. -/
inductive Returns (t : Tid) (op : Op) : σ → L → Prop
  | done {s l r} : P.result l = some r → Returns t op s l
  | step {s l} : P.result l = none → (∃ i q, P.step i t s op l = some q) →
      (∀ i s' l', P.step i t s op l = some (s', l') → Returns t op s' l') → Returns t op s l

/-- Alone, thread `t` can come from one state of its call to another. -/
def Goes (t : Tid) (op : Op) : σ × L → σ × L → Prop :=
  Relation.ReflTransGen fun a b => P.result a.2 = none ∧ ∃ i, P.step i t a.1 op a.2 = some b

/-- Alone, a call of thread `t` in `s` can end in `s'` with the result `r`. -/
def Alone (t : Tid) (op : Op) (s s' : σ) (r : Res) : Prop :=
  ∃ l, P.Goes t op (s, P.start op) (s', l) ∧ P.result l = some r

/-- Every call under way in any run returns if its thread goes on alone. -/
def Solo : Prop :=
  ∀ es c, P.Run es c → ∀ t op l, c.threads t = some (op, l) → P.Returns t op c.shared l

/-- A call under way returns alone exactly if it meets a condition. -/
def SoloIff (ok : σ → Op → L → Prop) : Prop :=
  ∀ es c, P.Run es c → ∀ t op l, c.threads t = some (op, l) →
    (P.Returns t op c.shared l ↔ ok c.shared op l)

variable {P}

omit [DecidableEq Tid] in
/-- A call that keeps to states from which every step leads on does not return. -/
theorem Returns.not_of_stuck {t : Tid} {op : Op} (stuck : σ → L → Prop)
    (hstep : ∀ s l, stuck s l → P.result l = none ∧
      ∀ i s' l', P.step i t s op l = some (s', l') → stuck s' l')
    {s : σ} {l : L} (hs : stuck s l) : ¬ P.Returns t op s l := by
  intro h
  induction h with
  | done hr =>
    rw [(hstep _ _ hs).1] at hr
    cases hr
  | step _ hen _ ih =>
    obtain ⟨i, ⟨s', l'⟩, hi⟩ := hen
    exact ih i s' l' hi ((hstep _ _ hs).2 i s' l' hi)

omit [DecidableEq Tid] in
/-- One step more. -/
theorem Goes.step {t : Tid} {op : Op} {a : σ × L} {s : σ} {l : L} (h : P.Goes t op a (s, l))
    (i : ι) (s' : σ) (l' : L) (hres : P.result l = none) (hs : P.step i t s op l = some (s', l')) :
    P.Goes t op a (s', l') := h.tail ⟨hres, i, hs⟩

omit [DecidableEq Tid] in
/-- **A call that steps on, with a rank that goes down, comes to its goal.** -/
theorem Goes.reach {W : Type*} [LT W] [WellFoundedLT W] {t : Tid} {op : Op} {I : σ → L → Prop}
    {goal : L → Prop} (rank : L → W) (hstep : ∀ s l, I s l → ¬ goal l → P.result l = none ∧
      ∃ i s' l', P.step i t s op l = some (s', l') ∧ I s' l' ∧ rank l' < rank l)
    {a : σ × L} {s : σ} {l : L} (h : P.Goes t op a (s, l)) (hI : I s l) :
    ∃ s' l', P.Goes t op a (s', l') ∧ I s' l' ∧ goal l' := by
  induction hw : rank l using WellFoundedLT.induction generalizing s l with
  | ind w ih =>
    subst hw
    by_cases hg : goal l
    · exact ⟨s, l, h, hI, hg⟩
    · obtain ⟨hres, i, s', l', hs, hI', hlt⟩ := hstep s l hI hg
      exact ih _ hlt (h.step i s' l' hres hs) hI' rfl

omit [DecidableEq Tid] in
/-- What every step keeps. -/
theorem Goes.keeps {t : Tid} {op : Op} {a b : σ × L} {I : σ → L → Prop} (h : P.Goes t op a b)
    (ha : I a.1 a.2) (hstep : ∀ {i s l s' l'}, I s l → P.result l = none →
      P.step i t s op l = some (s', l') → I s' l') : I b.1 b.2 := by
  induction h with
  | refl => exact ha
  | tail _ h ih =>
    obtain ⟨hres, i, hs⟩ := h
    exact hstep ih hres hs

/-- Steps of a thread are steps of a run. -/
theorem Run.tau {es c} (hr : P.Run es c) {t : Tid} {op : Op} {l l' : L} {s' : σ} {i : ι}
    (ht : c.threads t = some (op, l)) (hres : P.result l = none)
    (hstep : P.step i t c.shared op l = some (s', l')) :
    ∃ es' c', P.Run es' c' ∧ c'.shared = s' ∧ c'.threads t = some (op, l') :=
  ⟨_, _, .step hr (.tau i ht hres hstep) trivial, rfl, by simp⟩

/-- **A rank that goes down at every step of a call that keeps to `good`.** -/
theorem returns_of_rank {W : Type*} [LT W] [WellFoundedLT W] (good : σ → Op → L → Prop)
    (rank : σ → Op → L → W)
    (hstep : ∀ {es c t op l}, P.Run es c → c.threads t = some (op, l) → P.result l = none →
      good c.shared op l → (∃ i q, P.step i t c.shared op l = some q) ∧
      ∀ i s' l', P.step i t c.shared op l = some (s', l') →
        good s' op l' ∧ rank s' op l' < rank c.shared op l)
    {es c} (hr : P.Run es c) {t : Tid} {op : Op} {l : L} (ht : c.threads t = some (op, l))
    (hg : good c.shared op l) : P.Returns t op c.shared l := by
  suffices h : ∀ w es c l, P.Run es c → c.threads t = some (op, l) → good c.shared op l →
      rank c.shared op l = w → P.Returns t op c.shared l from h _ es c l hr ht hg rfl
  intro w
  induction w using WellFoundedLT.induction with
  | ind w ih =>
    rintro es c l hr ht hg rfl
    rcases hres : P.result l with _ | r
    · obtain ⟨hen, hnext⟩ := hstep hr ht hres hg
      refine .step hres hen fun i s' l' hs => ?_
      obtain ⟨hg', hlt⟩ := hnext i s' l' hs
      obtain ⟨es', c', hr', rfl, ht'⟩ := hr.tau ht hres hs
      exact ih _ hlt es' c' l' hr' ht' hg' rfl
    · exact .done hres

/-- A step leads to a later phase, or within the phase nearer to its end, or to
a fresh round. -/
def Nearer {W : Type*} [LT W] (phase : L → ℕ) (fresh : σ → Op → L → Prop) (rank : σ → L → W) (s : σ)
    (op : Op) (l : L) (q : σ × L) : Prop :=
  phase q.2 < phase l ∨ phase q.2 = phase l ∧ (fresh s op l → fresh q.1 op q.2) ∧
    (rank q.1 q.2 < rank s l ∨ ¬ fresh s op l ∧ fresh q.1 op q.2)

section nearer

variable {W : Type*} [LT W] {phase : L → ℕ} {fresh : σ → Op → L → Prop} {rank : σ → L → W} {s : σ}
  {op : Op} {l : L} {q : σ × L}

theorem Nearer.on (hp : phase q.2 = phase l) (hf : fresh s op l → fresh q.1 op q.2)
    (hr : rank q.1 q.2 < rank s l) : Nearer phase fresh rank s op l q := Or.inr ⟨hp, hf, Or.inl hr⟩

theorem Nearer.again (hp : phase q.2 = phase l) (hn : ¬ fresh s op l) (hf : fresh q.1 op q.2) :
    Nearer phase fresh rank s op l q := Or.inr ⟨hp, fun _ => hf, Or.inr ⟨hn, hf⟩⟩

end nearer

open Classical in
/-- **A call that goes through phases, in each of which a rank goes down, or
goes down until the call is fresh.** -/
theorem returns_of_phase {W : Type*} [Preorder W] [WellFoundedLT W] (good : σ → Op → L → Prop)
    (phase : L → ℕ) (fresh : σ → Op → L → Prop) (rank : σ → L → W)
    (hstep : ∀ {es c t op l}, P.Run es c → c.threads t = some (op, l) → P.result l = none →
      good c.shared op l → (∃ i q, P.step i t c.shared op l = some q) ∧
      ∀ i s' l', P.step i t c.shared op l = some (s', l') →
        good s' op l' ∧ Nearer phase fresh rank c.shared op l (s', l'))
    {es c} (hr : P.Run es c) {t : Tid} {op : Op} {l : L} (ht : c.threads t = some (op, l))
    (hg : good c.shared op l) : P.Returns t op c.shared l := by
  -- within a phase, a call that is not fresh comes before all that are
  refine returns_of_rank good
    (fun s op l => toLex (phase l, toLex (if fresh s op l then 0 else 1, rank s l))) ?_ hr ht hg
  intro es c t op l hr ht hres hg
  obtain ⟨hen, hnext⟩ := hstep hr ht hres hg
  refine ⟨hen, fun i s' l' hs => ?_⟩
  obtain ⟨hg', h⟩ := hnext i s' l' hs
  refine ⟨hg', ?_⟩
  rw [Prod.Lex.toLex_lt_toLex, Prod.Lex.toLex_lt_toLex]
  refine h.imp_right fun ⟨hp, h1, h2⟩ => ⟨hp, ?_⟩
  by_cases hf : fresh c.shared op l
  · rw [if_pos hf, if_pos (h1 hf)]
    exact Or.inr ⟨rfl, h2.resolve_right fun h => h.1 hf⟩
  · rw [if_neg hf]
    by_cases hf' : fresh s' op l'
    · rw [if_pos hf']
      exact Or.inl one_pos
    · rw [if_neg hf']
      exact Or.inr ⟨rfl, h2.resolve_right fun h => hf' h.2⟩

/-- **A rank that goes down at every step, or until the call is fresh.** -/
theorem solo_of_rank {W : Type*} [Preorder W] [WellFoundedLT W] (fresh : σ → Op → L → Prop)
    (rank : σ → L → W)
    (hstep : ∀ {es c t op l}, P.Run es c → c.threads t = some (op, l) → P.result l = none →
      (∃ i q, P.step i t c.shared op l = some q) ∧
      ∀ i s' l', P.step i t c.shared op l = some (s', l') →
        (fresh c.shared op l → fresh s' op l') ∧
        (rank s' l' < rank c.shared l ∨ ¬ fresh c.shared op l ∧ fresh s' op l')) :
    P.Solo := fun _ _ hr _ _ _ ht =>
  returns_of_phase (fun _ _ _ => True) (fun _ => 0) fresh rank
    (fun hr ht hres _ => (hstep hr ht hres).imp_right fun h i s' l' hs =>
      ⟨trivial, Or.inr ⟨rfl, h i s' l' hs⟩⟩) hr ht trivial

end Program

end Concur
