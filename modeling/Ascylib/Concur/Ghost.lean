/-
# Ghost state

A program beside which some ghost state is kept that its steps write and never
read. The ghost program has the runs of the program itself (`RunIf.ghost`), so
what the two have in common may be proved of the ghost program: the calls and
returns, the shared state, and what a thread has seen since its call.

More generally, a map of shared states that steps respect takes the runs of one
program to runs of another (`Program.RunIf.map`).

Key definitions: `Ghost`, `Ghost.program`, `Ghost.erase`.
Key theorems: `Program.RunIf.ghost`, `Ghost.since_erase`, `LinearizableIf.erase`,
`Program.RunIf.map`.
-/
import Ascylib.Concur.Atomic

namespace Concur

variable {Tid Op Res σ L ι G M : Type*}

/-- Ghost state: how it starts, and what a step from a local state writes. -/
structure Ghost (Op L G : Type*) where
  init : G
  update : Op → L → G → G

namespace Ghost

variable (A : Ghost Op L G)

/-- The program with its ghost state. -/
def program (P : Program Tid Op Res σ L ι) : Program Tid Op Res (σ × G) L ι where
  init := (P.init, A.init)
  pre := P.pre
  start := P.start
  step i t s op l := (P.step i t s.1 op l).map fun q => ((q.1, A.update op l s.2), q.2)
  result := P.result

/-- A configuration, or a run, without the ghost state. -/
def eraseConfig (c : Config Tid Op (σ × G) L) : Config Tid Op σ L := ⟨c.shared.1, c.threads⟩

def erase (es : Trace Tid Op Res (σ × G) L) : Trace Tid Op Res σ L :=
  es.map fun p => (p.1, eraseConfig p.2)

/-- What the runs of the program meet, asked of the ghost program. -/
def lift (ok : Trace Tid Op Res σ L → Config Tid Op σ L → Event Tid Op Res → Config Tid Op σ L → Prop)
    (es : Trace Tid Op Res (σ × G) L) (c : Config Tid Op (σ × G) L) (e : Event Tid Op Res)
    (c' : Config Tid Op (σ × G) L) : Prop :=
  ok (erase es) (eraseConfig c) e (eraseConfig c')

theorem events_erase (es : Trace Tid Op Res (σ × G) L) :
    (erase es).map Prod.fst = es.map Prod.fst := by
  rw [erase, List.map_map]
  rfl

theorem last_erase (P : Program Tid Op Res σ L ι) (es : Trace Tid Op Res (σ × G) L) :
    ((A.program P).last es).1 = P.last (erase es) := by
  cases es <;> rfl

/-- What a thread has seen since its call. -/
theorem since_erase {t : Tid} {es : Trace Tid Op Res (σ × G) L} {s : σ × G} (h : s ∈ since t es) :
    s.1 ∈ since t (erase es) := by
  induction es with
  | nil => exact h
  | cons p es ih =>
    obtain ⟨e, c⟩ := p
    rcases h with rfl | ⟨hn, h⟩
    · exact Or.inl rfl
    · exact Or.inr ⟨hn, ih h⟩

end Ghost

/-- **Every run of a program is one of its ghost program, without the ghost
state.** -/
theorem Program.RunIf.ghost [DecidableEq Tid] {P : Program Tid Op Res σ L ι} (A : Ghost Op L G)
    {ok es c} (hr : P.RunIf ok es c) :
    ∃ es' c', (A.program P).RunIf (Ghost.lift ok) es' c' ∧ Ghost.erase es' = es ∧
      Ghost.eraseConfig c' = c := by
  induction hr with
  | init => exact ⟨[], _, .init, rfl, rfl⟩
  | @step es c e c' hr hst hok ih =>
    obtain ⟨es', ⟨⟨s, g⟩, th⟩, hr', rfl, rfl⟩ := ih
    cases hst with
    | @call t op hidle hpre =>
      exact ⟨_, ⟨(s, g), Function.update th t (some (op, P.start op))⟩,
        .step hr' (Step.call (P := A.program P) hidle hpre) hok, rfl, rfl⟩
    | @tau t op l s' l' i ht hres hstep =>
      have hs : (A.program P).step i t (s, g) op l = some ((s', A.update op l g), l') := by
        simp only [Ghost.program]
        rw [show P.step i t s op l = some (s', l') from hstep]
        rfl
      exact ⟨_, ⟨(s', A.update op l g), Function.update th t (some (op, l'))⟩,
        .step hr' (Step.tau (P := A.program P) i ht hres hs) hok, rfl, rfl⟩
    | @ret t op l r ht hres =>
      exact ⟨_, ⟨(s, g), Function.update th t none⟩,
        .step hr' (Step.ret (P := A.program P) ht hres) hok, rfl, rfl⟩

/-- **A map of shared states that steps respect maps runs.** `I` and `J` hold in
the runs that are mapped, of the shared state and of every call. -/
theorem Program.RunIf.map [DecidableEq Tid] {τ : Type*} {P : Program Tid Op Res σ L ι}
    {ok : Trace Tid Op Res σ L → Config Tid Op σ L → Event Tid Op Res → Config Tid Op σ L → Prop}
    {es c} (hr : P.RunIf ok es c) (Q : Program Tid Op Res τ L ι) (f : σ → τ) (I : σ → Prop) (J : L → Prop) (hinit : f P.init = Q.init) (hI : I P.init)
    (hpre : ∀ op, P.pre op → Q.pre op) (hstart : ∀ op, P.start op = Q.start op)
    (hJ : ∀ op, J (P.start op)) (hres : ∀ l, P.result l = Q.result l)
    (hstep : ∀ {es c t op l i s' l'}, ok es c (.tau t) ⟨s', Function.update c.threads t (some (op, l'))⟩ →
      c.threads t = some (op, l) → I c.shared → J l → P.step i t c.shared op l = some (s', l') →
      Q.step i t (f c.shared) op l = some (f s', l') ∧ I s' ∧ J l') :
    (∃ es', Q.Run es' ⟨f c.shared, c.threads⟩) ∧ I c.shared ∧
      ∀ t op l, c.threads t = some (op, l) → J l := by
  induction hr with
  | init =>
    refine ⟨⟨[], ?_⟩, hI, nofun⟩
    rw [show (⟨f P.initial.shared, P.initial.threads⟩ : Config Tid Op τ L) = Q.initial from
      congrArg (Config.mk · _) hinit]
    exact .init
  | @step es c e c' hr hst hok ih =>
    obtain ⟨⟨es', hr'⟩, hIc, hJc⟩ := ih
    cases hst with
    | @call t op hidle hp =>
      refine ⟨⟨_, .step hr' (?_ : Q.Step _ (.call t op) _) trivial⟩, hIc, fun u op₁ l₁ hu => ?_⟩
      · rw [hstart op]
        exact .call hidle (hpre op hp)
      · rcases update_eq_some.mp hu with ⟨-, h⟩ | ⟨-, h⟩
        · cases h
          exact hJ op
        · exact hJc u op₁ l₁ h
    | @tau t op l s' l' i ht hr₁ hs =>
      obtain ⟨hs', hI', hJ'⟩ := hstep hok ht hIc (hJc t op l ht) hs
      refine ⟨⟨_, .step hr' (.tau i ht (hres l ▸ hr₁) hs') trivial⟩, hI', fun u op₁ l₁ hu => ?_⟩
      rcases update_eq_some.mp hu with ⟨-, h⟩ | ⟨-, h⟩
      · cases h
        exact hJ'
      · exact hJc u op₁ l₁ h
    | @ret t op l r ht hr₁ =>
      refine ⟨⟨_, .step hr' (.ret ht (hres l ▸ hr₁)) trivial⟩, hIc, fun u op₁ l₁ hu => ?_⟩
      rcases update_eq_some.mp hu with ⟨-, h⟩ | ⟨-, h⟩
      · cases h
      · exact hJc u op₁ l₁ h

/-- The calls and returns of every run that meets `ok` are those of the atomic
object, whose state then fits the shared one. -/
def HistoriesLinearizableIf [DecidableEq Tid] (O : Object Op Res M) (P : Program Tid Op Res σ L ι)
    (ok : Trace Tid Op Res σ L → Config Tid Op σ L → Event Tid Op Res → Config Tid Op σ L → Prop)
    (fits : σ → M → Prop) : Prop :=
  ∀ es c, P.RunIf ok es c → ∃ a, History O (es.map Prod.fst) a ∧ fits c.shared a.state

/-- **A program is linearizable if its ghost program is.** -/
theorem LinearizableIf.erase [DecidableEq Tid] {O : Object Op Res M} {P : Program Tid Op Res σ L ι}
    {A : Ghost Op L G} {ok} {abs : σ × G → M} {fits : σ → M → Prop}
    (h : LinearizableIf O (A.program P) (Ghost.lift ok) abs)
    (hfits : ∀ {es c}, (A.program P).RunIf (Ghost.lift ok) es c → fits c.shared.1 (abs c.shared)) :
    HistoriesLinearizableIf O P ok fits := by
  intro es c hr
  obtain ⟨es', c', hr', rfl, rfl⟩ := hr.ghost A
  obtain ⟨a, ha⟩ := h es' c' hr'
  refine ⟨a, ?_, ?_⟩
  · rw [Ghost.events_erase]
    exact ha.history
  · rw [ha.state_eq hr']
    exact hfits hr'

end Concur
