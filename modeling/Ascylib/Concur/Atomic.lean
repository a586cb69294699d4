/-
# Linearizability

The atomic object: a thread calls, at some later moment the operation takes
effect at once (`lin`), and later the thread returns the result it computed.
A run of a program is linearizable when the atomic object can make the same
calls and returns, event by event, with its abstract state equal to the
abstraction of the shared memory at every moment.

A call that changes the abstract state has its moment in the program text
(`lin` names its result once it has taken effect). A call that does not may
take effect at any moment of its window, which is known only when it returns:
`linearizable` builds the atomic run backwards.

Key definitions: `Object`, `Linearized`, `Linearizable`, `History`.
Key theorem: `linearizable`.
-/
import Ascylib.Concur.Run
import Mathlib.Data.Fintype.Basic
import Mathlib.Data.Finset.Insert
import Mathlib.Logic.Relation

namespace Concur

variable {Tid Op Res σ L ι M : Type*}

/-- A sequential object: its first state and what an operation does. -/
structure Object (Op Res M : Type*) where
  init : M
  apply : Op → M → M × Res

/-- Where a thread of the atomic object is in its call. -/
inductive Status (Op Res : Type*) where
  | idle
  | pending (op : Op)
  | done (op : Op) (r : Res)

structure Atomic (Tid Op Res M : Type*) where
  state : M
  status : Tid → Status Op Res

variable [DecidableEq Tid]

namespace Atomic

variable (O : Object Op Res M)

def initial : Atomic Tid Op Res M := ⟨O.init, fun _ => .idle⟩

def set (a : Atomic Tid Op Res M) (t : Tid) (x : Status Op Res) : Atomic Tid Op Res M :=
  ⟨a.state, Function.update a.status t x⟩

/-- The pending operation of thread `t` takes effect. -/
inductive Lin : Atomic Tid Op Res M → Atomic Tid Op Res M → Prop
  | lin {a t op} : a.status t = .pending op →
      Lin a ⟨(O.apply op a.state).1, Function.update a.status t (.done op (O.apply op a.state).2)⟩

/-- The atomic object's part of an event. -/
inductive Visible : Atomic Tid Op Res M → Event Tid Op Res → Atomic Tid Op Res M → Prop
  | call {a t op} : a.status t = .idle → Visible a (.call t op) (a.set t (.pending op))
  | tau {a t} : Visible a (.tau t) a
  | ret {a t op r} : a.status t = .done op r → Visible a (.ret t op r) (a.set t .idle)

/-- One event, with any operations taking effect before and after it. -/
def Step (a : Atomic Tid Op Res M) (e : Event Tid Op Res) (b : Atomic Tid Op Res M) : Prop :=
  ∃ a₁ b₁, Relation.ReflTransGen (Lin O) a a₁ ∧ Visible a₁ e b₁ ∧
    Relation.ReflTransGen (Lin O) b₁ b

variable {O}

/-- Operations that leave the state as it is take effect one after another. -/
theorem lin_many [Fintype Tid] (D : Finset Tid) : ∀ {a b : Atomic Tid Op Res M},
    a.state = b.state → (∀ t ∉ D, a.status t = b.status t) →
    (∀ t ∈ D, ∃ op r, a.status t = .pending op ∧ b.status t = .done op r ∧
      O.apply op a.state = (a.state, r)) →
    Relation.ReflTransGen (Lin O) a b := by
  induction D using Finset.induction_on with
  | empty =>
    intro a b hs ho _
    have : a = b := by
      cases a; cases b
      simp only [Atomic.mk.injEq]
      exact ⟨hs, funext fun t => ho t (Finset.notMem_empty t)⟩
    rw [this]
  | insert t D ht ih =>
    intro a b hs ho hD
    obtain ⟨op, r, hp, hd, hap⟩ := hD t (Finset.mem_insert_self t D)
    have h1 : Lin O a (a.set t (.done op r)) := by
      have := Lin.lin (O := O) hp
      rwa [hap] at this
    refine Relation.ReflTransGen.head h1 (ih hs (fun u hu => ?_) fun u hu => ?_)
    · by_cases hut : u = t
      · subst hut; simp [set, hd]
      · simp only [set, Function.update_of_ne hut]
        exact ho u (by simp [hut, hu])
    · have hut : u ≠ t := fun h => ht (h ▸ hu)
      obtain ⟨op', r', hp', hd', hap'⟩ := hD u (Finset.mem_insert_of_mem hu)
      exact ⟨op', r', by simp [set, hut, hp'], hd', hap'⟩

end Atomic

/-- The atomic object makes the calls and returns of a run, with its state
the abstraction of the shared memory after every event, and ends in `a`. -/
inductive Linearized (O : Object Op Res M) (P : Program Tid Op Res σ L ι) (abs : σ → M) :
    Trace Tid Op Res σ L → Atomic Tid Op Res M → Prop
  | init : abs P.init = O.init → Linearized O P abs [] (Atomic.initial O)
  | step {es a e c b} : Linearized O P abs es a → Atomic.Step O a e b → b.state = abs c.shared →
      Linearized O P abs ((e, c) :: es) b

/-- Every run that meets `ok` is linearizable. -/
def LinearizableIf (O : Object Op Res M) (P : Program Tid Op Res σ L ι)
    (ok : Trace Tid Op Res σ L → Config Tid Op σ L → Event Tid Op Res → Config Tid Op σ L → Prop)
    (abs : σ → M) : Prop :=
  ∀ es c, P.RunIf ok es c → ∃ a, Linearized O P abs es a

/-- Every run is linearizable. -/
abbrev Linearizable (O : Object Op Res M) (P : Program Tid Op Res σ L ι) (abs : σ → M) : Prop :=
  LinearizableIf O P (fun _ _ _ _ => True) abs

/-- What a linearizable program's text says about its calls: `lin` names the
result of a call that has taken effect, and no other thread changes it. -/
structure Points (O : Object Op Res M) (P : Program Tid Op Res σ L ι)
    (ok : Trace Tid Op Res σ L → Config Tid Op σ L → Event Tid Op Res → Config Tid Op σ L → Prop)
    (abs : σ → M) where
  lin : σ → Op → L → Option Res
  init : abs P.init = O.init
  start : ∀ s op, lin s op (P.start op) = none
  tau : ∀ {es c t op l i s' l'}, P.RunIf ok es c → c.threads t = some (op, l) →
    P.result l = none → P.step i t c.shared op l = some (s', l') →
    ok es c (.tau t) ⟨s', Function.update c.threads t (some (op, l'))⟩ →
    ((lin s' op l' = lin c.shared op l ∧ abs s' = abs c.shared) ∨
      (lin c.shared op l = none ∧ ∃ r, lin s' op l' = some r ∧
        O.apply op (abs c.shared) = (abs s', r))) ∧
    ∀ u op₁ l₁, u ≠ t → c.threads u = some (op₁, l₁) → lin s' op₁ l₁ = lin c.shared op₁ l₁
  ret : ∀ {es c t op l r}, P.RunIf ok es c → c.threads t = some (op, l) → P.result l = some r →
    lin c.shared op l = some r ∨
    (lin c.shared op l = none ∧ ∃ s ∈ since t es, O.apply op (abs s) = (abs s, r))

section

variable {O : Object Op Res M} {P : Program Tid Op Res σ L ι}
  {ok : Trace Tid Op Res σ L → Config Tid Op σ L → Event Tid Op Res → Config Tid Op σ L → Prop}
  {abs : σ → M}

/-- The status that the atomic object may have for a thread of the program:
a call that has not taken effect in the text is pending, or has a result
that some moment of its window gives. -/
def Points.Fits (Q : Points O P ok abs) (W : Set σ) (s : σ) :
    Option (Op × L) → Status Op Res → Prop
  | none, x => x = .idle
  | some (op, l), x =>
    match Q.lin s op l with
    | some r => x = .done op r
    | none => x = .pending op ∨ ∃ r, x = .done op r ∧ ∃ s ∈ W, O.apply op (abs s) = (abs s, r)

structure Points.Sim (Q : Points O P ok abs) (es : Trace Tid Op Res σ L) (c : Config Tid Op σ L)
    (a : Atomic Tid Op Res M) : Prop where
  state : a.state = abs c.shared
  status : ∀ t, Q.Fits (since t es) c.shared (c.threads t) (a.status t)

theorem Points.sim_last (Q : Points O P ok abs) (es : Trace Tid Op Res σ L)
    (c : Config Tid Op σ L) : ∃ a, Q.Sim es c a := by
  have h : ∀ t, ∃ x, Q.Fits (since t es) c.shared (c.threads t) x := by
    intro t
    rcases hc : c.threads t with _ | ⟨op, l⟩
    · exact ⟨.idle, rfl⟩
    · rcases hl : Q.lin c.shared op l with _ | r
      · exact ⟨.pending op, by simp [Fits, hl]⟩
      · exact ⟨.done op r, by simp [Fits, hl]⟩
  choose f hf using h
  exact ⟨⟨abs c.shared, f⟩, rfl, hf⟩

/-- What fits a thread after an event that keeps its local state fitted it
before, if the event brought no new abstract state into its window. -/
theorem Points.Fits.back {Q : Points O P ok abs} {W W' : Set σ} {s' s : σ} {f : Option (Op × L)}
    {x : Status Op Res} (h : Q.Fits W' s' f x)
    (hl' : ∀ op l, f = some (op, l) → Q.lin s' op l = Q.lin s op l)
    (hW : f.isSome → ∀ s ∈ W', ∃ s₀ ∈ W, abs s₀ = abs s) : Q.Fits W s f x := by
  rcases f with _ | ⟨op, l⟩
  · exact h
  · rw [Fits, hl' op l rfl] at h
    rcases hl : Q.lin s op l with _ | r
    · simp only [Fits, hl] at h ⊢
      rcases h with h | ⟨r, hx, s, hs, hap⟩
      · exact Or.inl h
      · obtain ⟨s₀, hm, he⟩ := hW rfl s hs
        exact Or.inr ⟨r, hx, s₀, hm, by rw [he]; exact hap⟩
    · simpa only [Fits, hl] using h

/-- What fits a thread after an event that brings the state `s'` into its
window fitted it before, or it is a result that `s'` gives. -/
theorem Points.Fits.back_or {Q : Points O P ok abs} {W : Set σ} {s' s : σ} {f : Option (Op × L)}
    {x : Status Op Res} (h : Q.Fits (insert s' W) s' f x)
    (hl' : ∀ op l, f = some (op, l) → Q.lin s' op l = Q.lin s op l) :
    ∃ y, Q.Fits W s f y ∧ (y = x ∨ ∃ op r, y = .pending op ∧ x = .done op r ∧
      O.apply op (abs s') = (abs s', r)) := by
  rcases f with _ | ⟨op, l⟩
  · exact ⟨x, h, Or.inl rfl⟩
  · rw [Fits, hl' op l rfl] at h
    rcases hl : Q.lin s op l with _ | r
    · simp only [Fits, hl] at h ⊢
      rcases h with h | ⟨r, hx, s, hs, hap⟩
      · exact ⟨x, Or.inl h, Or.inl rfl⟩
      · rcases Set.mem_insert_iff.mp hs with rfl | hs
        · exact ⟨.pending op, Or.inl rfl, Or.inr ⟨op, r, rfl, hx, hap⟩⟩
        · exact ⟨x, Or.inr ⟨r, hx, s, hs, hap⟩, Or.inl rfl⟩
    · exact ⟨x, by simpa only [Fits, hl] using h, Or.inl rfl⟩

/-- The window of a thread that an event does not concern, when the abstract
state stays the same. -/
theorem window_frame {es c e s' th} (hr : P.RunIf ok es c)
    (habs : abs s' = abs c.shared) {u : Tid} (hu : e.thread ≠ u) :
    (c.threads u).isSome → ∀ s ∈ since u ((e, (⟨s', th⟩ : Config Tid Op σ L)) :: es),
      ∃ s₀ ∈ since u es, abs s₀ = abs s := by
  intro h s hs
  obtain ⟨f, hf⟩ := Option.isSome_iff_exists.mp h
  rw [since, window_cons (not_opens_of_ne hu)] at hs
  rcases Set.mem_insert_iff.mp hs with rfl | hs
  · exact ⟨c.shared, hr.shared_mem_window _ hf, habs.symm⟩
  · exact ⟨s, hs, rfl⟩

theorem Points.back_call (Q : Points O P ok abs) {es c t op} {b : Atomic Tid Op Res M}
    (hr : P.RunIf ok es c) (hidle : c.threads t = none)
    (h : Q.Sim ((.call t op, ⟨c.shared, Function.update c.threads t (some (op, P.start op))⟩) :: es)
      ⟨c.shared, Function.update c.threads t (some (op, P.start op))⟩ b) :
    ∃ a, Q.Sim es c a ∧ Atomic.Step O a (.call t op) b := by
  refine ⟨b.set t .idle, ⟨h.state, fun u => ?_⟩, ?_⟩
  · by_cases hu : u = t
    · subst hu
      simp [Atomic.set, hidle, Fits]
    · have hf := h.status u
      simp only [Function.update_of_ne hu] at hf
      simp only [Atomic.set, Function.update_of_ne hu]
      exact hf.back (fun _ _ _ => rfl) (window_frame hr rfl (Ne.symm hu))
  · have hf := h.status t
    rw [since, window_cons_of_opens (Or.inl ⟨op, rfl⟩)] at hf
    simp only [Function.update_self, Fits, Q.start] at hf
    have hv : Atomic.Visible (b.set t .idle) (.call t op) (b.set t (.pending op)) := by
      have : Atomic.Visible (b.set t .idle) (.call t op) ((b.set t .idle).set t (.pending op)) :=
        .call (by simp [Atomic.set])
      simpa [Atomic.set] using this
    refine ⟨_, _, .refl, hv, ?_⟩
    rcases hf with hf | ⟨r, hf, s, rfl, hap⟩
    · rw [show b.set t (.pending op) = b by simp [Atomic.set, ← hf]]
    · refine Relation.ReflTransGen.single ?_
      have h1 : Atomic.Lin O (b.set t (.pending op)) _ :=
        .lin (show (b.set t (.pending op)).status t = .pending op by simp [Atomic.set])
      have hs : b.state = abs c.shared := h.state
      have hb : (⟨b.state, Function.update b.status t (.done op r)⟩ : Atomic Tid Op Res M) = b := by
        rw [← hf, Function.update_eq_self]
      simp only [Atomic.set, Function.update_idem] at h1
      rw [show O.apply op b.state = (b.state, r) by rw [hs]; exact hap, hb] at h1
      exact h1

theorem Points.back_ret (Q : Points O P ok abs) {es c t op l r} {b : Atomic Tid Op Res M}
    (hr : P.RunIf ok es c) (ht : c.threads t = some (op, l)) (hres : P.result l = some r)
    (h : Q.Sim ((.ret t op r, ⟨c.shared, Function.update c.threads t none⟩) :: es)
      ⟨c.shared, Function.update c.threads t none⟩ b) :
    ∃ a, Q.Sim es c a ∧ Atomic.Step O a (.ret t op r) b := by
  have hb : b.status t = .idle := by simpa [Fits] using h.status t
  refine ⟨b.set t (.done op r), ⟨h.state, fun u => ?_⟩, _, _, .refl,
    Atomic.Visible.ret (a := b.set t (.done op r)) (by simp [Atomic.set]), ?_⟩
  · by_cases hu : u = t
    · subst hu
      simp only [Atomic.set, Function.update_self, ht, Fits]
      rcases Q.ret hr ht hres with hl | ⟨hl, s, hs, hap⟩
      · simp [hl]
      · simp only [hl]
        exact Or.inr ⟨r, rfl, s, hs, hap⟩
    · have hf := h.status u
      simp only [Function.update_of_ne hu] at hf
      simp only [Atomic.set, Function.update_of_ne hu]
      exact hf.back (fun _ _ _ => rfl) (window_frame hr rfl (Ne.symm hu))
  · rw [show (b.set t (.done op r)).set t .idle = b by simp [Atomic.set, ← hb]]

theorem Points.back_tau [Fintype Tid] (Q : Points O P ok abs) {es c t op l i s' l'}
    {b : Atomic Tid Op Res M} (hr : P.RunIf ok es c) (ht : c.threads t = some (op, l))
    (hres : P.result l = none) (hstep : P.step i t c.shared op l = some (s', l'))
    (hok : ok es c (.tau t) ⟨s', Function.update c.threads t (some (op, l'))⟩)
    (h : Q.Sim ((.tau t, ⟨s', Function.update c.threads t (some (op, l'))⟩) :: es)
      ⟨s', Function.update c.threads t (some (op, l'))⟩ b) :
    ∃ a, Q.Sim es c a ∧ Atomic.Step O a (.tau t) b := by
  classical
  have hw : ∀ u, u ≠ t → since u ((.tau t, ⟨s', Function.update c.threads t (some (op, l'))⟩) :: es)
      = insert s' (since u es) := fun u hu => window_cons (not_opens_of_ne (Ne.symm hu))
  obtain ⟨htau, hoth⟩ := Q.tau hr ht hres hstep hok
  rcases htau with ⟨hl, habs⟩ | ⟨hl, r, hl', hap⟩
  · refine ⟨b, ⟨h.state.trans habs, fun u => ?_⟩, b, b, .refl, .tau, .refl⟩
    have hf := h.status u
    by_cases hu : u = t
    · subst hu
      simp only [Function.update_self] at hf
      have hf' : Q.Fits (since u ((.tau u, ⟨s', Function.update c.threads u (some (op, l'))⟩) :: es))
          c.shared (c.threads u) (b.status u) := by
        simpa only [ht, Fits, hl] using hf
      refine hf'.back (fun _ _ _ => rfl) fun _ s hs => ?_
      rw [since, window_cons (by simp [Opens])] at hs
      rcases Set.mem_insert_iff.mp hs with rfl | hs
      · exact ⟨c.shared, hr.shared_mem_window _ ht, habs.symm⟩
      · exact ⟨s, hs, rfl⟩
    · simp only [Function.update_of_ne hu] at hf
      exact hf.back (fun op l hc => hoth u op l hu hc) (window_frame hr habs (Ne.symm hu))
  · -- the call of `t` takes effect; after it, the calls that need the new state
    have hy : ∀ u, ∃ y, u ≠ t → Q.Fits (since u es) c.shared (c.threads u) y ∧ (y = b.status u ∨
        ∃ op r, y = .pending op ∧ b.status u = .done op r ∧ O.apply op (abs s') = (abs s', r)) := by
      intro u
      by_cases hu : u = t
      · exact ⟨.idle, fun h => absurd hu h⟩
      · have hf := h.status u
        simp only [Function.update_of_ne hu, hw u hu] at hf
        obtain ⟨y, hy⟩ := hf.back_or fun op l hc => hoth u op l hu hc
        exact ⟨y, fun _ => hy⟩
    choose f hf using hy
    have hbt : b.status t = .done op r := by simpa [Fits, hl'] using h.status t
    refine ⟨⟨abs c.shared, Function.update f t (.pending op)⟩, ⟨rfl, fun u => ?_⟩, ?_⟩
    · by_cases hu : u = t
      · subst hu
        simp [ht, Fits, hl]
      · simp only [Function.update_of_ne hu]
        exact (hf u hu).1
    · refine ⟨b, b, ?_, .tau, .refl⟩
      have h1 : Atomic.Lin O ⟨abs c.shared, Function.update f t (.pending op)⟩ _ :=
        .lin (Function.update_self t (.pending op) f)
      rw [hap] at h1
      refine Relation.ReflTransGen.head h1 (Atomic.lin_many
        (Finset.univ.filter fun u => u ≠ t ∧ f u ≠ b.status u) h.state.symm (fun u hu => ?_)
        fun u hu => ?_)
      · by_cases hut : u = t
        · subst hut
          simp [hbt]
        · simp only [Function.update_of_ne hut]
          simpa [hut] using hu
      · obtain ⟨hut, hne⟩ := (Finset.mem_filter.mp hu).2
        obtain ⟨op', r', hp, hd, hap'⟩ := (hf u hut).2.resolve_left hne
        exact ⟨op', r', by simp [hut, hp], hd, hap'⟩

/-- **A program whose calls take effect at a step of its text or, without a
change, at some moment of their window, is linearizable.** -/
theorem linearizable [Fintype Tid] (Q : Points O P ok abs) : LinearizableIf O P ok abs := by
  intro es c hr
  suffices h : ∀ a, Q.Sim es c a → Linearized O P abs es a by
    obtain ⟨a, ha⟩ := Q.sim_last es c
    exact ⟨a, h a ha⟩
  induction hr with
  | init =>
    intro a ha
    have : a = Atomic.initial O := by
      obtain ⟨hs, ht⟩ := ha
      cases a
      simp only [Atomic.initial, Atomic.mk.injEq]
      exact ⟨hs.trans Q.init, funext fun t => ht t⟩
    rw [this]
    exact .init Q.init
  | @step es c e c' hr hst hok ih =>
    intro b hb
    have hs : b.state = abs c'.shared := hb.state
    obtain ⟨a, ha, hab⟩ : ∃ a, Q.Sim es c a ∧ Atomic.Step O a e b := by
      cases hst with
      | call hidle _ => exact Q.back_call hr hidle hb
      | tau i ht hres hstep => exact Q.back_tau hr ht hres hstep hok hb
      | ret ht hres => exact Q.back_ret hr ht hres hb
    exact .step (ih a ha) hab hs

/-- The linearization points of a program, from its proof outline. -/
def Outline.points {reset : Op → L → Prop} (Q : Outline P ok reset) (lin : σ → Op → L → Option Res)
    (init : abs P.init = O.init) (start : ∀ s op, lin s op (P.start op) = none)
    (tau : ∀ {es c t op l i s' l'}, P.RunIf ok es c → Q.Holds es c → c.threads t = some (op, l) →
      P.result l = none → P.step i t c.shared op l = some (s', l') →
      ok es c (.tau t) ⟨s', Function.update c.threads t (some (op, l'))⟩ →
      ((lin s' op l' = lin c.shared op l ∧ abs s' = abs c.shared) ∨
        (lin c.shared op l = none ∧ ∃ r, lin s' op l' = some r ∧
          O.apply op (abs c.shared) = (abs s', r))) ∧
      ∀ u op₁ l₁, u ≠ t → c.threads u = some (op₁, l₁) → lin s' op₁ l₁ = lin c.shared op₁ l₁)
    (ret : ∀ {es c t op l r}, P.RunIf ok es c → Q.Holds es c → c.threads t = some (op, l) →
      P.result l = some r → lin c.shared op l = some r ∨
      (lin c.shared op l = none ∧ ∃ s ∈ since t es, O.apply op (abs s) = (abs s, r))) :
    Points O P ok abs where
  lin := lin
  init := init
  start := start
  tau hr ht hres hstep hok := tau hr (Q.holds hr) ht hres hstep hok
  ret hr ht hres := ret hr (Q.holds hr) ht hres

/-- An operation that takes effect leaves no thread idle and makes none so. -/
theorem Atomic.lins_idle {a b : Atomic Tid Op Res M}
    (h : Relation.ReflTransGen (Atomic.Lin O) a b) (t : Tid) :
    b.status t = .idle ↔ a.status t = .idle := by
  induction h with
  | refl => exact Iff.rfl
  | tail _ hl ih =>
    obtain ⟨hp⟩ := hl
    rename_i u _
    rw [← ih]
    by_cases hut : t = u
    · subst hut; simp [hp]
    · simp [hut]

/-- The atomic object is idle where the program is. -/
theorem Linearized.idle_iff {es a} (h : Linearized O P abs es a) {c} (hr : P.RunIf ok es c)
    (t : Tid) : a.status t = .idle ↔ c.threads t = none := by
  induction h generalizing c with
  | init => cases hr; simp [Atomic.initial, Program.initial]
  | step _ hab _ ih =>
    cases hr with
    | step hr hst _ =>
    obtain ⟨a₁, b₁, h1, h2, h3⟩ := hab
    rw [Atomic.lins_idle h3]
    have ih := (Atomic.lins_idle h1 t).trans (ih hr)
    cases h2 with
    | @call u op _ =>
      cases hst with
      | call =>
      by_cases hut : t = u
      · subst hut; simp [Atomic.set]
      · simpa [Atomic.set, hut] using ih
    | @tau u =>
      cases hst with
      | tau i ht _ _ =>
      rw [ih]
      by_cases hut : t = u
      · subst hut; simp [ht]
      · simp [hut]
    | @ret u op r _ =>
      cases hst with
      | ret =>
      by_cases hut : t = u
      · subst hut; simp [Atomic.set]
      · simpa [Atomic.set, hut] using ih

theorem Linearized.state_eq {es a} (h : Linearized O P abs es a) {c} (hr : P.RunIf ok es c) :
    a.state = abs c.shared := by
  cases h with
  | init h0 => cases hr; exact h0.symm
  | step _ _ h => cases hr; exact h

/-! ### Histories -/

/-- The atomic object makes these calls and returns, newest first, and ends in
`a`. -/
inductive History (O : Object Op Res M) : List (Event Tid Op Res) → Atomic Tid Op Res M → Prop
  | init : History O [] (Atomic.initial O)
  | step {es a e b} : History O es a → Atomic.Step O a e b → History O (e :: es) b

/-- The calls and returns of every run are those of the atomic object, whatever
the shared memory stands for. -/
def HistoriesLinearizable (O : Object Op Res M) (P : Program Tid Op Res σ L ι) : Prop :=
  ∀ es c, P.Run es c → ∃ a, History O (es.map Prod.fst) a

theorem Linearized.history {es a} (h : Linearized O P abs es a) : History O (es.map Prod.fst) a := by
  induction h with
  | init => exact .init
  | step _ hab _ ih => exact .step ih hab

/-- A property that every operation and every event of a history keep. -/
theorem Atomic.Step.keeps {I J : Atomic Tid Op Res M → Prop} {a b : Atomic Tid Op Res M}
    {e : Event Tid Op Res} (hI : ∀ {a b}, I a → Atomic.Lin O a b → I b)
    (hJ : ∀ {a b}, J a → Atomic.Lin O a b → J b)
    (he : ∀ {a b}, I a → Atomic.Visible a e b → J b) (ha : I a) (h : Atomic.Step O a e b) : J b := by
  have lins : ∀ {I : Atomic Tid Op Res M → Prop} {a b}, (∀ {a b}, I a → Atomic.Lin O a b → I b) →
      Relation.ReflTransGen (Atomic.Lin O) a b → I a → I b := by
    intro I a b hI hab ha
    induction hab with
    | refl => exact ha
    | tail _ hl ih => exact hI ih hl
  obtain ⟨a₁, b₁, h1, h2, h3⟩ := h
  exact lins hJ h3 (he (lins hI h1 ha) h2)

end

end Concur
