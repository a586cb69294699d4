/-
# Programs of threads over a shared memory, and their runs

A program gives the shared state it starts from, the code of one call as a
step function on a thread's local state, and the result of a finished call.
Threads call, step and return in any order; a run is the list of what
happened, newest first, with the configuration after each event.

Two sets of past shared states go with a run: `seen` (all of them) and
`window` (those since a thread last opened its window: at its call, or at a
step into a local state that `reset` names). A fact about a past moment is a
fact about a member of one of them, so it stays true as the run goes on:
what a traversal learned is stable under the steps of the other threads.

Key definitions: `Program`, `Program.Run`, `window`, `Outline`, `Program.play`.
Key theorems: `Outline.holds`, `Program.play_run`.
-/
import Mathlib.Logic.Function.Basic
import Mathlib.Data.Set.Insert

namespace Concur

variable {Tid Op Res σ L ι : Type*}

/-- The code of one call, run by any thread over the shared state `σ`. `ι`
holds what the code does not determine itself (random draws). A step that is
`none` cannot be taken: the thread waits. -/
structure Program (Tid Op Res σ L ι : Type*) where
  init : σ
  pre : Op → Prop
  start : Op → L
  step : ι → Tid → σ → Op → L → Option (σ × L)
  result : L → Option Res

/-- The shared state and, for each thread inside a call, the call and its
local state. -/
structure Config (Tid Op σ L : Type*) where
  shared : σ
  threads : Tid → Option (Op × L)

inductive Event (Tid Op Res : Type*) where
  | call (t : Tid) (op : Op)
  | tau (t : Tid)
  | ret (t : Tid) (op : Op) (r : Res)
  deriving DecidableEq

/-- A run, newest event first, with the configuration after each event. -/
abbrev Trace (Tid Op Res σ L : Type*) := List (Event Tid Op Res × Config Tid Op σ L)

/-- The thread that causes an event. -/
def Event.thread : Event Tid Op Res → Tid
  | .call t _ => t
  | .tau t => t
  | .ret t _ _ => t

/-! ### Steps and runs -/

variable [DecidableEq Tid]

namespace Program

variable (P : Program Tid Op Res σ L ι)

def initial : Config Tid Op σ L := ⟨P.init, fun _ => none⟩

inductive Step : Config Tid Op σ L → Event Tid Op Res → Config Tid Op σ L → Prop
  | call {c t op} : c.threads t = none → P.pre op →
      Step c (.call t op) ⟨c.shared, Function.update c.threads t (some (op, P.start op))⟩
  | tau {c t op l s' l'} (i : ι) : c.threads t = some (op, l) → P.result l = none →
      P.step i t c.shared op l = some (s', l') →
      Step c (.tau t) ⟨s', Function.update c.threads t (some (op, l'))⟩
  | ret {c t op l r} : c.threads t = some (op, l) → P.result l = some r →
      Step c (.ret t op r) ⟨c.shared, Function.update c.threads t none⟩

/-- The runs all of whose steps meet `ok`. -/
inductive RunIf (ok : Trace Tid Op Res σ L → Config Tid Op σ L → Event Tid Op Res →
    Config Tid Op σ L → Prop) : Trace Tid Op Res σ L → Config Tid Op σ L → Prop
  | init : RunIf ok [] P.initial
  | step {es c e c'} : RunIf ok es c → P.Step c e c' → ok es c e c' → RunIf ok ((e, c') :: es) c'

/-- Every run. -/
abbrev Run := P.RunIf fun _ _ _ _ => True

/-- The shared states of a run. -/
def seen : Trace Tid Op Res σ L → Set σ
  | [] => {P.init}
  | (_, c) :: es => insert c.shared (seen es)

end Program

/-- The events that open the window of thread `t`. -/
def Opens (reset : Op → L → Prop) (t : Tid) (e : Event Tid Op Res) (c : Config Tid Op σ L) : Prop :=
  (∃ op, e = .call t op) ∨ (e = .tau t ∧ ∃ op l, c.threads t = some (op, l) ∧ reset op l)

/-- The shared states since thread `t` last opened its window. -/
def window (reset : Op → L → Prop) (t : Tid) : Trace Tid Op Res σ L → Set σ
  | [] => ∅
  | (e, c) :: es => {s | s = c.shared ∨ (¬ Opens reset t e c ∧ s ∈ window reset t es)}

/-- The shared states since the last call of thread `t`. -/
abbrev since (t : Tid) : Trace Tid Op Res σ L → Set σ := window (fun _ _ => False) t

omit [DecidableEq Tid] in
theorem window_cons_of_opens {reset : Op → L → Prop} {t : Tid} {e : Event Tid Op Res}
    {c : Config Tid Op σ L} {es} (h : Opens reset t e c) :
    window reset t ((e, c) :: es) = {c.shared} := by
  ext s; simp [window, h]

omit [DecidableEq Tid] in
theorem window_cons {reset : Op → L → Prop} {t : Tid} {e : Event Tid Op Res}
    {c : Config Tid Op σ L} {es} (h : ¬ Opens reset t e c) :
    window reset t ((e, c) :: es) = insert c.shared (window reset t es) := by
  ext s; simp [window, h, Set.mem_insert_iff]

omit [DecidableEq Tid] in
theorem not_opens_of_ne {reset : Op → L → Prop} {t : Tid} {e : Event Tid Op Res}
    {c : Config Tid Op σ L} (h : e.thread ≠ t) : ¬ Opens reset t e c := by
  rintro (⟨op, rfl⟩ | ⟨rfl, -⟩) <;> exact h rfl

omit [DecidableEq Tid] in
/-- A window that opens more often is shorter. -/
theorem window_subset_since (reset : Op → L → Prop) (t : Tid) (es : Trace Tid Op Res σ L) :
    window reset t es ⊆ since t es := by
  induction es with
  | nil => simp [window]
  | cons p es ih =>
    obtain ⟨e, c⟩ := p
    rintro s (rfl | ⟨hn, hs⟩)
    · exact Or.inl rfl
    · refine Or.inr ⟨?_, ih hs⟩
      rintro (h | ⟨-, -, -, -, h⟩)
      · exact hn (Or.inl h)
      · exact h

namespace Program

variable {P : Program Tid Op Res σ L ι}
  {ok : Trace Tid Op Res σ L → Config Tid Op σ L → Event Tid Op Res → Config Tid Op σ L → Prop}

theorem RunIf.mono {ok' : Trace Tid Op Res σ L → Config Tid Op σ L → Event Tid Op Res →
      Config Tid Op σ L → Prop} (h : ∀ es c e c', ok es c e c' → ok' es c e c')
    {es c} (hr : P.RunIf ok es c) : P.RunIf ok' es c := by
  induction hr with
  | init => exact .init
  | step _ hst hok ih => exact .step ih hst (h _ _ _ _ hok)

theorem RunIf.shared_mem_seen {es c} (hr : P.RunIf ok es c) : c.shared ∈ P.seen es := by
  cases hr with
  | init => exact rfl
  | step => exact Set.mem_insert _ _

/-- The present is in the window of every thread inside a call. -/
theorem RunIf.shared_mem_window {es c} (hr : P.RunIf ok es c) (reset : Op → L → Prop) {t : Tid}
    {f : Op × L} (ht : c.threads t = some f) : c.shared ∈ window reset t es := by
  cases hr with
  | init => simp [initial] at ht
  | step => exact Or.inl rfl

theorem RunIf.window_subset_seen {es c} (hr : P.RunIf ok es c) (reset : Op → L → Prop) (t : Tid) :
    window reset t es ⊆ P.seen es := by
  induction hr with
  | init => simp [window]
  | step _ _ _ ih =>
    rintro s (rfl | ⟨-, hs⟩)
    · exact Set.mem_insert _ _
    · exact Set.mem_insert_of_mem _ (ih hs)

/-- A state that was seen is where a run led to. -/
theorem RunIf.of_mem_seen {es c} (hr : P.RunIf ok es c) {s : σ} (hs : s ∈ P.seen es) :
    ∃ es₁ c₁, P.RunIf ok es₁ c₁ ∧ c₁.shared = s := by
  induction hr with
  | init => exact ⟨[], P.initial, .init, hs.symm⟩
  | step hr hst hok ih =>
    rcases hs with rfl | hs
    · exact ⟨_, _, .step hr hst hok, rfl⟩
    · exact ih hs

/-- What every step keeps holds once it has held. -/
theorem RunIf.kept {Q : σ → Prop}
    (hstep : ∀ {es c t op l i s' l'}, P.RunIf ok es c → c.threads t = some (op, l) →
      P.result l = none → P.step i t c.shared op l = some (s', l') → Q c.shared → Q s')
    {es c} (hr : P.RunIf ok es c) (hQ : ∃ s ∈ P.seen es, Q s) : Q c.shared := by
  induction hr with
  | init =>
    obtain ⟨s, rfl, hs⟩ := hQ
    exact hs
  | @step es c e c' hr hst _ ih =>
    have hc : Q c.shared → Q c'.shared := by
      intro h
      cases hst with
      | call => exact h
      | tau i ht hres hst => exact hstep hr ht hres hst h
      | ret => exact h
    obtain ⟨s, rfl | hs, hQ⟩ := hQ
    · exact hQ
    · exact hc (ih ⟨s, hs, hQ⟩)

/-- A condition of the shared state that only arises while some thread is
responsible for it. -/
theorem RunIf.responsible {Q : σ → Prop} {A : Op → L → Prop} (hinit : ¬ Q P.init)
    (hret : ∀ {op l r}, P.result l = some r → ¬ A op l)
    (hstep : ∀ {es c t op l i s' l'}, P.RunIf ok es c → c.threads t = some (op, l) →
      P.result l = none → P.step i t c.shared op l = some (s', l') →
      ok es c (.tau t) ⟨s', Function.update c.threads t (some (op, l'))⟩ → Q s' →
      A op l' ∨ ¬ A op l ∧ Q c.shared)
    {es c} (hr : P.RunIf ok es c) (hQ : Q c.shared) :
    ∃ t op l, c.threads t = some (op, l) ∧ A op l := by
  induction hr with
  | init => exact absurd hQ hinit
  | @step es c e c' hr hst hok ih =>
    -- a responsible thread that the event does not concern still is
    have hother : ∀ {t x}, (∀ u op l, c.threads u = some (op, l) → A op l → u ≠ t) → Q c.shared →
        ∃ u op l, Function.update c.threads t x u = some (op, l) ∧ A op l := by
      intro t x hne hQ
      obtain ⟨u, op, l, hu, hA⟩ := ih hQ
      exact ⟨u, op, l, by rw [Function.update_of_ne (hne u op l hu hA)]; exact hu, hA⟩
    cases hst with
    | @call t op hidle =>
      refine hother (fun u op l hu _ => ?_) hQ
      rintro rfl
      rw [hidle] at hu
      cases hu
    | @tau t op l s' l' i ht hres hst =>
      rcases hstep hr ht hres hst hok hQ with hA | ⟨hA, hQ⟩
      · exact ⟨t, op, l', by simp, hA⟩
      · refine hother (fun u op₁ l₁ hu hA₁ => ?_) hQ
        rintro rfl
        rw [ht] at hu
        cases hu
        exact hA hA₁
    | @ret t op l r ht hres =>
      refine hother (fun u op₁ l₁ hu hA₁ => ?_) hQ
      rintro rfl
      rw [ht] at hu
      cases hu
      exact hret hres hA₁

end Program

/-! ### The steps of a call that change something -/

section changes

variable {M : Type*}

/-- The last shared state of a run. -/
def Program.last (P : Program Tid Op Res σ L ι) : Trace Tid Op Res σ L → σ
  | [] => P.init
  | (_, c) :: _ => c.shared

theorem Program.RunIf.last_eq {P : Program Tid Op Res σ L ι} {ok es c} (hr : P.RunIf ok es c) :
    P.last es = c.shared := by
  cases hr <;> rfl

theorem Program.RunIf.of_cons {P : Program Tid Op Res σ L ι} {ok p es c} :
    P.RunIf ok (p :: es) c → ∃ c₁, P.RunIf ok es c₁
  | .step hr _ _ => ⟨_, hr⟩

/-- What has happened so far is a run. -/
theorem Program.RunIf.of_append {P : Program Tid Op Res σ L ι} {ok es₂ es₁ c}
    (hr : P.RunIf ok (es₂ ++ es₁) c) : ∃ c₁, P.RunIf ok es₁ c₁ := by
  induction es₂ generalizing c with
  | nil => exact ⟨c, hr⟩
  | cons p es₂ ih =>
    obtain ⟨c₁, hr₁⟩ := hr.of_cons
    exact ih hr₁

open Classical in
/-- How many steps of thread `t` since its last call changed `f`. -/
noncomputable def Program.changes (P : Program Tid Op Res σ L ι) (f : σ → M) (t : Tid) :
    Trace Tid Op Res σ L → ℕ
  | [] => 0
  | (e, c) :: es =>
    if ∃ op, e = .call t op then 0
    else P.changes f t es + if e = .tau t ∧ f c.shared ≠ f (P.last es) then 1 else 0

section

variable {P : Program Tid Op Res σ L ι} {f : σ → M} {t : Tid} {es : Trace Tid Op Res σ L}

theorem Program.changes_call (op : Op) (c : Config Tid Op σ L) :
    P.changes f t ((.call t op, c) :: es) = 0 := by
  simp [changes]

theorem Program.changes_of_ne {e : Event Tid Op Res} (c : Config Tid Op σ L) (he : e.thread ≠ t) :
    P.changes f t ((e, c) :: es) = P.changes f t es := by
  have h1 : ¬ ∃ op, e = .call t op := by rintro ⟨op, rfl⟩; exact he rfl
  have h2 : e ≠ .tau t := by rintro rfl; exact he rfl
  simp [changes, h1, h2]

open Classical in
theorem Program.changes_tau (c : Config Tid Op σ L) :
    P.changes f t ((.tau t, c) :: es) =
      P.changes f t es + if f c.shared = f (P.last es) then 0 else 1 := by
  by_cases h : f c.shared = f (P.last es) <;> simp [changes, h]

end

end changes

/-! ### Proof outlines

The invariant of a program in rely-guarantee form: `glob` speaks of the run
and the shared state, `loc` of one thread, the past and its local state,
`pair` of the local states of two threads. A step of thread `t` keeps `glob`,
establishes `loc` of `t`, and keeps `loc` of every other thread. -/

/-- A window after a step to the shared state `s'` and the local state `l`. -/
def extend (reset : Op → L → Prop) (op : Op) (l : L) (s' : σ) (W : Set σ) : Set σ :=
  {s | s = s' ∨ (¬ reset op l ∧ s ∈ W)}

omit [DecidableEq Tid] in
theorem extend_of_not {reset : Op → L → Prop} {op : Op} {l : L} (h : ¬ reset op l) (s' : σ)
    (W : Set σ) : extend reset op l s' W = insert s' W := by
  ext s; simp [extend, h, Set.mem_insert_iff]

theorem update_eq_some {F : Type*} {f : Tid → Option F} {t u : Tid} {x : Option F} {y : F} :
    Function.update f t x u = some y ↔ (u = t ∧ x = some y) ∨ (u ≠ t ∧ f u = some y) := by
  by_cases h : u = t
  · subst h; simp
  · simp [h]

/-- A relation between any two threads, after one thread changed. -/
theorem pair_update {F : Type*} {R : F → F → Prop} (hs : ∀ {a b}, R a b → R b a)
    {f : Tid → Option F} {t : Tid} {x : Option F}
    (h : ∀ u v a b, u ≠ v → f u = some a → f v = some b → R a b)
    (ht : ∀ a, x = some a → ∀ u b, u ≠ t → f u = some b → R a b) :
    ∀ u v a b, u ≠ v → Function.update f t x u = some a → Function.update f t x v = some b →
      R a b := by
  intro u v a b huv ha hb
  rcases update_eq_some.mp ha with ⟨rfl, ha'⟩ | ⟨hu, ha'⟩ <;>
    rcases update_eq_some.mp hb with ⟨rfl, hb'⟩ | ⟨hv, hb'⟩
  · exact absurd rfl huv
  · exact ht a ha' v b hv hb'
  · exact hs (ht b hb' u a hu ha')
  · exact h u v a b huv ha' hb'

structure Outline (P : Program Tid Op Res σ L ι)
    (ok : Trace Tid Op Res σ L → Config Tid Op σ L → Event Tid Op Res → Config Tid Op σ L → Prop)
    (reset : Op → L → Prop) where
  glob : Trace Tid Op Res σ L → σ → Prop
  loc : Tid → Set σ → Set σ → σ → Op → L → Prop
  pair : Op × L → Op × L → Prop
  pair_symm : ∀ {f g}, pair f g → pair g f
  init : glob [] P.init
  frame : ∀ {es s e th}, glob es s → (∀ t, e ≠ .tau t) →
    glob ((e, (⟨s, th⟩ : Config Tid Op σ L)) :: es) s
  call : ∀ {es s op} (t : Tid), glob es s → s ∈ P.seen es → P.pre op →
    loc t (P.seen es) {s} s op (P.start op)
  call_pair : ∀ {op g}, pair (op, P.start op) g
  tau : ∀ {es c t op l i s' l'}, P.RunIf ok es c → c.threads t = some (op, l) →
    P.result l = none → P.step i t c.shared op l = some (s', l') →
    ok es c (.tau t) ⟨s', Function.update c.threads t (some (op, l'))⟩ →
    glob es c.shared → loc t (P.seen es) (window reset t es) c.shared op l →
    glob ((.tau t, ⟨s', Function.update c.threads t (some (op, l'))⟩) :: es) s' ∧
    loc t (insert s' (P.seen es)) (extend reset op l' s' (window reset t es)) s' op l' ∧
    ∀ u op₁ l₁, u ≠ t → c.threads u = some (op₁, l₁) →
      loc u (P.seen es) (window reset u es) c.shared op₁ l₁ → pair (op, l) (op₁, l₁) →
      loc u (insert s' (P.seen es)) (insert s' (window reset u es)) s' op₁ l₁ ∧
      pair (op, l') (op₁, l₁)

/-- The invariant of a proof outline, at the end of a run. -/
structure Outline.Holds {P : Program Tid Op Res σ L ι} {ok} {reset : Op → L → Prop}
    (O : Outline P ok reset) (es : Trace Tid Op Res σ L) (c : Config Tid Op σ L) : Prop where
  glob : O.glob es c.shared
  loc : ∀ t op l, c.threads t = some (op, l) →
    O.loc t (P.seen es) (window reset t es) c.shared op l
  pair : ∀ t u f g, t ≠ u → c.threads t = some f → c.threads u = some g → O.pair f g

section

variable {P : Program Tid Op Res σ L ι}
  {ok : Trace Tid Op Res σ L → Config Tid Op σ L → Event Tid Op Res → Config Tid Op σ L → Prop}
  {reset : Op → L → Prop} (O : Outline P ok reset)

include O

/-- A thread that the event does not concern keeps its assertion when the
shared state stays as it is. -/
theorem Outline.loc_frame {es c e th} (hr : P.RunIf ok es c) {u : Tid} {op : Op} {l : L}
    (hu : c.threads u = some (op, l)) (he : e.thread ≠ u)
    (h : O.loc u (P.seen es) (window reset u es) c.shared op l) :
    O.loc u (P.seen ((e, (⟨c.shared, th⟩ : Config Tid Op σ L)) :: es))
      (window reset u ((e, (⟨c.shared, th⟩ : Config Tid Op σ L)) :: es)) c.shared op l := by
  rw [window_cons (not_opens_of_ne he), Program.seen]
  rw [Set.insert_eq_of_mem hr.shared_mem_seen, Set.insert_eq_of_mem (hr.shared_mem_window reset hu)]
  exact h

/-- **The invariant of a proof outline holds in every run.** -/
theorem Outline.holds {es c} (hr : P.RunIf ok es c) : O.Holds es c := by
  induction hr with
  | init =>
    exact ⟨O.init, fun t op l h => by simp [Program.initial] at h,
      fun t u f g _ h => by simp [Program.initial] at h⟩
  | @step es c e c' hr hst hok ih =>
    cases hst with
    | @call t op hidle hpre =>
      refine ⟨O.frame ih.glob (fun t h => by cases h), fun u op₁ l₁ hu => ?_,
        pair_update O.pair_symm ih.pair fun f hf u g _ _ => ?_⟩
      · rcases update_eq_some.mp hu with ⟨rfl, h⟩ | ⟨htu, hu⟩
        · cases h
          rw [window_cons_of_opens (Or.inl ⟨_, rfl⟩), Program.seen,
            Set.insert_eq_of_mem hr.shared_mem_seen]
          exact O.call u ih.glob hr.shared_mem_seen hpre
        · exact O.loc_frame hr hu (Ne.symm htu) (ih.loc u op₁ l₁ hu)
      · cases hf
        exact O.call_pair
    | @tau t op l s' l' i ht hres hstep =>
      obtain ⟨h1, h2, h3⟩ := O.tau hr ht hres hstep hok ih.glob (ih.loc t op l ht)
      refine ⟨h1, fun u op₁ l₁ hu => ?_, pair_update O.pair_symm ih.pair fun f hf u g htu hu => ?_⟩
      · rcases update_eq_some.mp hu with ⟨rfl, h⟩ | ⟨htu, hu⟩
        · cases h
          have hw : window reset u ((.tau u, ⟨s', Function.update c.threads u (some (op, l'))⟩) :: es)
              = extend reset op l' s' (window reset u es) := by
            ext s
            simp [window, extend, Opens]
          rw [hw]
          exact h2
        · rw [window_cons (not_opens_of_ne (Ne.symm htu))]
          exact (h3 u op₁ l₁ htu hu (ih.loc u op₁ l₁ hu) (ih.pair t u _ _ (Ne.symm htu) ht hu)).1
      · cases hf
        exact (h3 u g.1 g.2 htu hu (ih.loc u _ _ hu) (ih.pair t u _ _ (Ne.symm htu) ht hu)).2
    | @ret t op l r ht hres =>
      refine ⟨O.frame ih.glob (fun t h => by cases h), fun u op₁ l₁ hu => ?_,
        pair_update O.pair_symm ih.pair fun f hf => by cases hf⟩
      rcases update_eq_some.mp hu with ⟨rfl, h⟩ | ⟨htu, hu⟩
      · cases h
      · exact O.loc_frame hr hu (Ne.symm htu) (ih.loc u op₁ l₁ hu)

end

/-! ### Runs on a schedule -/

/-- What a scheduler may ask for. -/
inductive Move (Tid Op ι : Type*) where
  | call (t : Tid) (op : Op)
  | tau (t : Tid) (i : ι)
  | ret (t : Tid)
  deriving DecidableEq

namespace Program

variable (P : Program Tid Op Res σ L ι)

/-- One move, if it can be made. -/
def move (c : Config Tid Op σ L) : Move Tid Op ι → Option (Event Tid Op Res × Config Tid Op σ L)
  | .call t op =>
    match c.threads t with
    | none => some (.call t op, ⟨c.shared, Function.update c.threads t (some (op, P.start op))⟩)
    | some _ => none
  | .tau t i =>
    match c.threads t with
    | none => none
    | some (op, l) =>
      match P.result l with
      | none => (P.step i t c.shared op l).map fun q =>
          (.tau t, ⟨q.1, Function.update c.threads t (some (op, q.2))⟩)
      | some _ => none
  | .ret t =>
    match c.threads t with
    | none => none
    | some (op, l) => (P.result l).map fun r =>
        (.ret t op r, ⟨c.shared, Function.update c.threads t none⟩)

/-- The run that makes the moves in order after the run `q`. -/
def play (q : Trace Tid Op Res σ L × Config Tid Op σ L) :
    List (Move Tid Op ι) → Option (Trace Tid Op Res σ L × Config Tid Op σ L)
  | [] => some q
  | m :: ms => (P.move q.2 m).bind fun x => play (x :: q.1, x.2) ms

theorem move_step {c c' : Config Tid Op σ L} {m : Move Tid Op ι} {e : Event Tid Op Res}
    (hm : ∀ t op, m = .call t op → P.pre op) (h : P.move c m = some (e, c')) : P.Step c e c' := by
  cases m with
  | call t op =>
    rcases ht : c.threads t with _ | f
    · simp only [move, ht, Option.some.injEq, Prod.mk.injEq] at h
      obtain ⟨rfl, rfl⟩ := h
      exact .call ht (hm t op rfl)
    · simp only [move, ht] at h
      cases h
  | tau t i =>
    rcases ht : c.threads t with _ | ⟨op, l⟩
    · simp only [move, ht] at h
      cases h
    · rcases hr : P.result l with _ | r
      · simp only [move, ht, hr, Option.map_eq_some_iff, Prod.mk.injEq] at h
        obtain ⟨⟨s', l'⟩, hs, rfl, rfl⟩ := h
        exact .tau i ht hr hs
      · simp only [move, ht, hr] at h
        cases h
  | ret t =>
    rcases ht : c.threads t with _ | ⟨op, l⟩
    · simp only [move, ht] at h
      cases h
    · simp only [move, ht, Option.map_eq_some_iff, Prod.mk.injEq] at h
      obtain ⟨r, hr, rfl, rfl⟩ := h
      exact .ret ht hr

/-- **What a schedule plays is a run.** -/
theorem play_run {q q' : Trace Tid Op Res σ L × Config Tid Op σ L} {ms : List (Move Tid Op ι)}
    (hq : P.Run q.1 q.2) (hm : ∀ t op, .call t op ∈ ms → P.pre op) (h : P.play q ms = some q') :
    P.Run q'.1 q'.2 := by
  induction ms generalizing q with
  | nil =>
    cases h
    exact hq
  | cons m ms ih =>
    obtain ⟨⟨e, c'⟩, hx, h⟩ := Option.bind_eq_some_iff.mp h
    have hst : P.Step q.2 e c' := P.move_step (fun t op he => hm t op (by simp [he])) hx
    exact ih (.step hq hst trivial) (fun t op ho => hm t op (List.mem_cons_of_mem _ ho)) h

end Program

/-! The numbers of threads and keys in the schedules that are played. -/

instance neZero_one : @NeZero ℕ Zero.ofOfNat0 1 := ⟨Nat.one_ne_zero⟩

instance neZero_two : @NeZero ℕ Zero.ofOfNat0 2 := ⟨by decide⟩

instance neZero_ten : @NeZero ℕ Zero.ofOfNat0 10 := ⟨by decide⟩

instance neZero_twelve : @NeZero ℕ Zero.ofOfNat0 12 := ⟨by decide⟩

end Concur
