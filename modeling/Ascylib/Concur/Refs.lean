/-
# References that are older than a free

A memory with deferred reclamation may reuse a freed node once every thread
has made a `free` of its own, so the references a call obtained before one of
its frees are worth nothing after it. `RefFlow` says of a program's local
states which variables the next access goes through and where the value of a
variable comes from; `RefFlow.old` reads off a run which variables of a thread
hold a reference from before its last free.

Key definitions: `RefFlow`, `RefFlow.old`, `RefFlow.Kept`, `Discipline`.
Key theorems: `Discipline.kept`, `RefFlow.not_kept`.
-/
import Ascylib.Concur.Run

namespace Concur

variable {Tid Op Res σ L ι X α : Type*} [DecidableEq Tid]

/-- The last configuration of a run. -/
def Program.config (P : Program Tid Op Res σ L ι) : Trace Tid Op Res σ L → Config Tid Op σ L
  | [] => P.initial
  | (_, c) :: _ => c

theorem Program.RunIf.config_eq {P : Program Tid Op Res σ L ι} {ok es c}
    (hr : P.RunIf ok es c) : P.config es = c := by
  cases hr <;> rfl

/-- Every step of a thread meets `guard` in the state before it. -/
def Guarded (guard : σ → Op → L → Prop) (_ : Trace Tid Op Res σ L) (c : Config Tid Op σ L)
    (e : Event Tid Op Res) (_ : Config Tid Op σ L) : Prop :=
  ∀ t op l, e = .tau t → c.threads t = some (op, l) → guard c.shared op l

/-- The references to nodes `α` in the local variables `X` of a call. -/
structure RefFlow (L X α : Type*) where
  /-- The variables through which the next step reads or writes a node, and the node. -/
  derefs : L → List (X × α)
  /-- The next step frees a node. -/
  frees : L → Bool
  /-- The variable whose value a variable has after a step; `none` where the
  step itself obtained the value. -/
  source : L → L → X → Option X

namespace RefFlow

variable (F : RefFlow L X α)

/-- Which variables are old after a step, from those that were before it. -/
def after (l l' : L) (o : X → Bool) (x : X) : Bool :=
  match F.source l l' x with
  | none => false
  | some y => F.frees l || o y

/-- The variables of thread `t` whose reference its call obtained before its
last free. -/
def old (P : Program Tid Op Res σ L ι) (t : Tid) : Trace Tid Op Res σ L → X → Bool
  | [] => fun _ => false
  | (.call u _, _) :: es => if u = t then fun _ => false else old P t es
  | (.tau u, c) :: es =>
    if u = t then
      match (P.config es).threads t, c.threads t with
      | some (_, l), some (_, l') => F.after l l' (old P t es)
      | _, _ => fun _ => false
    else old P t es
  | (.ret _ _ _, _) :: es => old P t es

/-- In the runs that meet `ok`, no step goes through an old reference, unless
to a node that is `safe` anyway. -/
def Kept (P : Program Tid Op Res σ L ι)
    (ok : Trace Tid Op Res σ L → Config Tid Op σ L → Event Tid Op Res → Config Tid Op σ L → Prop)
    (safe : α → Prop) : Prop :=
  ∀ es c t op l c', P.RunIf ok es c → c.threads t = some (op, l) → P.Step c (.tau t) c' →
    ok es c (.tau t) c' → ∀ d ∈ F.derefs l, F.old P t es d.1 = true → safe d.2

section

variable {F} {P : Program Tid Op Res σ L ι} {t u : Tid} {es : Trace Tid Op Res σ L}
  {e : Event Tid Op Res} {c : Config Tid Op σ L}

theorem old_of_ne (h : e.thread ≠ u) : F.old P u ((e, c) :: es) = F.old P u es := by
  cases e with
  | call t op => exact if_neg h
  | tau t => exact if_neg h
  | ret => rfl

theorem old_call (op : Op) : F.old P t ((.call t op, c) :: es) = fun _ => false := if_pos rfl

theorem old_tau {op op' : Op} {l l' : L} (hl : (P.config es).threads t = some (op, l))
    (hl' : c.threads t = some (op', l')) :
    F.old P t ((.tau t, c) :: es) = F.after l l' (F.old P t es) := by
  simp only [old, if_true, hl, hl']

end

end RefFlow

/-! ### Keeping the discipline -/

/-- An invariant of the shared state, and one of a local state and its old
variables, that every guarded step keeps. -/
structure Discipline (F : RefFlow L X α) (P : Program Tid Op Res σ L ι) (guard : σ → Op → L → Prop)
    (safe : α → Prop) where
  glob : σ → Prop
  loc : Op → L → (X → Bool) → Prop
  init : glob P.init
  start : ∀ {op}, P.pre op → loc op (P.start op) fun _ => false
  step : ∀ {i t s op l s' l' o}, glob s → loc op l o → P.result l = none →
    P.step i t s op l = some (s', l') → guard s op l → glob s' ∧ loc op l' (F.after l l' o)
  derefs : ∀ {op l o}, loc op l o → ∀ d ∈ F.derefs l, o d.1 = true → safe d.2

namespace Discipline

variable {F : RefFlow L X α} {P : Program Tid Op Res σ L ι} {guard : σ → Op → L → Prop}
  {safe : α → Prop}

theorem holds (D : Discipline F P guard safe) {es c} (hr : P.RunIf (Guarded guard) es c) :
    D.glob c.shared ∧ ∀ t op l, c.threads t = some (op, l) → D.loc op l (F.old P t es) := by
  induction hr with
  | init => exact ⟨D.init, fun t op l h => by cases h⟩
  | @step es c e c' hr hst hok ih =>
    obtain ⟨hg, hl⟩ := ih
    cases hst with
    | @call t op hidle hpre =>
      refine ⟨hg, fun u op₁ l₁ hu => ?_⟩
      rcases update_eq_some.mp hu with ⟨rfl, h⟩ | ⟨htu, hu⟩
      · cases h
        rw [RefFlow.old_call]
        exact D.start hpre
      · rw [RefFlow.old_of_ne (Ne.symm htu)]
        exact hl u op₁ l₁ hu
    | @tau t op l s' l' i ht hres hstep =>
      obtain ⟨hg', hl'⟩ := D.step hg (hl t op l ht) hres hstep (hok t op l rfl ht)
      refine ⟨hg', fun u op₁ l₁ hu => ?_⟩
      rcases update_eq_some.mp hu with ⟨rfl, h⟩ | ⟨htu, hu'⟩
      · rw [RefFlow.old_tau (by rw [hr.config_eq]; exact ht) hu]
        cases h
        exact hl'
      · rw [RefFlow.old_of_ne (Ne.symm htu)]
        exact hl u op₁ l₁ hu'
    | @ret t op l r ht hres =>
      refine ⟨hg, fun u op₁ l₁ hu => ?_⟩
      rcases update_eq_some.mp hu with ⟨rfl, h⟩ | ⟨htu, hu⟩
      · cases h
      · exact hl u op₁ l₁ hu

/-- **A discipline keeps every access away from old references.** -/
theorem kept (D : Discipline F P guard safe) : F.Kept P (Guarded guard) safe := by
  intro es c t op l c' hr ht _ _ d hd ho
  exact D.derefs ((D.holds hr).2 t op l ht) d hd ho

end Discipline

/-! ### Breaking it -/

/-- Thread `t` stands before a step through an old reference to a node that is not safe. -/
def RefFlow.broken (F : RefFlow L X α) (P : Program Tid Op Res σ L ι) (safe : α → Prop)
    [DecidablePred safe] (t : Tid) (q : Trace Tid Op Res σ L × Config Tid Op σ L) : Bool :=
  match q.2.threads t with
  | some (_, l) => (F.derefs l).any fun d => F.old P t q.1 d.1 && !decide (safe d.2)
  | none => false

/-- A schedule that leads to a step through an old reference. -/
theorem RefFlow.not_kept {F : RefFlow L X α} {P : Program Tid Op Res σ L ι} {safe : α → Prop}
    [DecidablePred safe] (ms : List (Move Tid Op ι)) {t : Tid} {i : ι} (hpre : ∀ op, P.pre op)
    (h : ((P.play ([], P.initial) ms).any fun q =>
      F.broken P safe t q && (P.move q.2 (.tau t i)).isSome) = true) :
    ¬ F.Kept P (fun _ _ _ _ => True) safe := by
  intro hk
  rw [Option.any_eq_true] at h
  obtain ⟨⟨es, c⟩, hplay, hq⟩ := h
  obtain ⟨hb, hm⟩ := (Bool.and_eq_true _ _).mp hq
  obtain ⟨⟨e, c'⟩, hm⟩ := Option.isSome_iff_exists.mp hm
  have hr : P.Run es c := P.play_run .init (fun t op _ => hpre op) hplay
  have hst : P.Step c e c' := P.move_step (fun _ _ h => by cases h) hm
  unfold broken at hb
  rcases ht : c.threads t with _ | ⟨op, l⟩
  · simp [ht] at hb
  · simp only [ht, List.any_eq_true, Bool.and_eq_true, Bool.not_eq_true', decide_eq_false_iff_not]
      at hb
    obtain ⟨d, hd, ho, hn⟩ := hb
    have he : e = .tau t := by
      simp only [Program.move, ht] at hm
      rcases hres : P.result l with _ | r
      · simp only [hres, Option.map_eq_some_iff, Prod.mk.injEq] at hm
        obtain ⟨-, -, h, -⟩ := hm
        exact h.symm
      · simp [hres] at hm
    subst he
    exact hn (hk es c t op l c' hr ht hst trivial d hd ho)

end Concur
