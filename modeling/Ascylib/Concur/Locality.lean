/-
# Objects side by side

Programs, one for each place, over memories of their own: a call goes to the
place that `route` names, and stays there. What happens at one place is a run of
the program there (`part_run`), and so linearizability is local: if each program
is linearizable, all of them are, side by side (`linearizable_sides`), to any
object that the objects side by side stand for (`LinearizableIf.map`). The
programs may have ghost state of their own (`LinearizableIf.erase_sides`).

Key definitions: `Program.sides`, `Object.sides`, `part`, `sidesIf`.
Key theorems: `part_run`, `linearizable_sides`, `LinearizableIf.map`,
`LinearizableIf.erase_sides`.
-/
import Ascylib.Concur.Ghost
import Mathlib.Algebra.BigOperators.Group.Finset.Piecewise

set_option linter.unusedSectionVars false

namespace Concur

variable {Tid Op Res σ L ι M N β : Type*}

section

variable [DecidableEq β]

/-- The programs side by side: the local state names the place. -/
def Program.sides (P : β → Program Tid Op Res σ L ι) (route : Op → β) :
    Program Tid Op Res (β → σ) (β × L) ι where
  init b := (P b).init
  pre op := (P (route op)).pre op
  start op := (route op, (P (route op)).start op)
  step i t s op l := ((P l.1).step i t (s l.1) op l.2).map fun q =>
    (Function.update s l.1 q.1, (l.1, q.2))
  result l := (P l.1).result l.2

/-- The objects side by side. -/
def Object.sides (O : β → Object Op Res M) (route : Op → β) : Object Op Res (β → M) where
  init b := (O b).init
  apply op m :=
    (Function.update m (route op) ((O (route op)).apply op (m (route op))).1,
      ((O (route op)).apply op (m (route op))).2)

/-- What a configuration is at the place `b`. -/
def Config.part (c : Config Tid Op (β → σ) (β × L)) (b : β) : Config Tid Op σ L :=
  ⟨c.shared b, fun t => (c.threads t).bind fun f => if f.2.1 = b then some (f.1, f.2.2) else none⟩

/-- The event happens at the place `b`. -/
def Here (route : Op → β) (b : β) : Event Tid Op Res → Config Tid Op (β → σ) (β × L) → Prop
  | .call _ op, _ => route op = b
  | .tau t, c => ∃ f, c.threads t = some f ∧ f.2.1 = b
  | .ret _ op _, _ => route op = b

open Classical in
/-- What happens at the place `b`. -/
noncomputable def part (route : Op → β) (b : β) :
    Trace Tid Op Res (β → σ) (β × L) → Trace Tid Op Res σ L
  | [] => []
  | (e, c) :: es => if Here route b e c then (e, c.part b) :: part route b es else part route b es

/-- A step that meets `ok` at the place where it happens. -/
def sidesIf (route : Op → β) (ok : β → Trace Tid Op Res σ L → Config Tid Op σ L →
      Event Tid Op Res → Config Tid Op σ L → Prop)
    (es : Trace Tid Op Res (β → σ) (β × L)) (c : Config Tid Op (β → σ) (β × L))
    (e : Event Tid Op Res) (c' : Config Tid Op (β → σ) (β × L)) : Prop :=
  ∀ b, Here route b e c' → ok b (part route b es) (c.part b) e (c'.part b)

section

variable {P : β → Program Tid Op Res σ L ι} {route : Op → β}
  {ok : β → Trace Tid Op Res σ L → Config Tid Op σ L → Event Tid Op Res → Config Tid Op σ L → Prop}
  {es : Trace Tid Op Res (β → σ) (β × L)} {c c' : Config Tid Op (β → σ) (β × L)}
  {e : Event Tid Op Res} {b : β} {t : Tid} {op : Op} {l : L}

@[simp] theorem shared_part (c : Config Tid Op (β → σ) (β × L)) (b : β) :
    (c.part b).shared = c.shared b := rfl

theorem part_cons_of_here (h : Here route b e c) :
    part route b ((e, c) :: es) = (e, c.part b) :: part route b es := if_pos h

theorem part_cons_of_not (h : ¬ Here route b e c) :
    part route b ((e, c) :: es) = part route b es := if_neg h

theorem threads_part_of_none (h : c.threads t = none) (b : β) : (c.part b).threads t = none := by
  simp [Config.part, h]

theorem threads_part_self (h : c.threads t = some (op, (b, l))) :
    (c.part b).threads t = some (op, l) := by
  simp [Config.part, h]

variable [DecidableEq Tid] {x : Option (Op × (β × L))} {s : β → σ}

/-- The part of a configuration in which one thread is somewhere else. -/
theorem part_update (c : Config Tid Op (β → σ) (β × L)) (s : β → σ) (t : Tid)
    (x : Option (Op × (β × L))) (b : β) :
    (⟨s, Function.update c.threads t x⟩ : Config Tid Op (β → σ) (β × L)).part b =
      ⟨s b, Function.update (c.part b).threads t
        (x.bind fun f => if f.2.1 = b then some (f.1, f.2.2) else none)⟩ := by
  simp only [Config.part, Config.mk.injEq, true_and]
  funext u
  by_cases hu : u = t
  · subst hu; simp
  · simp [hu]

/-- A call is at the place that its operation names. -/
theorem place_of_run {ok' : Trace Tid Op Res (β → σ) (β × L) → Config Tid Op (β → σ) (β × L) →
      Event Tid Op Res → Config Tid Op (β → σ) (β × L) → Prop}
    (hr : (Program.sides P route).RunIf ok' es c) (ht : c.threads t = some (op, (b, l))) :
    b = route op := by
  induction hr generalizing t op b l with
  | init => cases ht
  | step _ hst _ ih =>
    cases hst with
    | call hidle _ =>
      rcases update_eq_some.mp ht with ⟨-, h⟩ | ⟨-, h⟩
      · cases h; rfl
      · exact ih h
    | @tau u op₁ l₁ s' l' i hu _ hs =>
      rcases update_eq_some.mp ht with ⟨-, h⟩ | ⟨-, h⟩
      · cases h
        obtain ⟨q, -, hq⟩ := Option.map_eq_some_iff.mp hs
        obtain ⟨b₁, l₁⟩ := l₁
        obtain rfl : b₁ = b := congrArg (fun q => q.2.1) hq
        exact ih hu
      · exact ih h
    | ret _ _ =>
      rcases update_eq_some.mp ht with ⟨-, h⟩ | ⟨-, h⟩
      · cases h
      · exact ih h

/-- A step is one at a single place. -/
theorem step_part (hplace : ∀ t op b l, c.threads t = some (op, (b, l)) → b = route op)
    (hst : (Program.sides P route).Step c e c') : ∃ b, Here route b e c' ∧
      (∀ b', Here route b' e c' → b' = b) ∧ (P b).Step (c.part b) e (c'.part b) ∧
      ∀ b', b' ≠ b → c'.part b' = c.part b' := by
  cases hst with
  | @call t op hidle hpre =>
    refine ⟨route op, rfl, fun b' h => h.symm, ?_, fun b' hb => ?_⟩
    · rw [part_update]
      simpa [Program.sides] using
        Program.Step.call (P := P (route op)) (threads_part_of_none hidle (route op)) hpre
    · rw [part_update]
      have hn := threads_part_of_none hidle b'
      simp only [Program.sides, Option.bind_some, if_neg (Ne.symm hb), ← hn,
        Function.update_eq_self]
      rfl
  | @tau t op l s' l' i ht hres hs =>
    obtain ⟨b, l⟩ := l
    obtain ⟨⟨s₁, l₁⟩, hstep, hq⟩ := Option.map_eq_some_iff.mp hs
    obtain ⟨rfl, rfl⟩ := Prod.mk.inj hq
    have hstep : (P b).step i t (c.part b).shared op l = some (s₁, l₁) := hstep
    refine ⟨b, ⟨(op, (b, l₁)), Function.update_self .., rfl⟩, ?_, ?_, fun b' hb => ?_⟩
    · rintro b' ⟨f, hf, rfl⟩
      have hf : Function.update c.threads t (some (op, (b, l₁))) t = some f := hf
      rw [Function.update_self, Option.some.injEq] at hf
      rw [← hf]
    · rw [part_update]
      simpa using Program.Step.tau (P := P b) i (threads_part_self ht) hres hstep
    · rw [part_update]
      have hn : (c.part b').threads t = none := by simp [Config.part, ht, Ne.symm hb]
      simp only [Option.bind_some, if_neg (Ne.symm hb), ← hn, Function.update_eq_self,
        Function.update_of_ne hb]
      rfl
  | @ret t op l r ht hres =>
    obtain ⟨b, l⟩ := l
    obtain rfl := hplace t op b l ht
    refine ⟨route op, rfl, fun b' h => h.symm, ?_, fun b' hb => ?_⟩
    · rw [part_update]
      simpa using Program.Step.ret (P := P (route op)) (threads_part_self ht) hres
    · rw [part_update]
      have hn : (c.part b').threads t = none := by simp [Config.part, ht, Ne.symm hb]
      simp only [Option.bind_none, ← hn, Function.update_eq_self]
      rfl

/-- **What happens at one place is a run of the program there.** -/
theorem part_run (hr : (Program.sides P route).RunIf (sidesIf route ok) es c) (b : β) :
    (P b).RunIf (ok b) (part route b es) (c.part b) := by
  induction hr with
  | init =>
    have hinit : (Program.sides P route).initial.part b = (P b).initial := rfl
    rw [hinit]
    exact .init
  | @step es c e c' hr hst hok ih =>
    obtain ⟨b₁, hhere, honly, hstep, hrest⟩ :=
      step_part (fun _ _ _ _ => place_of_run hr) hst
    by_cases hb : b = b₁
    · subst hb
      rw [part_cons_of_here hhere]
      exact .step ih hstep (hok b hhere)
    · rw [part_cons_of_not fun h => hb (honly b h), hrest b hb]
      exact ih

/-- Every event happens at one place. -/
theorem sum_countP_part [Fintype β] (f : Event Tid Op Res → Bool) {ok' : Trace Tid Op Res (β → σ)
      (β × L) → Config Tid Op (β → σ) (β × L) → Event Tid Op Res →
      Config Tid Op (β → σ) (β × L) → Prop} (hr : (Program.sides P route).RunIf ok' es c) :
    ∑ b, (part route b es).countP (fun p => f p.1) = es.countP fun p => f p.1 := by
  induction hr with
  | init => simp [part]
  | @step es c e c' hr hst _ ih =>
    obtain ⟨b₁, hhere, honly, -, -⟩ := step_part (fun _ _ _ _ => place_of_run hr) hst
    have hat : ∀ b, (part route b ((e, c') :: es)).countP (fun p => f p.1) =
        (part route b es).countP (fun p => f p.1) +
          if b = b₁ then (if f e then 1 else 0) else 0 := by
      intro b
      by_cases hb : b = b₁
      · subst hb
        rw [part_cons_of_here hhere, List.countP_cons, if_pos rfl]
      · rw [part_cons_of_not fun h => hb (honly b h), if_neg hb, Nat.add_zero]
    rw [Finset.sum_congr rfl fun b _ => hat b, Finset.sum_add_distrib, ih,
      Finset.sum_ite_eq' Finset.univ b₁, if_pos (Finset.mem_univ b₁), List.countP_cons]

end

/-! ### Atomic objects side by side -/

namespace Atomic

open Classical in
/-- The status of a thread that is busy at one place at most. -/
noncomputable def join (f : β → Status Op Res) : Status Op Res :=
  if h : ∃ b, f b ≠ .idle then f h.choose else .idle

omit [DecidableEq β] in
theorem join_eq {f : β → Status Op Res} {b : β} (h : ∀ b', b' ≠ b → f b' = .idle) :
    join f = f b := by
  by_cases hf : ∃ b', f b' ≠ .idle
  · rw [join, dif_pos hf]
    by_cases hb : hf.choose = b
    · rw [hb]
    · exact absurd (h _ hb) hf.choose_spec
  · rw [join, dif_neg hf]
    by_contra hb
    exact hf ⟨b, fun he => hb he.symm⟩

/-- The atomic objects as one. -/
noncomputable def merge (a : β → Atomic Tid Op Res M) : Atomic Tid Op Res (β → M) :=
  ⟨fun b => (a b).state, fun t => join fun b => (a b).status t⟩

/-- Each thread is busy at one place at most, with an operation of that place. -/
structure Apart (route : Op → β) (a : β → Atomic Tid Op Res M) : Prop where
  one : ∀ t b b', (a b).status t ≠ .idle → (a b').status t ≠ .idle → b = b'
  pending : ∀ t b op, (a b).status t = .pending op → route op = b

variable [DecidableEq Tid] {O : β → Object Op Res M} {route : Op → β}
  {a : β → Atomic Tid Op Res M} {b : β} {x y : Atomic Tid Op Res M} {e : Event Tid Op Res} {t : Tid}

/-- A thread that is busy at `b` has its status there. -/
theorem Apart.status_merge (h : Apart route a) (ht : (a b).status t ≠ .idle) :
    (merge a).status t = (a b).status t :=
  join_eq fun b' hb => by
    by_contra hn
    exact hb (h.one t b' b hn ht)

/-- The object at `b` changes for a thread that is nowhere else. -/
theorem merge_update {m : M} {f : Status Op Res}
    (hother : ∀ b', b' ≠ b → (a b').status t = .idle) :
    merge (Function.update a b ⟨m, Function.update (a b).status t f⟩) =
      ⟨Function.update (merge a).state b m, Function.update (merge a).status t f⟩ := by
  have hat : ∀ b' u, (Function.update a b ⟨m, Function.update (a b).status t f⟩ b').status u =
      if b' = b ∧ u = t then f else (a b').status u := by
    intro b' u
    by_cases hb : b' = b
    · subst hb
      by_cases hu : u = t
      · subst hu; simp
      · simp [hu]
    · simp [hb]
  simp only [merge, mk.injEq, hat]
  constructor
  · funext b'
    by_cases hb : b' = b
    · subst hb; simp
    · simp [hb]
  · funext u
    by_cases hu : u = t
    · subst hu
      rw [Function.update_self, join_eq (b := b)]
      · simp
      · intro b' hb
        simpa [hb] using hother b' hb
    · simp [hu]

/-- A thread goes on at the place where it is. -/
theorem Apart.update {m : M} {f : Status Op Res} (h : Apart route a)
    (hother : ∀ b', b' ≠ b → (a b').status t = .idle)
    (hf : ∀ op, f = .pending op → route op = b) :
    Apart route (Function.update a b ⟨m, Function.update (a b).status t f⟩) := by
  have hne : ∀ b' u, u ≠ t →
      (Function.update a b ⟨m, Function.update (a b).status t f⟩ b').status u =
        (a b').status u := by
    intro b' u hu
    by_cases hb : b' = b
    · subst hb; simp [hu]
    · simp [hb]
  have hoff : ∀ b', b' ≠ b →
      (Function.update a b ⟨m, Function.update (a b).status t f⟩ b').status t = .idle := by
    intro b' hb
    simpa [hb] using hother b' hb
  refine ⟨fun u b₁ b₂ h1 h2 => ?_, fun u b' op hu => ?_⟩
  · by_cases hu : u = t
    · subst hu
      have h1 : b₁ = b := by_contra fun hb => h1 (hoff b₁ hb)
      have h2 : b₂ = b := by_contra fun hb => h2 (hoff b₂ hb)
      rw [h1, h2]
    · rw [hne _ u hu] at h1 h2
      exact h.one u b₁ b₂ h1 h2
  · by_cases hut : u = t
    · subst hut
      by_cases hb : b' = b
      · subst hb
        exact hf op (by simpa using hu)
      · rw [hoff b' hb] at hu
        cases hu
    · rw [hne _ u hut] at hu
      exact h.pending u b' op hu

/-- An operation that takes effect at one place takes effect. -/
theorem Lin.merge (h : Apart route a) (hl : Lin (O b) (a b) x) :
    Lin (Object.sides O route) (merge a) (merge (Function.update a b x)) ∧
      Apart route (Function.update a b x) := by
  obtain ⟨ht⟩ := hl
  rename_i t op
  have hbusy : (a b).status t ≠ .idle := by rw [ht]; nofun
  have hother : ∀ b', b' ≠ b → (a b').status t = .idle := fun b' hb => by
    by_contra hn
    exact hb (h.one t b' b hn hbusy)
  obtain rfl := h.pending t b op ht
  refine ⟨?_, h.update hother nofun⟩
  rw [merge_update hother]
  exact .lin (O := Object.sides O route) ((h.status_merge hbusy).trans ht)

theorem lins_merge (h : Apart route a) (hl : Relation.ReflTransGen (Lin (O b)) (a b) x) :
    Relation.ReflTransGen (Lin (Object.sides O route)) (merge a) (merge (Function.update a b x)) ∧
      Apart route (Function.update a b x) := by
  induction hl with
  | refl =>
    rw [Function.update_eq_self]
    exact ⟨.refl, h⟩
  | @tail x y _ hl ih =>
    have hl : Lin (O b) (Function.update a b x b) y := by simpa using hl
    obtain ⟨h1, h2⟩ := hl.merge ih.2
    rw [Function.update_idem] at h1 h2
    exact ⟨ih.1.tail h1, h2⟩

theorem Visible.merge (h : Apart route a) (hv : Visible (a b) e x)
    (hcall : ∀ t op, e = .call t op → route op = b ∧ ∀ b', (a b').status t = .idle) :
    Visible (merge a) e (merge (Function.update a b x)) ∧ Apart route (Function.update a b x) := by
  cases hv with
  | @call t op ht =>
    obtain ⟨hroute, hidle⟩ := hcall t op rfl
    refine ⟨?_, h.update (fun b' _ => hidle b') fun op' he => ?_⟩
    · rw [Atomic.set, merge_update fun b' _ => hidle b']
      have hm : (Atomic.merge a).status t = .idle := (join_eq fun b' _ => hidle b').trans (hidle b)
      have hs : Function.update (Atomic.merge a).state b (a b).state = (Atomic.merge a).state :=
        Function.update_eq_self ..
      rw [hs]
      exact .call hm
    · cases he
      exact hroute
  | tau =>
    rw [Function.update_eq_self]
    exact ⟨.tau, h⟩
  | @ret t op r ht =>
    have hbusy : (a b).status t ≠ .idle := fun h => by cases ht.symm.trans h
    have hother : ∀ b', b' ≠ b → (a b').status t = .idle := fun b' hb => by
      by_contra hn
      exact hb (h.one t b' b hn hbusy)
    refine ⟨?_, h.update hother fun _ h => by cases h⟩
    rw [Atomic.set, merge_update hother]
    have hs : Function.update (Atomic.merge a).state b (a b).state = (Atomic.merge a).state :=
      Function.update_eq_self ..
    rw [hs]
    exact .ret ((h.status_merge hbusy).trans ht)

/-- An event at one place is one of all objects. -/
theorem Step.merge (h : Apart route a) (hst : Step (O b) (a b) e x)
    (hcall : ∀ t op, e = .call t op → route op = b ∧ ∀ b', (a b').status t = .idle) :
    Step (Object.sides O route) (merge a) e (merge (Function.update a b x)) ∧
      Apart route (Function.update a b x) := by
  obtain ⟨a₁, b₁, h1, h2, h3⟩ := hst
  obtain ⟨hl, hap⟩ := lins_merge h h1
  have h2 : Visible (Function.update a b a₁ b) e b₁ := by simpa using h2
  obtain ⟨hv, hap⟩ := h2.merge hap fun t op he => by
    obtain ⟨hroute, hidle⟩ := hcall t op he
    refine ⟨hroute, fun b' => ?_⟩
    by_cases hb : b' = b
    · subst hb
      simpa using (lins_idle h1 t).mpr (hidle b')
    · simpa [hb] using hidle b'
  rw [Function.update_idem] at hv hap
  have h3 : Relation.ReflTransGen (Lin (O b)) (Function.update a b b₁ b) x := by simpa using h3
  obtain ⟨hl', hap⟩ := lins_merge hap h3
  rw [Function.update_idem] at hl' hap
  exact ⟨⟨_, _, hl, hv, hl'⟩, hap⟩

end Atomic

/-! ### Locality -/

variable [DecidableEq Tid] {P : β → Program Tid Op Res σ L ι} {route : Op → β}
  {ok : β → Trace Tid Op Res σ L → Config Tid Op σ L → Event Tid Op Res → Config Tid Op σ L → Prop}
  {O : β → Object Op Res M} {abs : β → σ → M}

/-- What the atomic objects do at the places, they do as one. -/
theorem Linearized.sides {es : Trace Tid Op Res (β → σ) (β × L)}
    {c : Config Tid Op (β → σ) (β × L)} {a : β → Atomic Tid Op Res M}
    (hr : (Program.sides P route).RunIf (sidesIf route ok) es c)
    (h : ∀ b, Linearized (O b) (P b) (abs b) (part route b es) (a b)) :
    Linearized (Object.sides O route) (Program.sides P route) (fun s b => abs b (s b)) es
      (Atomic.merge a) ∧ Atomic.Apart route a := by
  induction hr generalizing a with
  | init =>
    have ha : ∀ b, a b = Atomic.initial (O b) ∧ abs b (P b).init = (O b).init := by
      intro b
      have hb := h b
      generalize hx : a b = x at hb
      cases hb with
      | init h0 => exact ⟨rfl, h0⟩
    obtain rfl : a = fun b => Atomic.initial (O b) := funext fun b => (ha b).1
    have hm : Atomic.merge (fun b => Atomic.initial (O b)) =
        (Atomic.initial (Object.sides O route) : Atomic Tid _ _ _) := by
      simp only [Atomic.merge, Atomic.initial, Atomic.mk.injEq]
      refine ⟨rfl, funext fun t => ?_⟩
      rw [Atomic.join, dif_neg (by simp)]
    rw [hm]
    exact ⟨.init (funext fun b => (ha b).2), fun t b b' h => absurd rfl h,
      fun t b op h => by cases h⟩
  | @step es c e c' hr hst hok ih =>
    have hr' := hr.step hst hok
    obtain ⟨b, hhere, honly, -, -⟩ := step_part (fun _ _ _ _ => place_of_run hr) hst
    obtain ⟨a₀, ha₀, hstep⟩ : ∃ a₀, Linearized (O b) (P b) (abs b) (part route b es) a₀ ∧
        Atomic.Step (O b) a₀ e (a b) := by
      have hb := h b
      rw [part_cons_of_here hhere] at hb
      cases hb with
      | step h1 h2 _ => exact ⟨_, h1, h2⟩
    have hpart : ∀ b', Linearized (O b') (P b') (abs b') (part route b' es)
        (Function.update a b a₀ b') := by
      intro b'
      by_cases hb : b' = b
      · subst hb; simpa using ha₀
      · have hb' := h b'
        rw [part_cons_of_not fun h => hb (honly b' h)] at hb'
        simpa [hb] using hb'
    obtain ⟨hlin, hap⟩ := ih hpart
    have hstep : Atomic.Step (O b) (Function.update a b a₀ b) e (a b) := by simpa using hstep
    obtain ⟨hm, hap⟩ := hstep.merge hap fun t op he => by
      subst he
      refine ⟨hhere, fun b' => ?_⟩
      cases hst with
      | call hidle =>
        exact ((hpart b').idle_iff (part_run hr b') t).mpr (threads_part_of_none hidle b')
    rw [Function.update_idem, Function.update_eq_self] at hm hap
    exact ⟨.step hlin hm (funext fun b' => (h b').state_eq (part_run hr' b')), hap⟩

/-- A run that meets a condition meets a weaker one. -/
theorem LinearizableIf.mono {O : Object Op Res M} {P : Program Tid Op Res σ L ι} {abs : σ → M}
    {ok ok' : Trace Tid Op Res σ L → Config Tid Op σ L → Event Tid Op Res →
      Config Tid Op σ L → Prop} (h : LinearizableIf O P ok abs)
    (hok : ∀ es c e c', ok' es c e c' → ok es c e c') : LinearizableIf O P ok' abs :=
  fun es c hr => h es c (hr.mono hok)

/-- **Linearizability is local.** Programs that are linearizable are so side by
side. -/
theorem linearizable_sides (h : ∀ b, LinearizableIf (O b) (P b) (ok b) (abs b)) :
    LinearizableIf (Object.sides O route) (Program.sides P route) (sidesIf route ok)
      fun s b => abs b (s b) := by
  intro es c hr
  choose a ha using fun b => h b _ _ (part_run hr b)
  exact ⟨_, (Linearized.sides hr ha).1⟩

end

/-! ### Ghost state at every place -/

section

variable [DecidableEq β] {G : Type*} {P : β → Program Tid Op Res σ L ι} {route : Op → β}
  {ok : β → Trace Tid Op Res σ L → Config Tid Op σ L → Event Tid Op Res → Config Tid Op σ L → Prop}

/-- A configuration, or a run, without the ghost state of any place. -/
def Ghost.eraseSides (c : Config Tid Op (β → σ × G) (β × L)) : Config Tid Op (β → σ) (β × L) :=
  ⟨fun b => (c.shared b).1, c.threads⟩

theorem Ghost.part_eraseSides (es : Trace Tid Op Res (β → σ × G) (β × L)) (b : β) :
    part route b (es.map fun p => (p.1, Ghost.eraseSides p.2)) = Ghost.erase (part route b es) := by
  induction es with
  | nil => rfl
  | cons p es ih =>
    obtain ⟨e, c⟩ := p
    have hhere : Here route b e (Ghost.eraseSides c) ↔ Here route b e c := by cases e <;> rfl
    by_cases h : Here route b e c
    · rw [List.map_cons, part_cons_of_here (hhere.mpr h), part_cons_of_here h, ih]
      rfl
    · rw [List.map_cons, part_cons_of_not (fun h' => h (hhere.mp h')), part_cons_of_not h, ih]

variable [DecidableEq Tid] {es : Trace Tid Op Res (β → σ) (β × L)}
  {c : Config Tid Op (β → σ) (β × L)}

/-- **Every run of the programs is one of the ghost programs, without the ghost
state.** -/
theorem Program.RunIf.ghost_sides (A : Ghost Op L G)
    (hr : (Program.sides P route).RunIf (sidesIf route ok) es c) :
    ∃ es' c', (Program.sides (fun b => A.program (P b)) route).RunIf
        (sidesIf route fun b => Ghost.lift (ok b)) es' c' ∧
      (es'.map fun p => (p.1, Ghost.eraseSides p.2)) = es ∧ Ghost.eraseSides c' = c := by
  induction hr with
  | init => exact ⟨[], _, .init, rfl, rfl⟩
  | @step es c e c' hr hst hok ih =>
    obtain ⟨es', ⟨s, th⟩, hr', rfl, rfl⟩ := ih
    have hok' : ∀ c₁, Ghost.eraseSides c₁ = c' →
        sidesIf route (fun b => Ghost.lift (ok b)) es' ⟨s, th⟩ e c₁ := by
      rintro c₁ rfl b hb
      have h := hok b (by cases e <;> exact hb)
      rwa [Ghost.part_eraseSides] at h
    cases hst with
    | @call t op hidle hpre =>
      have hst : (Program.sides (fun b => A.program (P b)) route).Step ⟨s, th⟩ (.call t op) _ :=
        .call hidle hpre
      exact ⟨_, _, .step hr' hst (hok' _ rfl), rfl, rfl⟩
    | @tau t op l s' l' i ht hres hs =>
      obtain ⟨b, l⟩ := l
      obtain ⟨⟨s₁, l₁⟩, hstep, hq⟩ := Option.map_eq_some_iff.mp hs
      obtain ⟨rfl, rfl⟩ := Prod.mk.inj hq
      have hs : (Program.sides (fun b => A.program (P b)) route).step i t s op (b, l) =
          some (Function.update s b (s₁, A.update op l (s b).2), (b, l₁)) := by
        simp only [Program.sides, Ghost.program]
        rw [show (P b).step i t (s b).1 op l = some (s₁, l₁) from hstep]
        rfl
      have hc : Ghost.eraseSides ⟨Function.update s b (s₁, A.update op l (s b).2),
          Function.update th t (some (op, (b, l₁)))⟩ =
          ⟨Function.update (fun b => (s b).1) b s₁, Function.update th t (some (op, (b, l₁)))⟩ := by
        simp only [Ghost.eraseSides, Config.mk.injEq, and_true]
        funext b'
        by_cases hb : b' = b
        · subst hb; simp
        · simp [hb]
      refine ⟨_, ⟨Function.update s b (s₁, A.update op l (s b).2),
        Function.update th t (some (op, (b, l₁)))⟩, .step hr' (.tau i ht hres hs) (hok' _ hc), ?_,
        hc⟩
      rw [List.map_cons, hc]
      rfl
    | @ret t op l r ht hres =>
      have hst : (Program.sides (fun b => A.program (P b)) route).Step ⟨s, th⟩ (.ret t op r) _ :=
        .ret ht hres
      exact ⟨_, _, .step hr' hst (hok' _ rfl), rfl, rfl⟩

/-- **Programs side by side are linearizable if their ghost programs are.** -/
theorem LinearizableIf.erase_sides {O : Object Op Res N} {A : Ghost Op L G}
    {abs : (β → σ × G) → N} {fits : (β → σ) → N → Prop}
    (h : LinearizableIf O (Program.sides (fun b => A.program (P b)) route)
      (sidesIf route fun b => Ghost.lift (ok b)) abs)
    (hfits : ∀ {es c}, (Program.sides (fun b => A.program (P b)) route).RunIf
      (sidesIf route fun b => Ghost.lift (ok b)) es c →
        fits (fun b => (c.shared b).1) (abs c.shared)) :
    HistoriesLinearizableIf O (Program.sides P route) (sidesIf route ok) fits := by
  intro es c hr
  obtain ⟨es', c', hr', rfl, rfl⟩ := hr.ghost_sides A
  obtain ⟨a, ha⟩ := h es' c' hr'
  refine ⟨a, ?_, ?_⟩
  · rw [List.map_map]
    exact ha.history
  · rw [ha.state_eq hr']
    exact hfits hr'

end

/-! ### What an object stands for -/

section

variable [DecidableEq Tid] {O : Object Op Res M} {O' : Object Op Res N} {f : M → N}
  {P : Program Tid Op Res σ L ι} {abs : σ → M}
  {ok : Trace Tid Op Res σ L → Config Tid Op σ L → Event Tid Op Res → Config Tid Op σ L → Prop}
  {J : Op → Prop} {I : M → Prop} {a b : Atomic Tid Op Res M} {e : Event Tid Op Res}

/-- The state meets `I`, and every pending operation `J`. -/
def Atomic.Sound (J : Op → Prop) (I : M → Prop) (a : Atomic Tid Op Res M) : Prop :=
  I a.state ∧ ∀ t op, a.status t = .pending op → J op

theorem Atomic.Sound.lin (h : a.Sound J I) (hkeep : ∀ op m, J op → I m → I (O.apply op m).1)
    (hl : Atomic.Lin O a b) : b.Sound J I := by
  obtain ⟨ht⟩ := hl
  rename_i t op
  refine ⟨hkeep op _ (h.2 t op ht) h.1, fun u op' hu => ?_⟩
  by_cases hut : u = t
  · subst hut; simp at hu
  · exact h.2 u op' (by simpa [hut] using hu)

theorem Atomic.Sound.visible (h : a.Sound J I) (he : ∀ t op, e = .call t op → J op)
    (hv : Atomic.Visible a e b) : b.Sound J I := by
  cases hv with
  | @call t op ht =>
    refine ⟨h.1, fun u op' hu => ?_⟩
    by_cases hut : u = t
    · subst hut
      simp only [Atomic.set, Function.update_self, Status.pending.injEq] at hu
      exact hu ▸ he u op rfl
    · exact h.2 u op' (by simpa [Atomic.set, hut] using hu)
  | tau => exact h
  | @ret t op r ht =>
    refine ⟨h.1, fun u op' hu => ?_⟩
    by_cases hut : u = t
    · subst hut; simp [Atomic.set] at hu
    · exact h.2 u op' (by simpa [Atomic.set, hut] using hu)

/-- What every operation that is called keeps. -/
theorem Linearized.sound {es : Trace Tid Op Res σ L} {c : Config Tid Op σ L}
    (h : Linearized O P abs es a) (hr : P.RunIf ok es c)
    (hcall : ∀ {es c t op c'}, P.RunIf ok es c → P.Step c (.call t op) c' →
      ok es c (.call t op) c' → J op) (hI : I O.init)
    (hkeep : ∀ op m, J op → I m → I (O.apply op m).1) : a.Sound J I := by
  induction h generalizing c with
  | init => exact ⟨hI, fun t op ht => by cases ht⟩
  | step _ hst _ ih =>
    cases hr with
    | step hr hst' hok =>
      refine hst.keeps (fun h => h.lin hkeep) (fun h => h.lin hkeep) (fun h => h.visible ?_) (ih hr)
      rintro t op rfl
      exact hcall hr hst' hok

/-- The same statuses, over what the state stands for. -/
def Atomic.map (f : M → N) (a : Atomic Tid Op Res M) : Atomic Tid Op Res N := ⟨f a.state, a.status⟩

section

variable (hkeep : ∀ op m, J op → I m → I (O.apply op m).1)
  (happ : ∀ op m, J op → I m → O'.apply op (f m) = (f (O.apply op m).1, (O.apply op m).2))

include hkeep happ

theorem Atomic.Sound.lins_map (h : a.Sound J I) (hl : Relation.ReflTransGen (Atomic.Lin O) a b) :
    Relation.ReflTransGen (Atomic.Lin O') (a.map f) (b.map f) ∧ b.Sound J I := by
  induction hl with
  | refl => exact ⟨.refl, h⟩
  | @tail x y _ hl ih =>
    refine ⟨ih.1.tail ?_, ih.2.lin hkeep hl⟩
    obtain ⟨ht⟩ := hl
    rename_i t op
    have hl := Atomic.Lin.lin (O := O') (a := x.map f) ht
    rw [Atomic.map, happ op _ (ih.2.2 t op ht) ih.2.1] at hl
    exact hl

theorem Atomic.Step.map (h : Atomic.Step O a e b) (hs : a.Sound J I)
    (he : ∀ t op, e = .call t op → J op) : Atomic.Step O' (a.map f) e (b.map f) := by
  obtain ⟨a₁, b₁, h1, h2, h3⟩ := h
  obtain ⟨h1, hs⟩ := hs.lins_map hkeep happ h1
  obtain ⟨h3, -⟩ := (hs.visible he h2).lins_map hkeep happ h3
  refine ⟨_, _, h1, ?_, h3⟩
  cases h2 with
  | call ht => exact .call ht
  | tau => exact .tau
  | ret ht => exact .ret ht

/-- **What is linearizable to an object is so to any that it stands for**, as
long as it meets `I` and the operations called meet `J`. -/
theorem LinearizableIf.map (h : LinearizableIf O P ok abs)
    (hcall : ∀ {es c t op c'}, P.RunIf ok es c → P.Step c (.call t op) c' →
      ok es c (.call t op) c' → J op) (hI : I O.init) (hinit : f O.init = O'.init) :
    LinearizableIf O' P ok fun s => f (abs s) := by
  intro es c hr
  obtain ⟨a, ha⟩ := h es c hr
  refine ⟨a.map f, ?_⟩
  induction ha generalizing c with
  | init h0 =>
    have h0 : f (abs P.init) = O'.init := by rw [h0, hinit]
    have hm : (Atomic.initial O : Atomic Tid Op Res M).map f = Atomic.initial O' := by
      simp [Atomic.map, Atomic.initial, hinit]
    rw [hm]
    exact .init h0
  | step hl hst hs ih =>
    cases hr with
    | step hr hst' hok =>
      refine .step (ih _ hr) (hst.map hkeep happ (hl.sound hr hcall hI hkeep) ?_) (congrArg f hs)
      rintro t op rfl
      exact hcall hr hst' hok

end

end

end Concur
