/-
# Programs that keep a ledger of their nodes

A program that unlinks nodes and gives them back later reclaims well when no
node is freed twice, none while it is linked, and none is forgotten: with no
call running, each node that was ever allocated is linked or was freed once
(`Reclaims`). It does when each of its steps books at most one entry of the
ledger, given by what the local state owes and has in hand (`Accounts.reclaims`).

Key definitions: `NodeUse`, `Reclaims`, `Accounts`.
Key theorem: `Accounts.reclaims`.
-/
import Ascylib.Concur.Hindsight
import Ascylib.Concur.Ledger
import Ascylib.Concur.Run

set_option linter.unusedSectionVars false

namespace Concur

variable {Tid Op Res σ L ι N : Type*} [DecidableEq Tid]

/-- Which nodes of a shared state have been allocated, which are linked, and
which were given back, newest first. -/
structure NodeUse (σ N : Type*) where
  used : σ → N → Prop
  lnk : σ → N → Prop
  freed : σ → List N

variable (P : Program Tid Op Res σ L ι)
  (ok : Trace Tid Op Res σ L → Config Tid Op σ L → Event Tid Op Res → Config Tid Op σ L → Prop)
  (X : NodeUse σ N)

/-- No node is freed twice or while it is linked, and with no call running every
node that was ever allocated is linked or was freed. -/
def Reclaims : Prop :=
  ∀ es c, P.RunIf ok es c → (X.freed c.shared).Nodup ∧
    (∀ x ∈ X.freed c.shared, X.used c.shared x ∧ ¬ X.lnk c.shared x) ∧
    (∀ e c', P.Step c e c' → ok es c e c' → ∀ x ∈ X.freed c'.shared, x ∉ X.freed c.shared →
      ¬ X.lnk c.shared x) ∧
    ((∀ t, c.threads t = none) → ∀ x, X.used c.shared x →
      X.lnk c.shared x ∨ x ∈ X.freed c.shared)

/-- What each local state owes to the allocator, in order, and the node it has
in hand. -/
structure Accounts where
  debt : L → List N
  hand : L → Option N
  start : ∀ op, debt (P.start op) = [] ∧ hand (P.start op) = none
  ret : ∀ {l r}, P.result l = some r → debt l = [] ∧ hand l = none
  freed_init : X.freed P.init = []
  used_init : ∀ x, X.used P.init x → X.lnk P.init x
  met_used : ∀ {es c x}, P.RunIf ok es c → Met X.lnk (P.seen es) x → X.used c.shared x
  step : ∀ {es c t op l i s' l'}, P.RunIf ok es c → c.threads t = some (op, l) →
    P.result l = none → P.step i t c.shared op l = some (s', l') →
    ok es c (.tau t) ⟨s', Function.update c.threads t (some (op, l'))⟩ →
    Ledger.Entry (X.used c.shared) (X.lnk c.shared) (X.freed c.shared) (debt l) (hand l)
      (X.used s') (X.lnk s') (X.freed s') (debt l') (hand l') ∧
    ∀ x, X.used s' x → X.used c.shared x ∨ hand l' = some x

variable {P ok X}

/-- An entry frees no less. -/
theorem Ledger.Entry.freed_mono {used lnk used' lnk' : N → Prop} {fr fr' ys ys' : List N}
    {h h' : Option N} (e : Ledger.Entry used lnk fr ys h used' lnk' fr' ys' h') : fr ⊆ fr' := by
  cases e with
  | none | take | link | unlink => exact List.Subset.refl _
  | free x | discard x => exact List.subset_cons_self _ _

/-- An entry forgets no node. -/
theorem Ledger.Entry.used_mono {used lnk used' lnk' : N → Prop} {fr fr' ys ys' : List N}
    {h h' : Option N} (e : Ledger.Entry used lnk fr ys h used' lnk' fr' ys' h') :
    ∀ x, used x → used' x := by
  cases e <;> assumption

/-- The node in hand is still there after the entry, or linked, or freed. -/
theorem Ledger.Entry.hand_settled {used lnk used' lnk' : N → Prop} {fr fr' ys ys' : List N}
    {h h' : Option N} (e : Ledger.Entry used lnk fr ys h used' lnk' fr' ys' h') {x : N}
    (hx : h = some x) : h' = some x ∨ lnk' x ∨ x ∈ fr' := by
  cases e with
  | none | unlink | free => exact Or.inl hx
  | take => cases hx
  | link n _ hl =>
    cases hx
    exact Or.inr (Or.inl ((hl _).mpr (Or.inr rfl)))
  | discard n =>
    cases hx
    exact Or.inr (Or.inr List.mem_cons_self)

namespace Accounts

variable (A : Accounts P ok X)

/-- What a thread owes and has in hand. -/
def Balanced (f : Option (Op × L)) (ys : List N) (n : Option N) : Prop :=
  match f with
  | none => ys = [] ∧ n = none
  | some (_, l) => ys = A.debt l ∧ n = A.hand l

/-- The ledger balances, and every node that is not in it is in a hand. -/
structure Books (es : Trace Tid Op Res σ L) (c : Config Tid Op σ L) (owes : Tid → List N)
    (hand : Tid → Option N) : Prop where
  ledger : Ledger (X.used c.shared) (X.lnk c.shared) (Met X.lnk (P.seen es)) (X.freed c.shared) owes
    hand
  balanced : ∀ t, A.Balanced (c.threads t) (owes t) (hand t)
  all : ∀ x, X.used c.shared x → Met X.lnk (P.seen es) x ∨ x ∈ X.freed c.shared ∨
    ∃ t, hand t = some x

variable {A} {es : Trace Tid Op Res σ L} {c : Config Tid Op σ L} {owes : Tid → List N}
  {hand : Tid → Option N}

/-- An event that leaves the shared state alone. -/
theorem Books.same {e : Event Tid Op Res} {t : Tid} {f : Option (Op × L)}
    (h : A.Books es c owes hand) (hr : P.RunIf ok es c) (hf : A.Balanced f (owes t) (hand t)) :
    A.Books ((e, ⟨c.shared, Function.update c.threads t f⟩) :: es)
      ⟨c.shared, Function.update c.threads t f⟩ owes hand := by
  have hseen : P.seen ((e, (⟨c.shared, Function.update c.threads t f⟩ : Config Tid Op σ L)) :: es) =
      P.seen es := Set.insert_eq_of_mem hr.shared_mem_seen
  refine ⟨by rw [hseen]; exact h.ledger, fun u => ?_, by rw [hseen]; exact h.all⟩
  by_cases hu : u = t
  · subst hu
    simpa only [Function.update_self] using hf
  · simpa only [Function.update_of_ne hu] using h.balanced u

/-- A step that books one entry. -/
theorem Books.tau {t : Tid} {op : Op} {l l' : L} {i : ι} {s' : σ} (h : A.Books es c owes hand)
    (hr : P.RunIf ok es c) (ht : c.threads t = some (op, l)) (hres : P.result l = none)
    (hstep : P.step i t c.shared op l = some (s', l'))
    (hok : ok es c (.tau t) ⟨s', Function.update c.threads t (some (op, l'))⟩) :
    A.Books ((.tau t, ⟨s', Function.update c.threads t (some (op, l'))⟩) :: es)
      ⟨s', Function.update c.threads t (some (op, l'))⟩ (Function.update owes t (A.debt l'))
      (Function.update hand t (A.hand l')) := by
  obtain ⟨he, hgrow⟩ := A.step hr ht hres hstep hok
  obtain ⟨h1, h2⟩ : owes t = A.debt l ∧ hand t = A.hand l := by
    simpa only [Balanced, ht] using h.balanced t
  rw [← h1, ← h2] at he
  have hmet : ∀ x, Met X.lnk (insert s' (P.seen es)) x ↔ X.lnk s' x ∨ Met X.lnk (P.seen es) x :=
    fun x => by simp only [Met, Set.mem_insert_iff, exists_eq_or_imp]
  refine ⟨?_, fun u => ?_, fun x hx => ?_⟩
  · have hL := h.ledger.step (fun x hx => ⟨_, hr.shared_mem_seen, hx⟩)
      (fun x hx => A.met_used hr hx) he
    exact hL.congr (fun _ hx => hx) (fun _ => Iff.rfl) hmet
  · by_cases hu : u = t
    · subst hu
      simp only [Function.update_self, Balanced, and_self]
    · simpa only [Function.update_of_ne hu] using h.balanced u
  · show Met X.lnk (insert s' (P.seen es)) x ∨ _
    rw [hmet]
    rcases hgrow x hx with hx | hx
    · rcases h.all x hx with h3 | h3 | ⟨u, h3⟩
      · exact Or.inl (Or.inr h3)
      · exact Or.inr (Or.inl (he.freed_mono h3))
      · by_cases hu : u = t
        · subst hu
          rcases he.hand_settled h3 with h4 | h4 | h4
          · exact Or.inr (Or.inr ⟨u, by rw [Function.update_self]; exact h4⟩)
          · exact Or.inl (Or.inl h4)
          · exact Or.inr (Or.inl h4)
        · exact Or.inr (Or.inr ⟨u, by rw [Function.update_of_ne hu]; exact h3⟩)
    · exact Or.inr (Or.inr ⟨t, by rw [Function.update_self]; exact hx⟩)

variable (A)

include A

/-- **The ledger balances in every run.** -/
theorem books (hr : P.RunIf ok es c) : ∃ owes hand, A.Books es c owes hand := by
  induction hr with
  | init =>
    refine ⟨fun _ => [], fun _ => none, ?_, fun t => ⟨rfl, rfl⟩, fun x hx => ?_⟩
    · rw [show X.freed P.initial.shared = [] from A.freed_init]
      refine Ledger.initial ?_
      rintro x ⟨s₀, rfl, hx⟩
      exact hx
    · exact Or.inl ⟨P.init, rfl, A.used_init x hx⟩
  | @step es c e c' hr hst hok ih =>
    obtain ⟨owes, hand, h⟩ := ih
    cases hst with
    | @call t op hidle =>
      refine ⟨owes, hand, h.same hr ?_⟩
      obtain ⟨h1, h2⟩ : owes t = [] ∧ hand t = none := by
        simpa only [Balanced, hidle] using h.balanced t
      obtain ⟨h3, h4⟩ := A.start op
      exact ⟨h1.trans h3.symm, h2.trans h4.symm⟩
    | @ret t op l r ht hres =>
      refine ⟨owes, hand, h.same hr ?_⟩
      obtain ⟨h1, h2⟩ : owes t = A.debt l ∧ hand t = A.hand l := by
        simpa only [Balanced, ht] using h.balanced t
      obtain ⟨h3, h4⟩ := A.ret hres
      exact ⟨h1.trans h3, h2.trans h4⟩
    | tau i ht hres hstep => exact ⟨_, _, h.tau hr ht hres hstep hok⟩

/-- **No node is freed twice, too early, or not at all.** -/
theorem reclaims : Reclaims P ok X := by
  intro es c hr
  obtain ⟨owes, hand, h⟩ := A.books hr
  refine ⟨h.ledger.once, fun x hx => ⟨h.ledger.freed_used x hx, h.ledger.freed_off x hx⟩,
    fun e c' hst hok x hx hx' => ?_, fun hidle x hx => ?_⟩
  · obtain ⟨_, _, h'⟩ := A.books (.step hr hst hok)
    have hoff := h'.ledger.freed_off x hx
    cases hst with
    | call => exact hoff
    | ret => exact hoff
    | tau i ht hres hstep =>
      -- the step that freed the node changed no link
      rcases (A.step hr ht hres hstep hok).1.freed with hf | hl
      · exact absurd (hf ▸ hx) hx'
      · exact fun h => hoff ((hl x).mpr h)
  · have hidle' : ∀ t, owes t = [] ∧ hand t = none := fun t => by
      simpa only [Balanced, hidle t] using h.balanced t
    rcases h.all x hx with h1 | h1 | ⟨t, h1⟩
    · rcases h.ledger.settled x h1 with h2 | h2 | ⟨t, h2⟩
      · exact Or.inl h2
      · exact Or.inr h2
      · rw [(hidle' t).1] at h2
        cases h2
    · exact Or.inr h1
    · rw [(hidle' t).2] at h1
      cases h1

end Accounts

end Concur
