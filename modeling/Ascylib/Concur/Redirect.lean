/-
# Redirecting a pointer of a chain

What is linked after the pointer of one node `p` is redirected, in a chain
whose keys need not grow: a linked node stays linked, or was met behind `p`
(`Linked.redirect`). So the nodes that are met from the new target of `p` just
when they were met from the old one stay as they are (`linked_redirect_iff`).

The dead nodes of a chain only lead to the live ones behind them: two pointers
that lead over dead nodes to one node lead to the same live nodes
(`Over.linked_iff`).
-/
import Ascylib.Concur.Chain

namespace Chain

variable {α : Type*} {nxt nxt' : α → α} {h t p a b x : α}

/-! ### Dead nodes -/

/-- From `a` dead nodes lead to `b`. -/
def Over (dead : α → Prop) (nxt : α → α) : α → α → Prop :=
  Relation.ReflTransGen fun x y => dead x ∧ nxt x = y

section dead

variable {dead : α → Prop} (hab : Over dead nxt a b)

include hab

theorem Over.linked (ht : ¬ dead t) : Linked nxt a t b := by
  refine Relation.ReflTransGen.mono ?_ _ _ hab
  rintro y z ⟨hy, rfl⟩
  exact ⟨fun h => ht (h ▸ hy), rfl⟩

/-- Dead nodes are passed on the way to a live one. -/
theorem Over.resolve (hx : ¬ dead x) (h : Linked nxt a t x) : Linked nxt b t x := by
  induction hab using Relation.ReflTransGen.head_induction_on with
  | refl => exact h
  | @head y z hyz _ ih =>
    obtain ⟨hy, rfl⟩ := hyz
    rcases h.cases_head with rfl | ⟨w, ⟨-, rfl⟩, hw⟩
    · exact absurd hy hx
    · exact ih hw

/-- **Over dead nodes the same live nodes are met.** -/
theorem Over.linked_iff (ht : ¬ dead t) (hx : ¬ dead x) : Linked nxt a t x ↔ Linked nxt b t x :=
  ⟨hab.resolve hx, fun h => (hab.linked ht).trans h⟩

end dead

/-! ### The pointer of `p` -/

theorem linked_congr (he : ∀ y, Linked nxt h t y → y ≠ t → nxt' y = nxt y) :
    Linked nxt' h t x ↔ Linked nxt h t x := by
  refine ⟨fun hx => ?_, fun hx => hx.congr he⟩
  induction hx with
  | refl => exact linked_head
  | @tail y z hy hyz ih =>
    obtain ⟨hyt, rfl⟩ := hyz
    rw [he y ih hyt]
    exact ih.next hyt

section redirect

variable (he : ∀ x, x ≠ p → nxt' x = nxt x)

include he

/-- A node that is linked is linked still, or it was met behind `p`. -/
theorem Linked.redirect (hx : Linked nxt h t x) :
    Linked nxt' h t x ∨ Linked nxt' h t p ∧ p ≠ t ∧ Linked nxt (nxt p) t x := by
  induction hx with
  | refl => exact Or.inl linked_head
  | @tail y z hy hyz ih =>
    obtain ⟨hyt, rfl⟩ := hyz
    rcases ih with ih | ⟨hp, hpt, ih⟩
    · by_cases hyp : y = p
      · subst hyp
        exact Or.inr ⟨ih, hyt, linked_head⟩
      · rw [← he y hyp]
        exact Or.inl (ih.next hyt)
    · exact Or.inr ⟨hp, hpt, ih.next hyt⟩

theorem Linked.redirect_self (hp : Linked nxt h t p) : Linked nxt' h t p :=
  (hp.redirect he).elim id fun h => h.1

/-- Where a way does not come to `p` nothing changes. -/
theorem linked_congr_of_closed (U : α → Prop) (hU : ∀ x, U x → x ≠ t → U (nxt x)) (hp : ¬ U p)
    (ha : U a) : Linked nxt' a t x ↔ Linked nxt a t x := by
  have hmet : ∀ y, Linked nxt a t y → U y := by
    intro y hy
    induction hy with
    | refl => exact ha
    | @tail y z hy hyz ih =>
      obtain ⟨hyt, rfl⟩ := hyz
      exact hU y ih hyt
  exact linked_congr fun y hy _ => he y fun h => hp (h ▸ hmet y hy)

/-- **A node stays as it is if it is met from the new target of `p` just when
it was met from the old one.** -/
theorem linked_redirect_iff (U : α → Prop) (hU : ∀ x, U x → x ≠ t → U (nxt x)) (hpU : ¬ U p)
    (h' : U (nxt' p)) (hpt : p ≠ t) (hp : Linked nxt h t p)
    (hx : Linked nxt (nxt' p) t x ↔ Linked nxt (nxt p) t x) :
    Linked nxt' h t x ↔ Linked nxt h t x := by
  have hnew := linked_congr_of_closed he U hU hpU (x := x) h'
  constructor
  · intro h
    rcases h.redirect (fun y hy => (he y hy).symm) with h | ⟨-, -, h⟩
    · exact h
    · exact (hp.next hpt).trans (hx.mp (hnew.mp h))
  · intro h
    rcases h.redirect he with h | ⟨hp', -, h⟩
    · exact h
    · exact (hp'.next hpt).trans (hnew.mpr (hx.mpr h))

end redirect

/-! ### The way to the end -/

/-- **The end stays in reach** when every node leads where it led, or to a node
from which the end is reached. -/
theorem Linked.redirect_tail {U : α → Prop} (ha : Linked nxt a t t) (hU : ∀ x, U x → x ≠ t → U (nxt x))
    (haU : U a) (hn : ∀ x, U x → x ≠ t → nxt' x = nxt x ∨ Linked nxt' (nxt' x) t t) :
    Linked nxt' a t t := by
  induction ha using Relation.ReflTransGen.head_induction_on with
  | refl => exact linked_head
  | @head y z hyz _ ih =>
    obtain ⟨hyt, rfl⟩ := hyz
    have hrest : Linked nxt' (nxt' y) t t := by
      rcases hn y haU hyt with he | hl
      · rw [he]
        exact ih (hU y haU hyt)
      · exact hl
    exact Relation.ReflTransGen.head ⟨hyt, rfl⟩ hrest

/-- A node is met after finitely many steps. -/
theorem Linked.iterate (h : Linked nxt a t x) : ∃ n, nxt^[n] a = x := by
  induction h with
  | refl => exact ⟨0, rfl⟩
  | @tail y z _ hyz ih =>
    obtain ⟨n, rfl⟩ := ih
    obtain ⟨-, rfl⟩ := hyz
    exact ⟨n + 1, Function.iterate_succ_apply' nxt n a⟩

end Chain
