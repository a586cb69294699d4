/-
# Sorted chains of nodes and the map they hold

A singly linked list in a heap, given by the successor function of its nodes:
`Linked nxt h t x` says that following `nxt` from the head `h`, and not past
the tail `t`, meets `x`. When the keys grow along it (`Sorted`), a node is
found by its key, and what a write does to the set of linked nodes is told by
keys: linking a node adds it (`linked_insert`), and a swing of a pointer from
`p` to a later node `r` drops the nodes with keys strictly between
(`linked_splice`).

`mapOf` is the map that the live nodes of a heap stand for.
-/
import Mathlib.Data.Set.Card
import Mathlib.Logic.Relation
import Mathlib.Order.Basic

namespace Chain

section

variable {α K : Type*} {nxt nxt' : α → α} {key : α → K} {h t : α}

/-- One step along the chain, not past the tail. -/
def Next (nxt : α → α) (t : α) (x y : α) : Prop := x ≠ t ∧ nxt x = y

/-- The node `x` is met on the way from `h` to `t`. -/
def Linked (nxt : α → α) (h t : α) (x : α) : Prop := Relation.ReflTransGen (Next nxt t) h x

theorem linked_head : Linked nxt h t h := .refl

theorem Linked.next {x : α} (hx : Linked nxt h t x) (ht : x ≠ t) : Linked nxt h t (nxt x) :=
  hx.tail ⟨ht, rfl⟩

/-- Linked nodes are linked in any heap that agrees on them. -/
theorem Linked.congr {x : α} (hx : Linked nxt h t x)
    (he : ∀ y, Linked nxt h t y → y ≠ t → nxt' y = nxt y) : Linked nxt' h t x := by
  induction hx with
  | refl => exact .refl
  | @tail y z hy hyz ih =>
    obtain ⟨hne, rfl⟩ := hyz
    rw [← he y hy hne]
    exact ih.next hne

theorem next_rightUnique : Relator.RightUnique (Next nxt t) := by
  rintro a b c ⟨-, rfl⟩ ⟨-, rfl⟩
  rfl

theorem Linked.total {x y : α} (hx : Linked nxt h t x) (hy : Linked nxt h t y) :
    Relation.ReflTransGen (Next nxt t) x y ∨ Relation.ReflTransGen (Next nxt t) y x :=
  Relation.ReflTransGen.total_of_right_unique next_rightUnique hx hy

variable [LinearOrder K]

/-- The keys grow along the chain, and it ends at the tail. -/
structure Sorted (nxt : α → α) (key : α → K) (h t : α) : Prop where
  step : ∀ x, Linked nxt h t x → x ≠ t → key x < key (nxt x)
  tail : Linked nxt h t t

namespace Sorted

variable (S : Sorted nxt key h t)

include S

theorem le_of_path {x y : α} (hx : Linked nxt h t x) (hxy : Relation.ReflTransGen (Next nxt t) x y) :
    key x ≤ key y := by
  induction hxy with
  | refl => exact le_rfl
  | @tail y z hy hyz ih =>
    obtain ⟨hne, rfl⟩ := hyz
    exact ih.trans (S.step y (hx.trans hy) hne).le

theorem head_le {x : α} (hx : Linked nxt h t x) : key h ≤ key x := S.le_of_path linked_head hx

/-- No linked node lies between a linked node and its successor. -/
theorem le_or_next_le {x y : α} (hx : Linked nxt h t x) (ht : x ≠ t) (hy : Linked nxt h t y) :
    key y ≤ key x ∨ key (nxt x) ≤ key y := by
  rcases hx.total hy with hxy | hyx
  · rcases hxy.cases_head with rfl | ⟨z, ⟨-, rfl⟩, hz⟩
    · exact Or.inl le_rfl
    · exact Or.inr (S.le_of_path (hx.next ht) hz)
  · exact Or.inl (S.le_of_path hy hyx)

/-- A key strictly between a linked node's and its successor's is on no
linked node. -/
theorem absent {x : α} {k : K} (hx : Linked nxt h t x) (ht : x ≠ t) (hk : key x < k)
    (hk' : k < key (nxt x)) {y : α} (hy : Linked nxt h t y) : key y ≠ k := by
  rintro rfl
  rcases S.le_or_next_le hx ht hy with h1 | h1
  · exact absurd hk (not_lt.mpr h1)
  · exact absurd hk' (not_lt.mpr h1)

theorem inj {x y : α} (hx : Linked nxt h t x) (hy : Linked nxt h t y) (hk : key x = key y) :
    x = y := by
  rcases hx.total hy with hp | hp <;> rcases hp.cases_head with he | ⟨z, ⟨hne, rfl⟩, hz⟩
  · exact he
  · exact absurd hk ((S.step x hx hne).trans_le (S.le_of_path (hx.next hne) hz)).ne
  · exact he.symm
  · exact absurd hk.symm ((S.step y hy hne).trans_le (S.le_of_path (hy.next hne) hz)).ne

theorem le_tail {x : α} (hx : Linked nxt h t x) : key x ≤ key t := by
  rcases hx.total S.tail with hp | hp
  · exact S.le_of_path hx hp
  · rcases hp.cases_head with rfl | ⟨z, ⟨hne, -⟩, -⟩
    · exact le_rfl
    · exact absurd rfl hne

/-- A linked node with a smaller key than some linked node is not the tail. -/
theorem ne_tail {x y : α} (hy : Linked nxt h t y) (hk : key x < key y) : x ≠ t := by
  rintro rfl
  exact absurd hk (not_lt.mpr (S.le_tail hy))

/-- The successor of a linked node, by its key. -/
theorem next_eq {x y : α} (hx : Linked nxt h t x) (hy : Linked nxt h t y) (hk : key x < key y)
    (hk' : key y ≤ key (nxt x)) : nxt x = y := by
  have ht := S.ne_tail hy hk
  rcases S.le_or_next_le hx ht hy with h1 | h1
  · exact absurd hk (not_lt.mpr h1)
  · exact S.inj (hx.next ht) hy (le_antisymm h1 hk')

/-! ### Linking a node -/

section insert

variable {p n : α} (hp : Linked nxt h t p) (hpt : p ≠ t) (hn : ¬ Linked nxt h t n)
  (h1 : nxt' p = n) (h2 : nxt' n = nxt p) (h3 : ∀ x, Linked nxt h t x → x ≠ p → nxt' x = nxt x)

include hp hpt hn h1 h2 h3

theorem linked_insert {x : α} : Linked nxt' h t x ↔ Linked nxt h t x ∨ x = n := by
  have hnt : n ≠ t := fun he => hn (he ▸ S.tail)
  constructor
  · intro hx
    induction hx with
    | refl => exact Or.inl linked_head
    | @tail y z _ hyz ih =>
      obtain ⟨hne, rfl⟩ := hyz
      rcases ih with hy | rfl
      · by_cases hyp : y = p
        · subst hyp; exact Or.inr h1
        · rw [h3 y hy hyp]
          exact Or.inl (hy.next hne)
      · rw [h2]; exact Or.inl (hp.next hpt)
  · -- up to `p` the path is the old one; past `p` it goes through `n`
    have hold : ∀ {y}, Linked nxt h t y → Linked nxt' h t y := by
      intro y hy
      induction hy with
      | refl => exact linked_head
      | @tail y z hy hyz ih =>
        obtain ⟨hne, rfl⟩ := hyz
        by_cases hyp : y = p
        · subst hyp
          have := (ih.next hpt)
          rw [h1] at this
          have := this.next hnt
          rwa [h2] at this
        · rw [← h3 y hy hyp]
          exact ih.next hne
    rintro (hx | rfl)
    · exact hold hx
    · rw [← h1]; exact (hold hp).next hpt

theorem sorted_insert (hk : key p < key n) (hk' : key n < key (nxt p)) :
    Sorted nxt' key h t := by
  have hl := @linked_insert _ _ _ _ _ _ _ _ S _ _ hp hpt hn h1 h2 h3
  refine ⟨fun x hx hxt => ?_, hl.mpr (Or.inl S.tail)⟩
  rcases hl.mp hx with hx | rfl
  · by_cases hxp : x = p
    · subst hxp; rw [h1]; exact hk
    · rw [h3 x hx hxp]
      exact S.step x hx hxt
  · rw [h2]; exact hk'

end insert

/-! ### Swinging a pointer over a stretch of nodes -/

section splice

variable {p r : α} (hp : Linked nxt h t p) (hr : Linked nxt h t r) (hk : key p < key r)
  (h1 : nxt' p = r) (h2 : ∀ x, Linked nxt h t x → x ≠ p → nxt' x = nxt x)

include hp hr hk h1 h2

theorem linked_splice {x : α} :
    Linked nxt' h t x ↔ Linked nxt h t x ∧ (key x ≤ key p ∨ key r ≤ key x) := by
  have hpt := S.ne_tail hr hk
  constructor
  · intro hx
    induction hx with
    | refl => exact ⟨linked_head, Or.inl (S.head_le hp)⟩
    | @tail y z _ hyz ih =>
      obtain ⟨hne, rfl⟩ := hyz
      by_cases hyp : y = p
      · subst hyp; rw [h1]; exact ⟨hr, Or.inr le_rfl⟩
      · rw [h2 y ih.1 hyp]
        refine ⟨ih.1.next hne, ?_⟩
        rcases ih.2 with h4 | h4
        · have hlt : key y < key p := lt_of_le_of_ne h4 fun he => hyp (S.inj ih.1 hp he)
          exact Or.inl ((S.le_or_next_le ih.1 hne hp).resolve_left (not_le.mpr hlt))
        · exact Or.inr (h4.trans (S.step y ih.1 hne).le)
  · have hlow : ∀ {y}, Linked nxt h t y → key y ≤ key p → Linked nxt' h t y := by
      intro y hy
      induction hy with
      | refl => exact fun _ => linked_head
      | @tail y z hy hyz ih =>
        obtain ⟨hne, rfl⟩ := hyz
        intro hle
        have hlt := (S.step y hy hne).trans_le hle
        rw [← h2 y hy fun he => absurd hlt (by rw [he]; exact lt_irrefl _)]
        exact (ih hlt.le).next hne
    have hrl : Linked nxt' h t r := h1 ▸ (hlow hp le_rfl).next hpt
    rintro ⟨hx, h4 | h4⟩
    · exact hlow hx h4
    · clear hlow
      induction hx with
      | refl => exact linked_head
      | @tail y z hy hyz ih =>
        obtain ⟨hne, rfl⟩ := hyz
        by_cases hyr : key r ≤ key y
        · rw [← h2 y hy fun he => absurd hk (not_lt.mpr (he ▸ hyr))]
          exact (ih hyr).next hne
        · rw [S.next_eq hy hr (not_le.mp hyr) h4]
          exact hrl

theorem sorted_splice : Sorted nxt' key h t := by
  have hl := @linked_splice _ _ _ _ _ _ _ _ S _ _ hp hr hk h1 h2
  refine ⟨fun x hx hxt => ?_, hl.mpr ⟨S.tail, Or.inr (S.le_tail hr)⟩⟩
  by_cases hxp : x = p
  · subst hxp; rw [h1]; exact hk
  · rw [h2 x (hl.mp hx).1 hxp]
    exact S.step x (hl.mp hx).1 hxt

end splice

end Sorted

end

/-! ### The map of the live nodes -/

section mapOf

variable {α K V : Type*} {key : α → K} {live live' : α → Prop} {key' : α → K} {val val' : α → V}

open Classical in
/-- The map of the live nodes of a heap. -/
noncomputable def mapOf (live : α → Prop) (key : α → K) (val : α → V) : K → Option V :=
  fun k => if hk : ∃ x, live x ∧ key x = k then some (val hk.choose) else none

theorem mapOf_eq_none {k : K} : mapOf live key val k = none ↔ ∀ x, live x → key x ≠ k := by
  unfold mapOf
  split
  · rename_i hk
    obtain ⟨x, hx, hxk⟩ := hk
    simp only [reduceCtorEq, false_iff]
    exact fun hn => hn x hx hxk
  · rename_i hk
    simp only [true_iff]
    exact fun x hx hxk => hk ⟨x, hx, hxk⟩

/-- Keys are unique among the live nodes. -/
def Unique (live : α → Prop) (key : α → K) : Prop :=
  ∀ x y, live x → live y → key x = key y → x = y

theorem mapOf_eq_some (hu : Unique live key) {x : α} (hx : live x) :
    mapOf live key val (key x) = some (val x) := by
  unfold mapOf
  have hk : ∃ y, live y ∧ key y = key x := ⟨x, hx, rfl⟩
  rw [dif_pos hk, hu _ x hk.choose_spec.1 hx hk.choose_spec.2]

theorem exists_of_mapOf_eq_some {k : K} {v : V} (hm : mapOf live key val k = some v) :
    ∃ x, live x ∧ key x = k ∧ val x = v := by
  unfold mapOf at hm
  split at hm
  · rename_i hk
    exact ⟨_, hk.choose_spec.1, hk.choose_spec.2, Option.some.inj hm⟩
  · cases hm

theorem mapOf_congr (hl : ∀ x, live' x ↔ live x) (hk : ∀ x, live x → key' x = key x)
    (hv : ∀ x, live x → val' x = val x) (hu : Unique live key) :
    mapOf live' key' val' = mapOf live key val := by
  have hu' : Unique live' key' := fun x y hx hy he =>
    hu x y ((hl x).mp hx) ((hl y).mp hy)
      (by rw [← hk x ((hl x).mp hx), ← hk y ((hl y).mp hy)]; exact he)
  funext k
  rcases hm : mapOf live key val k with _ | v
  · rw [mapOf_eq_none] at hm ⊢
    exact fun x hx => by rw [hk x ((hl x).mp hx)]; exact hm x ((hl x).mp hx)
  · obtain ⟨x, hx, rfl, rfl⟩ := exists_of_mapOf_eq_some hm
    rw [← hk x hx, ← hv x hx]
    exact mapOf_eq_some hu' ((hl x).mpr hx)

/-- The map has as many keys as there are live nodes. -/
theorem mapOf_ncard (hu : Unique live key) :
    {k | mapOf live key val k ≠ none}.ncard = {x | live x}.ncard := by
  have h : {k | mapOf live key val k ≠ none} = key '' {x | live x} := by
    ext k
    simp only [Set.mem_ofPred_eq, ne_eq, mapOf_eq_none, Set.mem_image]
    push Not
    rfl
  rw [h]
  exact Set.InjOn.ncard_image fun x hx y hy he => hu x y hx hy he

variable [DecidableEq K]

/-- A node becomes live: the map gains its key. -/
theorem mapOf_insert {n : α} (hl : ∀ x, live' x ↔ live x ∨ x = n)
    (hk : ∀ x, live x → key' x = key x) (hv : ∀ x, live x → val' x = val x)
    (hu : Unique live key) (hn : ∀ x, live x → key x ≠ key' n) :
    mapOf live' key' val' = Function.update (mapOf live key val) (key' n) (some (val' n)) := by
  have hu' : Unique live' key' := by
    intro x y hx hy he
    rcases (hl x).mp hx with hx | rfl <;> rcases (hl y).mp hy with hy | rfl
    · exact hu x y hx hy (by rw [← hk x hx, ← hk y hy]; exact he)
    · exact absurd ((hk x hx).symm.trans he) (hn x hx)
    · exact absurd ((hk y hy).symm.trans he.symm) (hn y hy)
    · rfl
  funext k
  by_cases hkn : k = key' n
  · subst hkn
    rw [Function.update_self]
    exact mapOf_eq_some hu' ((hl n).mpr (Or.inr rfl))
  · rw [Function.update_of_ne hkn]
    rcases hm : mapOf live key val k with _ | v
    · rw [mapOf_eq_none] at hm ⊢
      intro x hx
      rcases (hl x).mp hx with hx | rfl
      · rw [hk x hx]; exact hm x hx
      · exact Ne.symm hkn
    · obtain ⟨x, hx, rfl, rfl⟩ := exists_of_mapOf_eq_some hm
      rw [← hk x hx, ← hv x hx]
      exact mapOf_eq_some hu' ((hl x).mpr (Or.inl hx))

/-- A node is live no more: the map loses its key. -/
theorem mapOf_remove {n : α} (hl : ∀ x, live' x ↔ live x ∧ x ≠ n) (hn : live n)
    (hk : ∀ x, live x → key' x = key x) (hv : ∀ x, live x → val' x = val x)
    (hu : Unique live key) :
    mapOf live' key' val' = Function.update (mapOf live key val) (key n) none := by
  have hu' : Unique live' key' := fun x y hx hy he =>
    hu x y ((hl x).mp hx).1 ((hl y).mp hy).1
      (by rw [← hk x ((hl x).mp hx).1, ← hk y ((hl y).mp hy).1]; exact he)
  funext k
  by_cases hkn : k = key n
  · subst hkn
    rw [Function.update_self, mapOf_eq_none]
    intro x hx he
    obtain ⟨hx, hxn⟩ := (hl x).mp hx
    exact hxn (hu x n hx hn (by rw [← hk x hx]; exact he))
  · rw [Function.update_of_ne hkn]
    rcases hm : mapOf live key val k with _ | v
    · rw [mapOf_eq_none] at hm ⊢
      exact fun x hx => by rw [hk x ((hl x).mp hx).1]; exact hm x ((hl x).mp hx).1
    · obtain ⟨x, hx, rfl, rfl⟩ := exists_of_mapOf_eq_some hm
      rw [← hk x hx, ← hv x hx]
      exact mapOf_eq_some hu' ((hl x).mpr ⟨hx, fun he => hkn (he ▸ rfl)⟩)

end mapOf

end Chain
