/-
# Sorted lists of several levels

What the skip lists share. A `TowerView` says how a skip list reads
its nodes; every level of it is a sorted list (`TowerView.level`). A write
`p->next[i] = q` changes level `i` only: it links a new node there, or unlinks
some (`Swing`).

Key theorems: `Swing.link_lnk`, `Swing.splice_lnk`, `Swing.unlink_lnk`.
-/
import Ascylib.ListHeap

set_option linter.unusedSectionVars false

namespace Ascylib

open Concur Chain

/-- How a skip list reads its nodes: a dead node does not hold its key. -/
structure TowerView (N T K V : Type*) where
  key : N → K
  val : N → V
  next : N → ℕ → Ptr T
  dead : N → Prop

namespace TowerView

variable {T N K V : Type*} [DecidableEq T] (D : TowerView N T K V)

/-- The list at level `i`. -/
abbrev level (i : ℕ) : NodeView N T K V := ⟨D.key, D.val, fun n => D.next n i, D.dead⟩

/-- The node is linked at level `i`. -/
abbrev Lnk (i : ℕ) (s : Memory T N) (x : Ptr T) : Prop := (D.level i).Lnk s x

/-- The node has been linked at level `i`. -/
abbrev Pub (i : ℕ) (S : Set (Memory T N)) (x : Ptr T) : Prop := (D.level i).Pub S x

/-- A write `p->next[i] = q`. -/
structure Swing (s s' : Memory T N) (i : ℕ) (p q : Ptr T) : Prop where
  other : ∀ x, x ≠ p → s'.mem x = s.mem x
  key : D.key (s'.mem p) = D.key (s.mem p)
  val : D.val (s'.mem p) = D.val (s.mem p)
  dead : D.dead (s'.mem p) ↔ D.dead (s.mem p)
  next : D.next (s'.mem p) i = q
  levels : ∀ j, j ≠ i → D.next (s'.mem p) j = D.next (s.mem p) j
  count : s'.count = s.count

variable [LinearOrder K]

/-- A step that leaves every level alone. -/
abbrev Same (S : Set (Memory T N)) (s s' : Memory T N) : Prop := ∀ i, (D.level i).Same S s s'

variable [BoundedOrder K]

/-- Every level is in order. -/
abbrev Listed (S : Set (Memory T N)) (s : Memory T N) : Prop := ∀ i, (D.level i).Listed S s

variable {D} {S W : Set (Memory T N)} {s s' : Memory T N} {p q n c : Ptr T} {i : ℕ}

/-- A step that does not touch the nodes of level 0. -/
theorem same_of_mem (h : ∀ x, D.Pub 0 S x → s'.mem x = s.mem x)
    (hdown : ∀ i x, D.Pub i S x → D.Pub 0 S x) (hc : ∀ u, s.count u ≤ s'.count u) :
    D.Same S s s' :=
  fun i => NodeView.same_of_mem (fun x hx => h x (hdown i x hx)) hc

namespace Swing

variable (h : D.Swing s s' i p q)

include h

omit [LinearOrder K] [BoundedOrder K] in
theorem key_eq (x : Ptr T) : D.key (s'.mem x) = D.key (s.mem x) := by
  by_cases hx : x = p
  · rw [hx]
    exact h.key
  · rw [h.other x hx]

omit [LinearOrder K] [BoundedOrder K] in
theorem val_eq (x : Ptr T) : D.val (s'.mem x) = D.val (s.mem x) := by
  by_cases hx : x = p
  · rw [hx]
    exact h.val
  · rw [h.other x hx]

omit [LinearOrder K] [BoundedOrder K] in
theorem next_of_ne {x : Ptr T} {j : ℕ} (hne : x ≠ p ∨ j ≠ i) :
    D.next (s'.mem x) j = D.next (s.mem x) j := by
  by_cases hx : x = p
  · rw [hx]
    exact h.levels j (hne.resolve_left fun hn => hn hx)
  · rw [h.other x hx]

omit [LinearOrder K] [BoundedOrder K] in
/-- On its own level it is a write to a list. -/
theorem level : (D.level i).Swing s s' p q := ⟨h.other, h.key, h.val, h.dead, h.next, h.count⟩

omit [BoundedOrder K] in
/-- The other levels stay as they are. -/
theorem same {j : ℕ} (hj : j ≠ i) : (D.level j).Same S s s' :=
  ⟨fun x _ => h.key_eq x, fun x _ => h.val_eq x, fun _ _ _ => h.next_of_ne (Or.inr hj),
    fun _ => by rw [h.count]⟩

end Swing

/-! ### Linking a node at a level -/

namespace Swing

section link

variable (h : D.Swing s s' i p n) (w : D.Listed S s) (hp : D.Lnk i s p) (hpt : p ≠ .tail)
  (hn : ¬ D.Pub i S n) (hnq : D.next (s.mem n) i = D.next (s.mem p) i)

include h w hp hpt hn hnq

theorem link_lnk (j : ℕ) (x : Ptr T) : D.Lnk j s' x ↔ D.Lnk j s x ∨ j = i ∧ x = n := by
  by_cases hj : j = i
  · subst hj
    rw [Lnk, h.level.link_lnk (w j) hp hpt hn hnq]
    simp
  · rw [Lnk, (h.same hj).lnk (w j)]
    simp [hj]

theorem link_pub (j : ℕ) (x : Ptr T) :
    D.Pub j (insert s' S) x ↔ D.Pub j S x ∨ j = i ∧ x = n := by
  by_cases hj : j = i
  · subst hj
    rw [Pub, h.level.link_pub (w j) hp hpt hn hnq]
    simp
  · rw [Pub, (h.same hj).pub (w j)]
    simp [hj]

theorem link_listed (h1 : D.key (s.mem p) < D.key (s.mem n))
    (h2 : D.key (s.mem n) < D.key (s.mem (D.next (s.mem p) i)))
    (ha : ∃ t m, n = .node t m ∧ m < s.count t) : D.Listed (insert s' S) s' := by
  intro j
  by_cases hj : j = i
  · subst hj
    exact h.level.link_listed (w j) hp hpt hn hnq h1 h2 ha
  · exact (h.same hj).listed (w j)

end link

/-! ### Unlinking nodes at a level -/

section splice

variable {r : Ptr T} (h : D.Swing s s' i p r) (w : D.Listed S s) (hp : D.Lnk i s p)
  (hr : D.Lnk i s r) (hk : D.key (s.mem p) < D.key (s.mem r))

include h w hp hr hk

theorem splice_lnk (j : ℕ) (x : Ptr T) : D.Lnk j s' x ↔ D.Lnk j s x ∧
    (j = i → D.key (s.mem x) ≤ D.key (s.mem p) ∨ D.key (s.mem r) ≤ D.key (s.mem x)) := by
  by_cases hj : j = i
  · subst hj
    rw [Lnk, h.level.splice_lnk (w j) hp hr hk]
    simp
  · rw [Lnk, (h.same hj).lnk (w j)]
    simp [hj]

theorem splice_pub (j : ℕ) (x : Ptr T) : D.Pub j (insert s' S) x ↔ D.Pub j S x := by
  by_cases hj : j = i
  · subst hj
    exact h.level.splice_pub (w j) hp hr hk x
  · exact (h.same hj).pub (w j) x

theorem splice_listed : D.Listed (insert s' S) s' := by
  intro j
  by_cases hj : j = i
  · subst hj
    exact h.level.splice_listed (w j) hp hr hk
  · exact (h.same hj).listed (w j)

end splice

section unlink

variable (h : D.Swing s s' i p (D.next (s.mem c) i)) (w : D.Listed S s) (hp : D.Lnk i s p)
  (hpt : p ≠ .tail) (hc : D.next (s.mem p) i = c) (hct : c ≠ .tail)

include h w hp hpt hc hct

theorem unlink_lnk (j : ℕ) (x : Ptr T) : D.Lnk j s' x ↔ D.Lnk j s x ∧ ¬ (j = i ∧ x = c) := by
  by_cases hj : j = i
  · subst hj
    rw [Lnk, h.level.unlink_lnk (w j) hp hpt hc hct]
    simp
  · rw [Lnk, (h.same hj).lnk (w j)]
    simp [hj]

theorem unlink_pub (j : ℕ) (x : Ptr T) : D.Pub j (insert s' S) x ↔ D.Pub j S x := by
  by_cases hj : j = i
  · subst hj
    exact h.level.unlink_pub (w j) hp hpt hc hct x
  · exact (h.same hj).pub (w j) x

theorem unlink_listed : D.Listed (insert s' S) s' := by
  intro j
  by_cases hj : j = i
  · subst hj
    exact h.level.unlink_listed (w j) hp hpt hc hct
  · exact (h.same hj).listed (w j)

end unlink

end Swing

end TowerView

end Ascylib
