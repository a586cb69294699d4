/-
# Sorted lists in a memory of nodes

What the sorted lists of the library share, whatever else their nodes hold. A
`NodeView` says how a list reads its nodes. The list is what is met from the
head to the tail (`Lnk`), and it stands for the map of its live nodes
(`absMap`). `Listed` is what every step keeps: the list is sorted now and was
at every moment, and keys and values of linked nodes never change.

A step leaves the list alone (`Same`), or swings the pointer of a linked node
(`Swing`), to a new node or past some old ones.

What a traversal learns without validating comes at the end (`Walked`,
`Passed`), from hindsight.
-/
import Ascylib.Memory
import Ascylib.Search
import Ascylib.Concur.Chain
import Ascylib.Concur.Hindsight
import Mathlib.Order.BoundedOrder.Basic

set_option linter.unusedSectionVars false

namespace Ascylib

open Concur Chain

/-- How a list reads its nodes: a dead node does not hold its key any more. -/
structure NodeView (N T K V : Type*) where
  key : N → K
  val : N → V
  next : N → Ptr T
  dead : N → Prop

namespace NodeView

variable {T N K V : Type*} [DecidableEq T] (D : NodeView N T K V)

/-- The successor of a node. -/
abbrev succ (s : Memory T N) (x : Ptr T) : Ptr T := D.next (s.mem x)

/-- The node is linked from the head. -/
abbrev Lnk (s : Memory T N) (x : Ptr T) : Prop := Linked (D.succ s) .head .tail x

/-- The node has been linked. -/
abbrev Pub (S : Set (Memory T N)) (x : Ptr T) : Prop := Met D.Lnk S x

/-- A linked node that is not dead, nor a sentinel: its key is present. -/
def Live (s : Memory T N) (x : Ptr T) : Prop :=
  D.Lnk s x ∧ ¬ D.dead (s.mem x) ∧ x ≠ .head ∧ x ≠ .tail

/-- The map the list stands for. -/
noncomputable def absMap (s : Memory T N) : K → Option V :=
  mapOf (D.Live s) (fun x => D.key (s.mem x)) fun x => D.val (s.mem x)

variable [LinearOrder K]

theorem absMap_ne_none {D : NodeView N T K V} {s : Memory T N} {k : K} :
    D.absMap s k ≠ none ↔ ∃ x, D.Live s x ∧ D.key (s.mem x) = k := by
  rw [ne_eq, show D.absMap s k = none ↔ _ from mapOf_eq_none]
  push Not
  rfl

/-- A list in order, in a run that went through the memories `S`. -/
structure Listed [BoundedOrder K] (S : Set (Memory T N)) (s : Memory T N) : Prop where
  mem : s ∈ S
  past : ∀ s₀ ∈ S, Sorted (D.succ s₀) (fun x => D.key (s₀.mem x)) .head .tail
  head_key : D.key (s.mem .head) = ⊥
  tail_key : D.key (s.mem .tail) = ⊤
  alloc : ∀ x, D.Pub S x → s.Allocated x
  const : ∀ s₀ ∈ S, ∀ x, D.Lnk s₀ x →
    D.key (s₀.mem x) = D.key (s.mem x) ∧ D.val (s₀.mem x) = D.val (s.mem x)

/-- A step that leaves the successors of the linked nodes alone. -/
structure Same (S : Set (Memory T N)) (s s' : Memory T N) : Prop where
  key : ∀ x, D.Pub S x → D.key (s'.mem x) = D.key (s.mem x)
  val : ∀ x, D.Pub S x → D.val (s'.mem x) = D.val (s.mem x)
  next : ∀ x, D.Pub S x → D.Lnk s x → D.next (s'.mem x) = D.next (s.mem x)
  count : ∀ u, s.count u ≤ s'.count u

/-- A write `p->next = q`. -/
structure Swing (s s' : Memory T N) (p q : Ptr T) : Prop where
  other : ∀ x, x ≠ p → s'.mem x = s.mem x
  key : D.key (s'.mem p) = D.key (s.mem p)
  val : D.val (s'.mem p) = D.val (s.mem p)
  dead : D.dead (s'.mem p) ↔ D.dead (s.mem p)
  next : D.next (s'.mem p) = q
  count : s'.count = s.count

variable {D} [BoundedOrder K] {S W : Set (Memory T N)} {s s' : Memory T N} {p q r n : Ptr T}

theorem pub_insert {x : Ptr T} : D.Pub (insert s' S) x ↔ D.Lnk s' x ∨ D.Pub S x := by
  simp [Met]

namespace Listed

variable (w : D.Listed S s)

include w

theorem sorted : Sorted (D.succ s) (fun x => D.key (s.mem x)) .head .tail := w.past s w.mem

theorem past_insert (h : Sorted (D.succ s') (fun x => D.key (s'.mem x)) .head .tail) :
    ∀ s₀ ∈ insert s' S, Sorted (D.succ s₀) (fun x => D.key (s₀.mem x)) .head .tail := by
  intro s₀ hs₀
  rcases Set.mem_insert_iff.mp hs₀ with rfl | hs₀
  · exact h
  · exact w.past s₀ hs₀

theorem const_insert (hk : ∀ x, D.Pub S x → D.key (s'.mem x) = D.key (s.mem x))
    (hv : ∀ x, D.Pub S x → D.val (s'.mem x) = D.val (s.mem x)) :
    ∀ s₀ ∈ insert s' S, ∀ x, D.Lnk s₀ x →
      D.key (s₀.mem x) = D.key (s'.mem x) ∧ D.val (s₀.mem x) = D.val (s'.mem x) := by
  intro s₀ hs₀ x hx
  rcases Set.mem_insert_iff.mp hs₀ with rfl | hs₀
  · exact ⟨rfl, rfl⟩
  · rw [hk x ⟨s₀, hs₀, hx⟩, hv x ⟨s₀, hs₀, hx⟩]
    exact w.const s₀ hs₀ x hx

theorem pub_lnk {x : Ptr T} (h : D.Lnk s x) : D.Pub S x := ⟨s, w.mem, h⟩

theorem pub_head : D.Pub S .head := w.pub_lnk linked_head

theorem pub_tail : D.Pub S .tail := w.pub_lnk w.sorted.tail

theorem ne_tail_of_lt {x : Ptr T} {k : K} (h : D.key (s.mem x) < k) : x ≠ .tail := by
  rintro rfl
  rw [w.tail_key] at h
  exact absurd h not_top_lt

theorem ne_head_of_lt {x : Ptr T} {k : K} (h : k < D.key (s.mem x)) : x ≠ .head := by
  rintro rfl
  rw [w.head_key] at h
  exact absurd h not_lt_bot

theorem unique_past {s₀ : Memory T N} (h : s₀ ∈ S) :
    Unique (D.Live s₀) fun x => D.key (s₀.mem x) :=
  fun _ _ hx hy he => (w.past s₀ h).inj hx.1 hy.1 he

theorem unique : Unique (D.Live s) fun x => D.key (s.mem x) := w.unique_past w.mem

/-- A pub node is not the next one to be allocated. -/
theorem not_pub_next (t : T) : ¬ D.Pub S (.node t (s.count t)) := fun hp =>
  s.not_allocated_next t (w.alloc _ hp)

end Listed

/-! ### Steps that leave the list alone -/

namespace Same

variable (w : D.Listed S s) (h : D.Same S s s')

include w h

theorem lnk (x : Ptr T) : D.Lnk s' x ↔ D.Lnk s x := by
  refine ⟨fun hx => ?_, fun hx => hx.congr fun y hy _ => h.next y (w.pub_lnk hy) hy⟩
  induction hx with
  | refl => exact linked_head
  | @tail y z _ hyz ih =>
    obtain ⟨hne, rfl⟩ := hyz
    rw [succ, h.next y (w.pub_lnk ih) ih]
    exact ih.next hne

theorem pub (x : Ptr T) : D.Pub (insert s' S) x ↔ D.Pub S x := by
  rw [pub_insert, h.lnk w]
  exact ⟨fun hx => hx.elim w.pub_lnk id, Or.inr⟩

theorem listed : D.Listed (insert s' S) s' := by
  have hl := h.lnk w
  refine ⟨Set.mem_insert _ _, w.past_insert ⟨fun x hx hxt => ?_, (hl _).mpr w.sorted.tail⟩,
    by rw [h.key _ w.pub_head]; exact w.head_key, by rw [h.key _ w.pub_tail]; exact w.tail_key,
    fun x hx => ?_, w.const_insert h.key h.val⟩
  · have hx := (hl x).mp hx
    have hp := w.pub_lnk hx
    have hlt := w.sorted.step x hx hxt
    simp only [succ, h.next x hp hx, h.key x hp, h.key _ (w.pub_lnk (hx.next hxt))]
    exact hlt
  · exact (w.alloc x ((h.pub w x).mp hx)).mono h.count

theorem live (hd : ∀ x, D.Lnk s x → (D.dead (s'.mem x) ↔ D.dead (s.mem x))) (x : Ptr T) :
    D.Live s' x ↔ D.Live s x := by
  unfold Live
  rw [h.lnk w]
  exact and_congr_right fun hx => by rw [hd x hx]

theorem absMap (hd : ∀ x, D.Lnk s x → (D.dead (s'.mem x) ↔ D.dead (s.mem x))) :
    D.absMap s' = D.absMap s :=
  mapOf_congr (h.live w hd) (fun x hx => h.key x (w.pub_lnk hx.1))
    (fun x hx => h.val x (w.pub_lnk hx.1)) w.unique

/-- A live node dies: the map loses its key. -/
theorem kill [DecidableEq K] (hp : D.Live s p) (hd : D.dead (s'.mem p))
    (ho : ∀ x, D.Lnk s x → x ≠ p → (D.dead (s'.mem x) ↔ D.dead (s.mem x))) :
    D.absMap s' = Function.update (D.absMap s) (D.key (s.mem p)) none := by
  refine mapOf_remove (fun x => ?_) hp (fun x hx => h.key x (w.pub_lnk hx.1))
    (fun x hx => h.val x (w.pub_lnk hx.1)) w.unique
  unfold Live
  rw [h.lnk w]
  by_cases hx : x = p
  · subst hx; simp [hd]
  · constructor
    · rintro ⟨h1, h2, h3⟩
      exact ⟨⟨h1, by rwa [ho x h1 hx] at h2, h3⟩, hx⟩
    · rintro ⟨⟨h1, h2, h3⟩, -⟩
      exact ⟨h1, by rwa [ho x h1 hx], h3⟩

/-- A dead node comes to life: the map gains its key. -/
theorem wake [DecidableEq K] (hp : D.Lnk s p) (hp0 : p ≠ .head ∧ p ≠ .tail) (hpd : D.dead (s.mem p))
    (hd : ¬ D.dead (s'.mem p))
    (ho : ∀ x, D.Lnk s x → x ≠ p → (D.dead (s'.mem x) ↔ D.dead (s.mem x))) :
    D.absMap s' =
      Function.update (D.absMap s) (D.key (s.mem p)) (some (D.val (s.mem p))) := by
  have hkp := h.key p (w.pub_lnk hp)
  have hvp := h.val p (w.pub_lnk hp)
  have hl : ∀ x, D.Live s' x ↔ D.Live s x ∨ x = p := by
    intro x
    unfold Live
    rw [h.lnk w]
    by_cases hx : x = p
    · subst hx
      exact iff_of_true ⟨hp, hd, hp0⟩ (Or.inr rfl)
    · constructor
      · rintro ⟨h1, h2, h3⟩
        exact Or.inl ⟨h1, by rwa [ho x h1 hx] at h2, h3⟩
      · rintro (⟨h1, h2, h3⟩ | rfl)
        · exact ⟨h1, by rwa [ho x h1 hx], h3⟩
        · exact absurd rfl hx
  have hno : ∀ x, D.Live s x → D.key (s.mem x) ≠ D.key (s'.mem p) := by
    intro x hx he
    rw [hkp] at he
    exact hx.2.1 (w.sorted.inj hx.1 hp he ▸ hpd)
  have hmap := mapOf_insert hl (fun x hx => h.key x (w.pub_lnk hx.1))
    (fun x hx => h.val x (w.pub_lnk hx.1)) w.unique hno
  rwa [hkp, hvp] at hmap

end Same

/-- A dead node keeps the map from having its key. -/
theorem Listed.absMap_of_dead (w : D.Listed S s) (hp : D.Lnk s p) (hd : D.dead (s.mem p)) :
    D.absMap s (D.key (s.mem p)) = none :=
  mapOf_eq_none.mpr fun _ hx he => hx.2.1 (w.sorted.inj hx.1 hp he ▸ hd)

/-- A step that does not touch the published nodes. -/
theorem same_of_mem (h : ∀ x, D.Pub S x → s'.mem x = s.mem x) (hc : ∀ u, s.count u ≤ s'.count u) :
    D.Same S s s' :=
  ⟨fun x hx => by rw [h x hx], fun x hx => by rw [h x hx], fun x hx _ => by rw [h x hx], hc⟩

theorem same_free (S : Set (Memory T N)) (s : Memory T N) (x : Ptr T) : D.Same S s (s.ssmemFree x) :=
  same_of_mem (fun _ _ => rfl) fun _ => le_rfl

/-! ### Linking a node -/

namespace Swing

theorem key_eq (h : D.Swing s s' p q) (x : Ptr T) : D.key (s'.mem x) = D.key (s.mem x) := by
  by_cases hx : x = p
  · rw [hx]; exact h.key
  · rw [h.other x hx]

theorem val_eq (h : D.Swing s s' p q) (x : Ptr T) : D.val (s'.mem x) = D.val (s.mem x) := by
  by_cases hx : x = p
  · rw [hx]; exact h.val
  · rw [h.other x hx]

theorem dead_iff (h : D.Swing s s' p q) (x : Ptr T) : D.dead (s'.mem x) ↔ D.dead (s.mem x) := by
  by_cases hx : x = p
  · rw [hx]; exact h.dead
  · rw [h.other x hx]

section link

variable (h : D.Swing s s' p n) (w : D.Listed S s) (hp : D.Lnk s p) (hpt : p ≠ .tail)
  (hn : ¬ D.Pub S n) (hnq : D.next (s.mem n) = D.succ s p)

include h w hp hpt hn hnq

theorem link_chain : D.succ s' p = n ∧ D.succ s' n = D.succ s p ∧
    ∀ x, D.Lnk s x → x ≠ p → D.succ s' x = D.succ s x := by
  have hne : n ≠ p := fun he => hn (he ▸ w.pub_lnk hp)
  exact ⟨h.next, by rw [succ, h.other n hne, hnq], fun x _ hx => by rw [succ, h.other x hx]⟩

theorem link_lnk (x : Ptr T) : D.Lnk s' x ↔ D.Lnk s x ∨ x = n := by
  obtain ⟨h1, h2, h3⟩ := h.link_chain w hp hpt hn hnq
  exact w.sorted.linked_insert hp hpt (fun hl => hn (w.pub_lnk hl)) h1 h2 h3

theorem link_pub (x : Ptr T) : D.Pub (insert s' S) x ↔ D.Pub S x ∨ x = n := by
  rw [pub_insert, h.link_lnk w hp hpt hn hnq]
  constructor
  · rintro ((hx | hx) | hx)
    · exact Or.inl (w.pub_lnk hx)
    · exact Or.inr hx
    · exact Or.inl hx
  · rintro (hx | hx)
    · exact Or.inr hx
    · exact Or.inl (Or.inr hx)

theorem link_live (hd : ¬ D.dead (s.mem n)) (hn0 : n ≠ .head ∧ n ≠ .tail) (x : Ptr T) :
    D.Live s' x ↔ D.Live s x ∨ x = n := by
  unfold Live
  rw [h.link_lnk w hp hpt hn hnq, h.dead_iff]
  constructor
  · rintro ⟨h1 | h1, h2⟩
    · exact Or.inl ⟨h1, h2⟩
    · exact Or.inr h1
  · rintro (⟨h1, h2⟩ | rfl)
    · exact ⟨Or.inl h1, h2⟩
    · exact ⟨Or.inr rfl, hd, hn0⟩

/-- Linking a dead node does not change the map. -/
theorem link_dead_absMap (hd : D.dead (s.mem n)) : D.absMap s' = D.absMap s := by
  refine mapOf_congr (fun x => ?_) (fun x _ => h.key_eq x) (fun x _ => h.val_eq x) w.unique
  unfold Live
  rw [h.link_lnk w hp hpt hn hnq, h.dead_iff]
  constructor
  · rintro ⟨h1 | rfl, h2, h3⟩
    · exact ⟨h1, h2, h3⟩
    · exact absurd hd h2
  · rintro ⟨h1, h2⟩
    exact ⟨Or.inl h1, h2⟩

variable (h1 : D.key (s.mem p) < D.key (s.mem n))
  (h2 : D.key (s.mem n) < D.key (s.mem (D.succ s p)))

include h1 h2

theorem link_listed (ha : ∃ t i, n = .node t i ∧ i < s.count t) : D.Listed (insert s' S) s' := by
  obtain ⟨c1, c2, c3⟩ := h.link_chain w hp hpt hn hnq
  have hs := w.sorted.sorted_insert hp hpt (fun hl => hn (w.pub_lnk hl)) c1 c2 c3 h1 h2
  have hkey : (fun x => D.key (s'.mem x)) = fun x => D.key (s.mem x) := funext h.key_eq
  refine ⟨Set.mem_insert _ _, w.past_insert (by rw [hkey]; exact hs),
    by rw [h.key_eq]; exact w.head_key, by rw [h.key_eq]; exact w.tail_key, fun x hx => ?_,
    w.const_insert (fun x _ => h.key_eq x) fun x _ => h.val_eq x⟩
  rw [Memory.Allocated, h.count]
  rcases (h.link_pub w hp hpt hn hnq x).mp hx with hx | rfl
  · exact w.alloc x hx
  · exact Or.inr (Or.inr ha)

/-- Linking a node adds its key to the map. -/
theorem link_absMap [DecidableEq K] (hd : ¬ D.dead (s.mem n)) (hn0 : n ≠ .head ∧ n ≠ .tail) :
    D.absMap s (D.key (s.mem n)) = none ∧ D.absMap s' =
      Function.update (D.absMap s) (D.key (s.mem n)) (some (D.val (s.mem n))) := by
  have hno : ∀ x, D.Live s x → D.key (s.mem x) ≠ D.key (s.mem n) := fun x hx =>
    w.sorted.absent hp hpt h1 h2 hx.1
  refine ⟨mapOf_eq_none.mpr hno, ?_⟩
  have := mapOf_insert (h.link_live w hp hpt hn hnq hd hn0) (fun x _ => h.key_eq x)
    (fun x _ => h.val_eq x) w.unique fun x hx => by rw [h.key_eq]; exact hno x hx
  rwa [h.key_eq, h.val_eq] at this

end link

/-! ### Unlinking nodes -/

section splice

variable (h : D.Swing s s' p r) (w : D.Listed S s) (hp : D.Lnk s p) (hr : D.Lnk s r)
  (hk : D.key (s.mem p) < D.key (s.mem r))

include h w hp hr hk

theorem splice_lnk (x : Ptr T) : D.Lnk s' x ↔
    D.Lnk s x ∧ (D.key (s.mem x) ≤ D.key (s.mem p) ∨ D.key (s.mem r) ≤ D.key (s.mem x)) :=
  w.sorted.linked_splice hp hr hk h.next fun x _ hx => by rw [succ, h.other x hx]

theorem splice_pub (x : Ptr T) : D.Pub (insert s' S) x ↔ D.Pub S x := by
  rw [pub_insert, h.splice_lnk w hp hr hk]
  exact ⟨fun hx => hx.elim (fun hx => w.pub_lnk hx.1) id, Or.inr⟩

theorem splice_listed : D.Listed (insert s' S) s' := by
  have hs : Sorted (D.succ s') (fun x => D.key (s.mem x)) .head .tail :=
    w.sorted.sorted_splice hp hr hk h.next fun x _ hx => by rw [succ, h.other x hx]
  have hkey : (fun x => D.key (s'.mem x)) = fun x => D.key (s.mem x) := funext h.key_eq
  refine ⟨Set.mem_insert _ _, w.past_insert (by rw [hkey]; exact hs),
    by rw [h.key_eq]; exact w.head_key, by rw [h.key_eq]; exact w.tail_key, fun x hx => ?_,
    w.const_insert (fun x _ => h.key_eq x) fun x _ => h.val_eq x⟩
  rw [Memory.Allocated, h.count]
  exact w.alloc x ((h.splice_pub w hp hr hk x).mp hx)

/-- Unlinking dead nodes does not change the map. -/
theorem splice_absMap (hd : ∀ x, D.Lnk s x → D.key (s.mem p) < D.key (s.mem x) →
    D.key (s.mem x) < D.key (s.mem r) → D.dead (s.mem x)) :
    (∀ x, D.Live s' x ↔ D.Live s x) ∧ D.absMap s' = D.absMap s := by
  have hl : ∀ x, D.Live s' x ↔ D.Live s x := by
    intro x
    unfold Live
    rw [h.splice_lnk w hp hr hk, h.dead_iff]
    constructor
    · rintro ⟨⟨h1, -⟩, h2⟩
      exact ⟨h1, h2⟩
    · rintro ⟨h1, h2, h3⟩
      refine ⟨⟨h1, ?_⟩, h2, h3⟩
      by_contra h4
      rw [not_or, not_le, not_le] at h4
      exact h2 (hd x h1 h4.1 h4.2)
  exact ⟨hl, mapOf_congr hl (fun x _ => h.key_eq x) (fun x _ => h.val_eq x) w.unique⟩

end splice

section unlink

variable {c : Ptr T} (h : D.Swing s s' p (D.succ s c)) (w : D.Listed S s) (hp : D.Lnk s p)
  (hpt : p ≠ .tail) (hc : D.succ s p = c) (hct : c ≠ .tail)

include w hp hpt hc hct

theorem unlink_chain : D.Lnk s c ∧ D.Lnk s (D.succ s c) ∧ D.key (s.mem p) < D.key (s.mem c) ∧
    D.key (s.mem c) < D.key (s.mem (D.succ s c)) := by
  have hlc : D.Lnk s c := hc ▸ hp.next hpt
  exact ⟨hlc, hlc.next hct, hc ▸ w.sorted.step p hp hpt, w.sorted.step c hlc hct⟩

include h

/-- Swinging a pointer past one node unlinks it. -/
theorem unlink_lnk (x : Ptr T) : D.Lnk s' x ↔ D.Lnk s x ∧ x ≠ c := by
  obtain ⟨h1, h2, h3, h4⟩ := unlink_chain w hp hpt hc hct
  rw [h.splice_lnk w hp h2 (h3.trans h4)]
  refine and_congr_right fun hx => ?_
  constructor
  · rintro (h5 | h5) rfl
    · exact absurd h3 (not_lt.mpr h5)
    · exact absurd h4 (not_lt.mpr h5)
  · intro hne
    rcases w.sorted.le_or_next_le hp hpt hx with h5 | h5
    · exact Or.inl h5
    · rw [hc] at h5
      rcases w.sorted.le_or_next_le h1 hct hx with h6 | h6
      · exact absurd (w.sorted.inj hx h1 (le_antisymm h6 h5)) hne
      · exact Or.inr h6

theorem unlink_pub (x : Ptr T) : D.Pub (insert s' S) x ↔ D.Pub S x := by
  obtain ⟨-, h2, h3, h4⟩ := unlink_chain w hp hpt hc hct
  exact h.splice_pub w hp h2 (h3.trans h4) x

theorem unlink_listed : D.Listed (insert s' S) s' := by
  obtain ⟨-, h2, h3, h4⟩ := unlink_chain w hp hpt hc hct
  exact h.splice_listed w hp h2 (h3.trans h4)

theorem unlink_live (x : Ptr T) : D.Live s' x ↔ D.Live s x ∧ x ≠ c := by
  unfold Live
  rw [h.unlink_lnk w hp hpt hc hct, h.dead_iff]
  tauto

/-- Unlinking a live node removes its key from the map. -/
theorem unlink_absMap [DecidableEq K] (hl : D.Live s c) :
    D.absMap s' = Function.update (D.absMap s) (D.key (s.mem c)) none :=
  mapOf_remove (h.unlink_live w hp hpt hc hct) hl (fun x _ => h.key_eq x) (fun x _ => h.val_eq x)
    w.unique

/-- Unlinking a dead node does not change the map. -/
theorem unlink_dead_absMap (hd : D.dead (s.mem c)) : D.absMap s' = D.absMap s := by
  obtain ⟨h1, h2, h3, h4⟩ := unlink_chain w hp hpt hc hct
  refine (h.splice_absMap w hp h2 (h3.trans h4) fun x hx h5 h6 => ?_).2
  have h7 : D.key (s.mem c) ≤ D.key (s.mem x) :=
    hc ▸ (w.sorted.le_or_next_le hp hpt hx).resolve_left (not_le.mpr h5)
  have h8 := (w.sorted.le_or_next_le h1 hct hx).resolve_right (not_le.mpr h6)
  rw [w.sorted.inj hx h1 (le_antisymm h8 h7)]
  exact hd

end unlink

end Swing

/-! ### What a traversal learns -/

/-- The key was absent at some moment of the window. -/
def NoneSeen (D : NodeView N T K V) (W : Set (Memory T N)) (k : K) : Prop :=
  ∃ s ∈ W, D.absMap s k = none

/-- The key was present with this value at some moment of the window. -/
def SomeSeen (D : NodeView N T K V) (W : Set (Memory T N)) (k : K) (v : V) : Prop :=
  ∃ s ∈ W, D.absMap s k = some v

theorem NoneSeen.insert {k : K} (h : D.NoneSeen W k) (s' : Memory T N) :
    D.NoneSeen (insert s' W) k :=
  let ⟨s, hs, he⟩ := h
  ⟨s, Set.mem_insert_of_mem _ hs, he⟩

theorem SomeSeen.insert {k : K} {v : V} (h : D.SomeSeen W k v) (s' : Memory T N) :
    D.SomeSeen (insert s' W) k v :=
  let ⟨s, hs, he⟩ := h
  ⟨s, Set.mem_insert_of_mem _ hs, he⟩

/-- A node a traversal has come to: it was linked, and if its key is larger
than the one looked for, a moment without that key has been seen. -/
def Walked (D : NodeView N T K V) (W : Set (Memory T N)) (s : Memory T N) (k : K) (x : Ptr T) :
    Prop :=
  Met D.Lnk W x ∧ (D.key (s.mem x) ≤ k ∨ D.NoneSeen W k)

/-- As `Walked`, and the node itself has been seen not to hold the key. -/
def Passed (D : NodeView N T K V) (W : Set (Memory T N)) (s : Memory T N) (k : K) (x : Ptr T) :
    Prop :=
  Met D.Lnk W x ∧ (D.key (s.mem x) < k ∨ D.NoneSeen W k)

/-- The nodes show the successors they had when they were linked. -/
abbrev Hind (D : NodeView N T K V) (W : Set (Memory T N)) (s : Memory T N) : Prop :=
  Hindsight D.Lnk D.succ W s

/-- The first node of the list. -/
theorem Listed.walked_first {k : K} (w : D.Listed S s) (hs : s ∈ W) (hk : ⊥ < k) :
    D.Walked W s k (D.succ s .head) := by
  have hht : (.head : Ptr T) ≠ .tail := nofun
  refine ⟨⟨s, hs, linked_head.next hht⟩, ?_⟩
  rcases le_or_gt (D.key (s.mem (D.succ s .head))) k with h | h
  · exact Or.inl h
  · refine Or.inr ⟨s, hs, mapOf_eq_none.mpr fun y hy => ?_⟩
    exact w.sorted.absent linked_head hht (lt_of_eq_of_lt w.head_key hk) h hy.1

section learn

variable {k : K} {x : Ptr T}

theorem Walked.step (h : D.Walked W s k x) (hk : D.key (s'.mem x) = D.key (s.mem x)) :
    D.Walked (insert s' W) s' k x :=
  ⟨h.1.insert s', by rw [hk]; exact h.2.imp_right fun h => h.insert s'⟩

theorem Passed.step (h : D.Passed W s k x) (hk : D.key (s'.mem x) = D.key (s.mem x)) :
    D.Passed (insert s' W) s' k x :=
  ⟨h.1.insert s', by rw [hk]; exact h.2.imp_right fun h => h.insert s'⟩

variable (w : D.Listed S s) (hW : W ⊆ S)

include w

/-- A node was live at the moment when it was linked and not dead. -/
theorem Listed.absMap_past {s₀ : Memory T N} (h₀ : s₀ ∈ S) (hl : D.Live s₀ x) :
    D.absMap s₀ (D.key (s.mem x)) = some (D.val (s.mem x)) := by
  obtain ⟨hk, hv⟩ := w.const s₀ h₀ x hl.1
  rw [← hk, ← hv]
  exact mapOf_eq_some (w.unique_past h₀) hl

include hW

/-- A key strictly between two neighbours of some moment was absent then. -/
theorem Listed.noneSeen_of_next {s₀ : Memory T N} (h₀ : s₀ ∈ W) (hl : D.Lnk s₀ x)
    (h1 : D.key (s.mem x) < k) (h2 : k < D.key (s.mem (D.succ s₀ x))) : D.NoneSeen W k := by
  have hxt := w.ne_tail_of_lt h1
  refine ⟨s₀, h₀, mapOf_eq_none.mpr fun y hy => (w.past s₀ (hW h₀)).absent hl hxt ?_ ?_ hy.1⟩
  · rw [(w.const s₀ (hW h₀) x hl).1]; exact h1
  · rw [(w.const s₀ (hW h₀) _ (hl.next hxt)).1]; exact h2

variable (h : D.Hind W s)

include h

theorem Listed.met_succ (hx : Met D.Lnk W x) (hxt : x ≠ .tail) : Met D.Lnk W (D.succ s x) := by
  obtain ⟨s₀, hs₀, hl, hv⟩ := h x hx
  exact ⟨s₀, hs₀, hv ▸ hl.next hxt⟩

/-- One step on along the list, from a node that does not hold the key. -/
theorem Passed.next (hx : D.Passed W s k x) (hxt : x ≠ .tail) : D.Walked W s k (D.succ s x) := by
  refine ⟨w.met_succ hW h hx.1 hxt, ?_⟩
  rcases hx.2 with hlt | hn
  · rcases le_or_gt (D.key (s.mem (D.succ s x))) k with h1 | h1
    · exact Or.inl h1
    · obtain ⟨s₀, hs₀, hl, hv⟩ := h x hx.1
      exact Or.inr (w.noneSeen_of_next hW hs₀ hl hlt (by rw [hv]; exact h1))
  · exact Or.inr hn

end learn

/-! ### Dead nodes -/

/-- The nodes show the successors they had when they were linked, and were
dead then if they are now. -/
abbrev HindDead (D : NodeView N T K V) (W : Set (Memory T N)) (s : Memory T N) : Prop :=
  Hindsight D.Lnk (fun s x => (D.succ s x, D.dead (s.mem x))) W s

theorem HindDead.hind (h : D.HindDead W s) : D.Hind W s := fun x hx =>
  let ⟨s₀, h0, hl, hv⟩ := h x hx
  ⟨s₀, h0, hl, congrArg Prod.fst hv⟩

/-- A traversal that meets a dead node saw a moment without its key. -/
theorem Listed.noneSeen_of_dead (w : D.Listed S s) (hW : W ⊆ S) (h : D.HindDead W s) {x : Ptr T}
    (hx : Met D.Lnk W x) (hd : D.dead (s.mem x)) : D.NoneSeen W (D.key (s.mem x)) := by
  obtain ⟨s₀, h0, hl, hv⟩ := h x hx
  refine ⟨s₀, h0, mapOf_eq_none.mpr fun y hy he => hy.2.1 ?_⟩
  have hyx : y = x := (w.past s₀ (hW h0)).inj hy.1 hl (he.trans (w.const s₀ (hW h0) x hl).1.symm)
  rw [hyx, show D.dead (s₀.mem x) = D.dead (s.mem x) from congrArg Prod.snd hv]
  exact hd

/-! ### The empty list -/

section empty

variable (h : D.succ s .head = .tail)

include h

theorem lnk_empty (x : Ptr T) : D.Lnk s x ↔ x = .head ∨ x = .tail := by
  constructor
  · intro hx
    induction hx with
    | refl => exact Or.inl rfl
    | @tail y z _ hyz ih =>
      obtain ⟨hne, rfl⟩ := hyz
      rcases ih with rfl | rfl
      · exact Or.inr h
      · exact absurd rfl hne
  · rintro (rfl | rfl)
    · exact linked_head
    · have hl : D.Lnk s .head := linked_head
      exact h ▸ hl.next nofun

theorem pub_empty (x : Ptr T) : D.Pub {s} x ↔ x = .head ∨ x = .tail := by
  simp [Met, lnk_empty h]

theorem absMap_empty : D.absMap s = fun _ => none := by
  funext k
  rw [absMap, mapOf_eq_none]
  rintro x ⟨hx, -, hh, ht⟩
  rcases (lnk_empty h x).mp hx with rfl | rfl
  · exact absurd rfl hh
  · exact absurd rfl ht

theorem Listed.initial [Nontrivial K] (hh : D.key (s.mem .head) = ⊥) (ht : D.key (s.mem .tail) = ⊤) :
    D.Listed {s} s := by
  refine ⟨rfl, ?_, hh, ht, fun x hx => ?_, ?_⟩
  · rintro s₀ rfl
    refine ⟨fun x hx hxt => ?_, (lnk_empty h _).mpr (Or.inr rfl)⟩
    rcases (lnk_empty h x).mp hx with rfl | rfl
    · rw [h, hh, ht]; exact bot_lt_top
    · exact absurd rfl hxt
  · exact ((pub_empty h x).mp hx).imp_right Or.inl
  · rintro s₀ rfl x _
    exact ⟨rfl, rfl⟩

end empty

/-! ### Counting the nodes -/

/-- `length()`: from `node` on, as long as it has a successor, it counts the
nodes that `counted` accepts; `none` when it needs more than `fuel` rounds. -/
def lengthFrom (D : NodeView N T K V) (counted : N → Bool) (s : Memory T N) :
    ℕ → Ptr T → ℕ → Option ℕ
  | 0, _, _ => none
  | fuel + 1, node, size =>
    if D.succ s node = .null then some size
    else D.lengthFrom counted s fuel (D.succ s node)
      (if counted (s.mem node) then size + 1 else size)

def length (D : NodeView N T K V) (counted : N → Bool) (s : Memory T N) (fuel : ℕ) : Option ℕ :=
  D.lengthFrom counted s fuel (D.succ s .head) 0

section length

variable (w : D.Listed S s)

include w

theorem Listed.succ_ne_null {x : Ptr T} (hx : D.Lnk s x) (hxt : x ≠ .tail) : D.succ s x ≠ .null := by
  intro he
  rcases w.alloc _ (w.pub_lnk (hx.next hxt)) with h | h | ⟨t, i, h, -⟩ <;> rw [he] at h <;> cases h

variable (counted : N → Bool) (ht : D.succ s .tail = .null)
  (hc : ∀ x, D.Lnk s x → (counted (s.mem x) = true ↔ ¬ D.dead (s.mem x)))

include ht hc

/-- The loop counts the live nodes from `x` on. -/
theorem Listed.lengthFrom_eq {x : Ptr T} (hx : D.Lnk s x) (hxh : x ≠ .head) :
    {y | D.Live s y ∧ D.key (s.mem x) ≤ D.key (s.mem y)}.Finite ∧ ∃ n, ∀ fuel ≥ n, ∀ size,
      D.lengthFrom counted s fuel x size =
        some (size + {y | D.Live s y ∧ D.key (s.mem x) ≤ D.key (s.mem y)}.ncard) := by
  have hpath : Relation.ReflTransGen (Next (D.succ s) .tail) x .tail := by
    rcases hx.total w.sorted.tail with h | h
    · exact h
    · rcases h.cases_head with rfl | ⟨z, ⟨hne, -⟩, -⟩
      · exact .refl
      · exact absurd rfl hne
  induction hpath using Relation.ReflTransGen.head_induction_on with
  | refl =>
    have he : {y | D.Live s y ∧ D.key (s.mem .tail) ≤ D.key (s.mem y)} = ∅ := by
      ext y
      simp only [Set.mem_ofPred_eq, Set.mem_empty_iff_false, iff_false, not_and]
      rintro ⟨hy, -, -, hyt⟩ hle
      exact hyt (w.sorted.inj hy w.sorted.tail (le_antisymm (w.sorted.le_tail hy) hle))
    refine ⟨by rw [he]; exact Set.finite_empty, 1, fun fuel hf size => ?_⟩
    obtain ⟨m, rfl⟩ := Nat.exists_eq_add_of_le' hf
    rw [lengthFrom, if_pos ht, he]
    simp
  | @head y z hyz _ ih =>
    obtain ⟨hyt, rfl⟩ := hyz
    have hlt := w.sorted.step y hx hyt
    have hzh : D.succ s y ≠ .head := w.ne_head_of_lt hlt
    obtain ⟨hfin, n, hn⟩ := ih (hx.next hyt) hzh
    have hset : ∀ z, (D.Live s z ∧ D.key (s.mem y) ≤ D.key (s.mem z)) ↔ (z = y ∧ D.Live s y) ∨
        (D.Live s z ∧ D.key (s.mem (D.succ s y)) ≤ D.key (s.mem z)) := by
      intro z
      constructor
      · rintro ⟨hz, hle⟩
        rcases w.sorted.le_or_next_le hx hyt hz.1 with h1 | h1
        · obtain rfl := w.sorted.inj hx hz.1 (le_antisymm hle h1)
          exact Or.inl ⟨rfl, hz⟩
        · exact Or.inr ⟨hz, h1⟩
      · rintro (⟨rfl, hz⟩ | ⟨hz, hle⟩)
        · exact ⟨hz, le_rfl⟩
        · exact ⟨hz, hlt.le.trans hle⟩
    have hstep : ∀ m size, D.lengthFrom counted s (m + 1) y size = D.lengthFrom counted s m
        (D.succ s y) (if counted (s.mem y) then size + 1 else size) := by
      intro m size
      rw [lengthFrom, if_neg (w.succ_ne_null hx hyt)]
    by_cases hm : D.dead (s.mem y)
    · have hcf : ¬ counted (s.mem y) = true := fun h => (hc y hx).mp h hm
      have he : {z | D.Live s z ∧ D.key (s.mem y) ≤ D.key (s.mem z)} =
          {z | D.Live s z ∧ D.key (s.mem (D.succ s y)) ≤ D.key (s.mem z)} := by
        ext z
        rw [Set.mem_ofPred_eq, hset]
        exact or_iff_right fun h => h.2.2.1 hm
      rw [he]
      refine ⟨hfin, n + 1, fun fuel hf size => ?_⟩
      obtain ⟨m, rfl⟩ := Nat.exists_eq_add_of_le' (Nat.le_of_add_left_le hf)
      rw [hstep, hn m (by omega), if_neg hcf]
    · have hct : counted (s.mem y) = true := (hc y hx).mpr hm
      have he : {z | D.Live s z ∧ D.key (s.mem y) ≤ D.key (s.mem z)} =
          insert y {z | D.Live s z ∧ D.key (s.mem (D.succ s y)) ≤ D.key (s.mem z)} := by
        ext z
        rw [Set.mem_ofPred_eq, hset]
        exact or_congr_left (and_iff_left ⟨hx, hm, hxh, hyt⟩)
      have hny : y ∉ {z | D.Live s z ∧ D.key (s.mem (D.succ s y)) ≤ D.key (s.mem z)} :=
        fun hz => absurd hlt (not_lt.mpr hz.2)
      rw [he]
      refine ⟨hfin.insert y, n + 1, fun fuel hf size => ?_⟩
      obtain ⟨m, rfl⟩ := Nat.exists_eq_add_of_le' (Nat.le_of_add_left_le hf)
      rw [hstep, hn m (by omega), if_pos hct, Set.ncard_insert_of_notMem hny hfin]
      congr 1
      omega

/-- **`length` returns the number of live nodes.** -/
theorem Listed.length_eq :
    ∃ n, ∀ fuel ≥ n, D.length counted s fuel = some {x | D.Live s x}.ncard := by
  have hht : (.head : Ptr T) ≠ .tail := nofun
  have hlt := w.sorted.step .head linked_head hht
  obtain ⟨-, n, hn⟩ := w.lengthFrom_eq counted ht hc (linked_head.next hht) (w.ne_head_of_lt hlt)
  have he : {y | D.Live s y ∧ D.key (s.mem (D.succ s .head)) ≤ D.key (s.mem y)} =
      {y | D.Live s y} := by
    ext y
    refine ⟨fun hy => hy.1, fun hy => ⟨hy, ?_⟩⟩
    refine (w.sorted.le_or_next_le linked_head hht hy.1).resolve_left fun hle => hy.2.2.1 ?_
    exact w.sorted.inj hy.1 linked_head (le_antisymm hle (w.sorted.head_le hy.1))
  refine ⟨n, fun fuel hf => ?_⟩
  have := hn fuel hf 0
  rw [zero_add, he] at this
  exact this

end length

/-! ### Nodes of one thread -/

/-- A node that thread `t` has allocated and filled with `n`, but not linked. -/
def Private (D : NodeView N T K V) (t : T) (S : Set (Memory T N)) (s : Memory T N) (n : N)
    (x : Ptr T) : Prop :=
  ¬ D.Pub S x ∧ s.mem x = n ∧ ∃ i, x = .node t i ∧ i < s.count t

/-- Linking a private node. -/
structure Linking (D : NodeView N T K V) (t : T) (S : Set (Memory T N)) (s s' : Memory T N) (n : N)
    (p x : Ptr T) : Prop where
  swing : D.Swing s s' p x
  node : D.Private t S s n x
  pred : D.Lnk s p
  next : D.next n = D.succ s p
  left : D.key (s.mem p) < D.key n
  right : D.key n < D.key (s.mem (D.succ s p))

namespace Linking

variable {t : T} {n : N} {x : Ptr T} (h : D.Linking t S s s' n p x) (w : D.Listed S s)

include h w

theorem lnk (y : Ptr T) : D.Lnk s' y ↔ D.Lnk s y ∨ y = x :=
  h.swing.link_lnk w h.pred (w.ne_tail_of_lt h.left) h.node.1 (by rw [h.node.2.1]; exact h.next) y

theorem pub (y : Ptr T) : D.Pub (insert s' S) y ↔ D.Pub S y ∨ y = x :=
  h.swing.link_pub w h.pred (w.ne_tail_of_lt h.left) h.node.1 (by rw [h.node.2.1]; exact h.next) y

theorem listed : D.Listed (insert s' S) s' := by
  obtain ⟨hn1, hn2, i, hi, hc⟩ := h.node
  exact h.swing.link_listed w h.pred (w.ne_tail_of_lt h.left) hn1 (by rw [hn2]; exact h.next)
    (by rw [hn2]; exact h.left) (by rw [hn2]; exact h.right) ⟨t, i, hi, hc⟩

/-- Linking a node adds its key to the map. -/
theorem absMap [DecidableEq K] (hd : ¬ D.dead n) : D.absMap s (D.key n) = none ∧
    D.absMap s' = Function.update (D.absMap s) (D.key n) (some (D.val n)) := by
  obtain ⟨hn1, hn2, i, hi, -⟩ := h.node
  have := h.swing.link_absMap w h.pred (w.ne_tail_of_lt h.left) hn1 (by rw [hn2]; exact h.next)
    (by rw [hn2]; exact h.left) (by rw [hn2]; exact h.right) (by rw [hn2]; exact hd)
    (by rw [hi]; exact ⟨nofun, nofun⟩)
  rwa [hn2] at this

end Linking

/-- What a step of thread `t` leaves alone of the other threads' nodes. -/
def Others (D : NodeView N T K V) (t : T) (S : Set (Memory T N)) (s s' : Memory T N) : Prop :=
  (∀ u i, u ≠ t → ¬ D.Pub S (.node u i) →
    s'.mem (.node u i) = s.mem (.node u i) ∧ ¬ D.Pub (insert s' S) (.node u i)) ∧
  ∀ u, s.count u ≤ s'.count u

theorem Private.congr {t : T} {n : N} {x : Ptr T} (h : D.Private t S s n x)
    (hx : ¬ D.Pub S x → s'.mem x = s.mem x ∧ ¬ D.Pub (insert s' S) x)
    (hc : s.count t ≤ s'.count t) : D.Private t (insert s' S) s' n x := by
  obtain ⟨h1, h2, i, rfl, hi⟩ := h
  obtain ⟨h3, h4⟩ := hx h1
  exact ⟨h4, h3.trans h2, i, rfl, hi.trans_le hc⟩

theorem Private.step {t u : T} {n : N} {x : Ptr T} (h : D.Private u S s n x) (hu : u ≠ t)
    (ho : D.Others t S s s') : D.Private u (insert s' S) s' n x := by
  obtain ⟨-, -, i, rfl, -⟩ := id h
  exact h.congr (ho.1 u i hu) (ho.2 u)

/-- Allocation leaves the list alone, and makes a private node. -/
theorem Listed.allocate (w : D.Listed S s) (t : T) (n : N) :
    D.Same S s (s.allocate t n).1 ∧ (∀ x, D.Pub S x → (s.allocate t n).1.mem x = s.mem x) ∧
      D.Private t (insert (s.allocate t n).1 S) (s.allocate t n).1 n (s.allocate t n).2 := by
  have hm : ∀ x, D.Pub S x → (s.allocate t n).1.mem x = s.mem x := fun x hx =>
    s.mem_allocate_of_ne x n t fun he => w.not_pub_next t (he ▸ hx)
  have hs : D.Same S s (s.allocate t n).1 := same_of_mem hm (s.count_le_allocate n t)
  exact ⟨hs, hm, fun hp => w.not_pub_next t ((hs.pub w _).mp hp), by simp, _, rfl,
    s.count_allocate_self n t⟩

theorem Listed.allocate_others (w : D.Listed S s) (t : T) (n : N) :
    D.Others t S s (s.allocate t n).1 := by
  refine ⟨fun u i hu hp => ⟨?_, fun hp' => hp (((w.allocate t n).1.pub w _).mp hp')⟩,
    s.count_le_allocate n t⟩
  exact s.mem_allocate_of_ne _ n t fun he => hu (Ptr.node.inj he).1

/-- A step that writes published nodes only, and publishes no other thread's. -/
theorem others_of_pub {t : T} (hm : ∀ x, ¬ D.Pub S x → s'.mem x = s.mem x)
    (hp : ∀ u i, u ≠ t → D.Pub (insert s' S) (.node u i) → D.Pub S (.node u i))
    (hc : ∀ u, s.count u ≤ s'.count u) : D.Others t S s s' :=
  ⟨fun u i hu h => ⟨hm _ h, fun h' => h (hp u i hu h')⟩, hc⟩

end NodeView

end Ascylib
