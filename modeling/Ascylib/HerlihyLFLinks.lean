/-
# What linking a node does to its level

`insert` of `skiplist_herlihy_lf.h` writes `new_node->next[i] = succs[i]` for
all levels before it links the node at level 0, and never again. Above level 0
a CAS that fails is followed by `herlihy_search`, which finds new neighbours:
the CAS that succeeds then may link the node in front of a node that
`new_node->next[i]` does not lead to. What stands there is dropped from the
level (`link_drops_node`). The sibling `skiplist_fraser.h` writes
`new_node->next[i]` again before the CAS.

In the runs in which the pointer and the successor lead to one node, over
nodes that are deleted at the level (`Rejoins`), every such CAS adds its node
and drops none.

Key theorems: `herlihy_lf_links`, `link_drops_node`.
-/
import Ascylib.Concur.Redirect
import Ascylib.Concur.Refs
import Ascylib.HerlihyLFReclaim

set_option linter.unusedSectionVars false

namespace Ascylib

open Concur Chain

namespace SkiplistHerlihyLF

open SkipHeap

variable {T K V : Type*} [DecidableEq T] [LinearOrder K] [Zero V]

/-- The nodes linked at a level that are not deleted there. -/
def Live (i : ℕ) (s : SkipHeap T K V) : Set (Ptr T) := {x | LnkAt i s x ∧ ¬ s.Marked x i}

/-- The next step is the CAS that links a node at level `i`. -/
def Pc.Links (l : Pc T V) (newNode : Ptr T) (i : ℕ) (lists : Lists T) : Prop :=
  l = .insertCas newNode lists ∧ i = 0 ∨ l = .linkCas newNode i lists

/-- If it succeeds, it adds its node to the level, unless the node is deleted
there already, and does nothing else to it. -/
def AddsNode (s : SkipHeap T K V) (l : Pc T V) (s' : SkipHeap T K V) : Prop :=
  ∀ newNode i lists, l.Links newNode i lists → s.next (lists.preds i) i = (lists.succs i).ref →
    Live i s' = Live i s ∪ {x | x = newNode ∧ ¬ s.Marked newNode i}

/-- Above level 0, `new_node->next[i]` and the successor lead to one node, over
nodes that are deleted at the level. -/
def Rejoins (s : SkipHeap T K V) (_ : Call K V) (l : Pc T V) : Prop :=
  ∀ newNode i lists, l = .linkCas newNode i lists →
    s.next (lists.preds i) i = (lists.succs i).ref →
    ∃ y, MarkedTo i s (lists.succs i) y ∧ MarkedTo i s (s.next newNode i).ptr y

variable [BoundedOrder K] {t : T} {S W : Set (SkipHeap T K V)} {s s' : SkipHeap T K V}
  {op : Call K V} {levelmax : ℕ} {i j : ℕ} {p q r n x y : Ptr T}

/-! ### A pointer is swung -/

theorem next_of_tall (w : Wf levelmax S s) (h : Tall S s i x) (hx : x ≠ .tail) :
    Tall S s i (s.next x i).ptr ∧ s.key x ≤ s.key (s.next x i).ptr := by
  obtain ⟨d, hd⟩ := w.order
  exact ⟨w.tower h hx, (hd h hx).elim le_of_lt fun h => h.1.le⟩

theorem tall_of_lnk (w : Wf levelmax S s) (hi : i < levelmax) (h : LnkAt i s x) : Tall S s i x := by
  induction h with
  | refl => exact w.tall_head hi
  | @tail y z _ hyz ih =>
    obtain ⟨hy, rfl⟩ := hyz
    exact w.tower ih hy

theorem markedTo_tall (w : Wf levelmax S s) (h : MarkedTo i s x y) (hx : Tall S s i x) :
    Tall S s i y := by
  induction h with
  | refl => exact hx
  | @tail y z _ hyz ih =>
    obtain ⟨hm, rfl⟩ := hyz
    exact w.tower ih fun h => w.tail_mark i (h ▸ hm)

theorem markedTo_step (w : Wf levelmax S s) (hk : Keeps t S s s') (h : MarkedTo i s x y)
    (hx : Tall S s i x) : MarkedTo i s' x y := by
  induction h with
  | refl => exact .refl
  | @tail y z hxy hyz ih =>
    obtain ⟨hm, rfl⟩ := hyz
    have hy := (markedTo_tall w hxy hx).1
    exact ih.tail ⟨marked_step hk hy hm, by rw [hk.frozen y i hy hm]⟩

theorem lnk_target (hp : LnkAt i s p) (hpt : p ≠ .tail) : LnkAt i (s.setNext p i r.ref) r := by
  have hlp : LnkAt i (s.setNext p i r.ref) p := hp.redirect_self fun y hy =>
    congrArg Ref.ptr (next_setNext_of_ne s p y i i _ (Or.inl hy))
  have hr : ((tower T K V).level i).succ (s.setNext p i r.ref) p = r :=
    congrArg Ref.ptr (next_setNext_self s p i r.ref)
  have h := hlp.next hpt
  rwa [hr] at h

section swing

variable (w : Wf levelmax S s) (hpq : s.next p i = q.ref) (hp : LnkAt i s p) (hpt : p ≠ .tail)

include w hpq hp hpt

/-- The pointer of `p` is swung to `r`, from which the nodes on are met that
were met from `q` on. -/
theorem swing_lnk (hpr : s.key p < s.key r) (hrt : r ≠ .tail → Tall S s i (s.next r i).ptr ∧
      s.key p < s.key (s.next r i).ptr)
    (hx : Linked (((tower T K V).level i).succ s) r .tail x ↔
      Linked (((tower T K V).level i).succ s) q .tail x) :
    LnkAt i (s.setNext p i r.ref) x ↔ LnkAt i s x := by
  have hne : ∀ y, y ≠ p → ((tower T K V).level i).succ (s.setNext p i r.ref) y =
      ((tower T K V).level i).succ s y := fun y hy =>
    congrArg Ref.ptr (next_setNext_of_ne s p y i i _ (Or.inl hy))
  have hr : ((tower T K V).level i).succ (s.setNext p i r.ref) p = r :=
    congrArg Ref.ptr (next_setNext_self s p i r.ref)
  have hq' : ((tower T K V).level i).succ s p = q := congrArg Ref.ptr hpq
  refine linked_redirect_iff hne (fun y => y = r ∨ Tall S s i y ∧ s.key p < s.key y) ?_ ?_ ?_
    hpt hp ?_
  · rintro y (rfl | ⟨hy, hlt⟩) hyt
    · exact Or.inr (hrt hyt)
    · obtain ⟨h1, h2⟩ := next_of_tall w hy hyt
      exact Or.inr ⟨h1, hlt.trans_le h2⟩
  · rintro (rfl | ⟨-, hlt⟩)
    · exact lt_irrefl _ hpr
    · exact lt_irrefl _ hlt
  · exact Or.inl hr
  · rw [hr, hq']
    exact hx

/-- **A node that leads where the successor of `p` leads is linked behind `p`.** -/
theorem link_live (hn : s.key p < s.key n) (hnt : n ≠ .tail)
    (hnn : Tall S s i (s.next n i).ptr ∧ s.key p < s.key (s.next n i).ptr)
    (hqy : MarkedTo i s q y) (hny : MarkedTo i s (s.next n i).ptr y) :
    Live i (s.setNext p i n.ref) = Live i s ∪ {x | x = n ∧ ¬ s.Marked n i} := by
  have hpm := not_marked_of_next hpq
  have ht := w.tail_mark i
  ext x
  show LnkAt i (s.setNext p i n.ref) x ∧ ¬ (s.setNext p i n.ref).Marked x i ↔
    LnkAt i s x ∧ ¬ s.Marked x i ∨ x = n ∧ ¬ s.Marked n i
  rw [marked_swing hpm]
  by_cases hxn : x = n
  · subst hxn
    have hlx : LnkAt i (s.setNext p i x.ref) x := lnk_target hp hpt
    exact ⟨fun h => Or.inr ⟨rfl, h.2⟩, fun h => ⟨hlx, h.elim And.right And.right⟩⟩
  · have hlnk : ¬ s.Marked x i → (LnkAt i (s.setNext p i n.ref) x ↔ LnkAt i s x) := by
      intro hxm
      refine swing_lnk w hpq hp hpt hn (fun _ => hnn) ?_
      calc Linked (((tower T K V).level i).succ s) n .tail x
          ↔ Linked (((tower T K V).level i).succ s) (s.next n i).ptr .tail x := by
            refine ⟨fun h => ?_, fun h => .head ⟨hnt, rfl⟩ h⟩
            rcases h.cases_head with rfl | ⟨z, ⟨-, rfl⟩, h⟩
            · exact absurd rfl hxn
            · exact h
        _ ↔ Linked (((tower T K V).level i).succ s) y .tail x := Over.linked_iff hny ht hxm
        _ ↔ Linked (((tower T K V).level i).succ s) q .tail x := (Over.linked_iff hqy ht hxm).symm
    constructor
    · rintro ⟨h1, h2⟩
      exact Or.inl ⟨(hlnk h2).mp h1, h2⟩
    · rintro (⟨h1, h2⟩ | ⟨h1, -⟩)
      · exact ⟨(hlnk h2).mpr h1, h2⟩
      · exact absurd h1 hxn

/-- Nothing but deleted nodes is unlinked by a search. -/
theorem splice_live (hr : Tall S s i r) (hqr : MarkedTo i s q r) (hpr : s.key p < s.key r) :
    Live i (s.setNext p i r.ref) = Live i s := by
  have hpm := not_marked_of_next hpq
  ext x
  show LnkAt i (s.setNext p i r.ref) x ∧ ¬ (s.setNext p i r.ref).Marked x i ↔
    LnkAt i s x ∧ ¬ s.Marked x i
  rw [marked_swing hpm]
  refine and_congr_left fun hxm => swing_lnk w hpq hp hpt hpr (fun hrt => ?_)
    (Over.linked_iff hqr (w.tail_mark i) hxm).symm
  obtain ⟨h1, h2⟩ := next_of_tall w hr hrt
  exact ⟨h1, hpr.trans_le h2⟩

end swing

/-! ### What is kept of the levels -/

/-- The levels in a run through the memories `S`. A node that has been linked
at a level and is not marked there is linked there still. Its pointers lead to
nodes of their level, also those that it is not linked by yet. -/
structure Sound (levelmax : ℕ) (S : Set (SkipHeap T K V)) (s : SkipHeap T K V) : Prop where
  mem : s ∈ S
  tall : ∀ {i x}, i < levelmax → PubAt i S x → Tall S s i x
  lnk : ∀ {i x}, i < levelmax → PubAt i S x → ¬ s.Marked x i → LnkAt i s x
  next : ∀ {i x}, i < levelmax → Tall S s i x → x ≠ .tail → PubAt i S (s.next x i).ptr
  down : ∀ {i j x}, i < levelmax → PubAt i S x → j ≤ i → PubAt j S x

theorem pubAt_insert : PubAt i (insert s' S) x ↔ LnkAt i s' x ∨ PubAt i S x := by
  constructor
  · rintro ⟨s₀, rfl | hs₀, hx⟩
    · exact Or.inl hx
    · exact Or.inr ⟨s₀, hs₀, hx⟩
  · rintro (hx | hx)
    · exact ⟨s', Set.mem_insert _ _, hx⟩
    · exact hx.insert s'

namespace Sound

variable (h : Sound levelmax S s) (w : Wf levelmax S s) (hk : Keeps t S s s')
  (w' : Wf levelmax (insert s' S) s')

include h w hk w'

/-- A step that drops no live node of the levels above level 0, and links only
nodes that have been linked there, or are linked below. -/
theorem keep (hlive : ∀ i x, i ≠ 0 → i < levelmax → LnkAt i s x → ¬ s.Marked x i → LnkAt i s' x)
    (hlnk : ∀ i x, i ≠ 0 → i < levelmax → LnkAt i s' x → PubAt i S x ∨ ∀ j < i, PubAt j S x)
    (hnext : ∀ i x, i ≠ 0 → i < levelmax → Tall (insert s' S) s' i x → x ≠ .tail →
      PubAt i (insert s' S) (s'.next x i).ptr) : Sound levelmax (insert s' S) s' := by
  refine ⟨Set.mem_insert _ _, fun {i x} hi hx => ?_, fun {i x} hi hx hm => ?_,
    fun {i x} hi hx hxt => ?_, fun {i j x} hi hx hj => ?_⟩
  · rcases pubAt_insert.mp hx with hx | hx
    · exact tall_of_lnk w' hi hx
    · exact (h.tall hi hx).step hk
  · by_cases h0 : i = 0
    · subst h0
      exact w'.base.lnk x (pubAt_zero.mp hx) hm
    · rcases pubAt_insert.mp hx with hx | hx
      · exact hx
      · have hm' : ¬ s.Marked x i := fun hx' => hm (marked_step hk (h.tall hi hx).1 hx')
        exact hlive i x h0 hi (h.lnk hi hx hm') hm'
  · by_cases h0 : i = 0
    · subst h0
      exact pubAt_zero.mpr (w'.tower hx hxt).1
    · exact hnext i x h0 hi hx hxt
  · rcases hj.eq_or_lt with rfl | hj
    · exact hx
    · rcases pubAt_insert.mp hx with hl | hx
      · rcases hlnk i x (Nat.ne_zero_of_lt hj) hi hl with hx | hx
        · exact (h.down hi hx hj.le).insert s'
        · exact (hx j hj).insert s'
      · exact (h.down hi hx hj.le).insert s'

/-- A step that leaves the pointers above level 0 alone. A node that it links
at level 0 has pointers to nodes of their levels. -/
theorem calm (hsame : ∀ i x, i ≠ 0 → Pub S x → (s'.next x i).ptr = (s.next x i).ptr)
    (hnew : ∀ x, Lnk s' x → Pub S x ∨
      ∀ i, i < levelmax → i < s'.toplevel x → PubAt i S (s'.next x i).ptr) :
    Sound levelmax (insert s' S) s' := by
  have hlnk : ∀ i x, i ≠ 0 → i < levelmax → (LnkAt i s' x ↔ LnkAt i s x) := fun i x h0 hi =>
    linked_congr fun y hy _ => hsame i y h0 (tall_of_lnk w hi hy).1
  refine h.keep w hk w' (fun i x h0 hi hx _ => (hlnk i x h0 hi).mpr hx)
    (fun i x h0 hi hx => Or.inl ⟨s, w.mem, (hlnk i x h0 hi).mp hx⟩) fun i x h0 hi hx hxt => ?_
  have hpub : Lnk s' x ∨ Pub S x := by
    have := pubAt_insert.mp (pubAt_zero.mpr hx.1)
    exact this.imp id pubAt_zero.mp
  have hold : Pub S x → PubAt i (insert s' S) (s'.next x i).ptr := fun hp => by
    rw [hsame i x h0 hp]
    exact (h.next hi ⟨hp, by rw [← hk.top x hp]; exact hx.2⟩ hxt).insert s'
  rcases hpub with hl | hp
  · rcases hnew x hl with hp | hp
    · exact hold hp
    · exact (hp i hi hx.2).insert s'
  · exact hold hp

omit hk w' in
/-- Only the new target of a swung pointer is linked by it. -/
theorem swing_pub (hi : i < levelmax) (hr : r ≠ .tail → PubAt i S (s.next r i).ptr)
    (hx : LnkAt i (s.setNext p i r.ref) x) : PubAt i S x ∨ x = r := by
  induction hx with
  | refl => exact Or.inl ⟨s, w.mem, linked_head⟩
  | @tail y z _ hyz ih =>
    obtain ⟨hyt, rfl⟩ := hyz
    by_cases hyp : y = p
    · subst hyp
      exact Or.inr (congrArg Ref.ptr (next_setNext_self s y i r.ref))
    · have hn : ((tower T K V).level i).succ (s.setNext p i r.ref) y = (s.next y i).ptr :=
        congrArg Ref.ptr (next_setNext_of_ne s p y i i _ (Or.inl hyp))
      rw [hn]
      rcases ih with hy | rfl
      · exact Or.inl (h.next hi (h.tall hi hy) hyt)
      · exact Or.inl (hr hyt)

/-- A pointer above level 0 is swung. -/
theorem swing (h0 : i ≠ 0) (hi : i < levelmax) (hpq : s.next p i = q.ref) (hp : LnkAt i s p)
    (hpt : p ≠ .tail) (hr : Tall S s i r) (hpub : PubAt i S r ∨ ∀ j < i, PubAt j S r)
    (hlive : ∀ x, LnkAt i s x → ¬ s.Marked x i → LnkAt i (s.setNext p i r.ref) x)
    (hs' : s' = s.setNext p i r.ref) : Sound levelmax (insert s' S) s' := by
  subst hs'
  have hne : ∀ y j, y ≠ p ∨ j ≠ i → (s.setNext p i r.ref).next y j = s.next y j := fun y j hy =>
    next_setNext_of_ne s p y i j _ hy
  have hlnk : ∀ j x, j ≠ i → (LnkAt j (s.setNext p i r.ref) x ↔ LnkAt j s x) := fun j x hj =>
    linked_congr fun y _ _ => congrArg Ref.ptr (hne y j (Or.inr hj))
  refine h.keep w hk w' (fun j x _ _ hx hm => ?_) (fun j x _ _ hx => ?_) fun j x _ hj hx hxt => ?_
  · by_cases hji : j = i
    · subst hji
      exact hlive x hx hm
    · exact (hlnk j x hji).mpr hx
  · by_cases hji : j = i
    · subst hji
      rcases h.swing_pub w hi (h.next hi hr) hx with hx | rfl
      · exact Or.inl hx
      · exact hpub
    · exact Or.inl ⟨s, w.mem, (hlnk j x hji).mp hx⟩
  · by_cases hxp : x = p ∧ j = i
    · obtain ⟨rfl, rfl⟩ := hxp
      rw [next_setNext_self]
      exact ⟨_, Set.mem_insert _ _, lnk_target hp hpt⟩
    · have hx' : Tall S s j x := by
        obtain ⟨hx1, hx2⟩ := hx
        rw [Pub, image_insert, level0_setNext_of_ne _ _ _ _ h0,
          Set.insert_eq_of_mem w.base.mem] at hx1
        rw [toplevel_setNext] at hx2
        exact ⟨hx1, hx2⟩
      rw [hne x j (not_and_or.mp hxp)]
      exact (h.next hj hx' hxt).insert _

end Sound

theorem Sound.initial [Nontrivial K] (levelmax : ℕ) :
    Sound levelmax {(empty levelmax : SkipHeap T K V)} (empty levelmax) := by
  have w : Wf levelmax {(empty levelmax : SkipHeap T K V)} (empty levelmax) := .initial levelmax
  have l : Leveled {(empty levelmax : SkipHeap T K V)} (empty levelmax) := .initial levelmax
  refine ⟨rfl, fun {i x} hi hx => ?_, fun {i x} _ hx hm => l.lnk hx hm, fun {i x} _ hx hxt => ?_,
    fun {i j x} _ hx hj => l.down hx hj⟩
  · obtain ⟨s₀, rfl, hx⟩ := hx
    exact tall_of_lnk w hi hx
  · have hpub : ∀ j y, PubAt j {(empty levelmax : SkipHeap T K V)} y ↔ y = .head ∨ y = .tail :=
      fun j => NodeView.pub_empty (D := (tower T K V).level j) rfl
    exact (l.next ((hpub i x).mpr ((hpub 0 x).mp (pubAt_zero.mpr hx.1))) hxt).1

/-! ### What holds at each point of a call -/

/-- The node of an insert has been linked below level `i`. -/
def Below (S : Set (SkipHeap T K V)) (i : ℕ) (x : Ptr T) : Prop := ∀ j < i, PubAt j S x

def Caller.Knows (levelmax : ℕ) (S : Set (SkipHeap T K V)) : Caller T V → Prop
  | .insert newNode i lists => Below S i newNode ∧ lists.Up levelmax S 0
  | .remove _ _ => True

/-- The assertion at each local state, besides `At`: nodes belong to the level
where a thread uses them. -/
def Holds (levelmax : ℕ) (S : Set (SkipHeap T K V)) (s : SkipHeap T K V) (op : Call K V) :
    Pc T V → Prop
  | .noCleanup left i lists => i < levelmax ∧ PubAt i S left ∧ Filled levelmax S op (i + 1) lists
  | .noCleanupMark left right i lists => i < levelmax ∧ PubAt i S left ∧ PubAt i S right ∧
      Filled levelmax S op (i + 1) lists
  | .noCleanupKey left right i lists => i < levelmax ∧ PubAt i S left ∧ PubAt i S right ∧
      Filled levelmax S op (i + 1) lists
  | .noCleanupNext left right i lists => i < levelmax ∧ PubAt i S left ∧ PubAt i S right ∧
      Filled levelmax S op (i + 1) lists
  | .found _ lists => Filled levelmax S op 0 lists
  | .insertAlloc lists => lists.Up levelmax S 0
  | .insertFill _ _ lists => lists.Up levelmax S 0
  | .insertCas _ lists => lists.Up levelmax S 0
  | .linkTop newNode i lists => Below S i newNode ∧ lists.Up levelmax S 0
  | .linkMark newNode i lists => Below S i newNode ∧ lists.Up levelmax S 0
  | .linkCas newNode i lists => Below S i newNode ∧ lists.Up levelmax S 0
  | .cleanup c left i => c.Knows levelmax S ∧ i < levelmax ∧ PubAt i S left
  | .cleanupNext c left leftNext right i => c.Knows levelmax S ∧ i < levelmax ∧ PubAt i S left ∧
      PubAt i S right ∧ MarkedTo i s leftNext right
  | .cleanupKey c left leftNext right rightNext i => c.Knows levelmax S ∧ i < levelmax ∧
      PubAt i S left ∧ PubAt i S right ∧ MarkedTo i s leftNext right ∧
      (right ≠ .tail → PubAt i S rightNext)
  | .cleanupCas c left leftNext right i => c.Knows levelmax S ∧ i < levelmax ∧ PubAt i S left ∧
      PubAt i S right ∧ MarkedTo i s leftNext right
  | .cleanupEq c _ => c.Knows levelmax S
  | _ => True

theorem knows_step {c : Caller T V} (h : c.Knows levelmax S) :
    c.Knows levelmax (insert s' S) := by
  cases c with
  | insert newNode i lists => exact ⟨fun j hj => (h.1 j hj).insert s', h.2.step⟩
  | remove nodeDel result => trivial

/-- A step of any thread keeps what a thread knows. -/
theorem Holds.step {u : T} {l : Pc T V} (w : Wf levelmax S s) (hat : At levelmax u S W s op l)
    (h : Holds levelmax S s op l) (hk : Keeps t S s s') : Holds levelmax (insert s' S) s' op l := by
  cases l with
  | noCleanup left i lists => exact ⟨h.1, h.2.1.insert s', h.2.2.step⟩
  | noCleanupMark left right i lists
  | noCleanupKey left right i lists
  | noCleanupNext left right i lists =>
    exact ⟨h.1, h.2.1.insert s', h.2.2.1.insert s', h.2.2.2.step⟩
  | found right lists => exact Filled.step h
  | insertAlloc lists | insertFill newNode i lists | insertCas newNode lists =>
    exact Lists.Up.step h
  | linkTop newNode i lists | linkMark newNode i lists | linkCas newNode i lists =>
    exact ⟨fun j hj => (h.1 j hj).insert s', h.2.step⟩
  | cleanup c left i => exact ⟨knows_step h.1, h.2.1, h.2.2.insert s'⟩
  | cleanupNext c left leftNext right i =>
    obtain ⟨h1, h2, h3, h4, h5⟩ := h
    exact ⟨knows_step h1, h2, h3.insert s', h4.insert s', markedTo_step w hk h5 hat.2.2.1⟩
  | cleanupKey c left leftNext right rightNext i =>
    obtain ⟨h1, h2, h3, h4, h5, h6⟩ := h
    exact ⟨knows_step h1, h2, h3.insert s', h4.insert s', markedTo_step w hk h5 hat.2.2.1,
      fun h => (h6 h).insert s'⟩
  | cleanupCas c left leftNext right i =>
    obtain ⟨h1, h2, h3, h4, h5⟩ := h
    exact ⟨knows_step h1, h2, h3.insert s', h4.insert s', markedTo_step w hk h5 hat.2.2.1⟩
  | cleanupEq c right => exact knows_step h
  | _ => trivial

/-! ### The steps -/

/-- A step adds a node to a level if it links one, keeps the levels, and leads
to the next assertion. -/
structure LinkOk (levelmax : ℕ) (S : Set (SkipHeap T K V)) (s : SkipHeap T K V) (op : Call K V)
    (l : Pc T V) (q : SkipHeap T K V × Pc T V) : Prop where
  sound : Sound levelmax (insert q.1 S) q.1
  next : Holds levelmax (insert q.1 S) q.1 op q.2
  adds : AddsNode s l q.1

theorem Sound.own (h : Sound levelmax S s) (w : Wf levelmax S s) (a : Act t S s s')
    (hmem : ∀ x, Pub S x → s'.mem x = s.mem x) : Sound levelmax (insert s' S) s' := by
  have hn : ∀ i x, Pub S x → (s'.next x i).ptr = (s.next x i).ptr := fun i x hx => by
    rw [SkipHeap.next, hmem x hx]
    rfl
  have hpub : ∀ x, Lnk s x → Pub S x := fun x hx => pubAt_zero.mp ⟨s, w.mem, hx⟩
  have hlnk : ∀ x, LnkAt 0 s' x ↔ LnkAt 0 s x := fun x =>
    linked_congr fun y hy _ => hn 0 y (hpub y hy)
  exact h.calm w (a.keeps w) (a.wf w) (fun i x _ hx => hn i x hx) fun x hx =>
    Or.inl (hpub x ((hlnk x).mp hx))

section step

variable {level : ℕ} {l l' : Pc T V}

/-- A step that writes nothing. -/
theorem LinkOk.read (w : Wf levelmax S s) (h : Sound levelmax S s) (hl : Holds levelmax S s op l')
    (hn : ∀ n i a, l.Links n i a → s.next (a.preds i) i ≠ (a.succs i).ref) :
    LinkOk levelmax S s op l (s, l') := by
  refine ⟨?_, ?_, fun n i a hna hc => absurd hc (hn n i a hna)⟩ <;> rw [Set.insert_eq_of_mem w.mem]
  · exact h
  · exact hl

variable (hpos : 0 < levelmax) (w : Wf levelmax S s) (h : Sound levelmax S s)
  (hat : At levelmax t S W s op l) (hl : Holds levelmax S s op l)

include w h hat hl

theorem link_search
    (hl : (∃ a i, l = .left a i) ∨ (∃ a b i, l = .leftKey a b i) ∨ (∃ a b i, l = .leftCond a b i) ∨
      (∃ a b i, l = .leftMark a b i) ∨ (∃ a b i, l = .leftNext a b i) ∨
      (∃ a b i, l = .leftEq a b i) ∨ (∃ a, l = .searchEq a) ∨ ∃ a, l = .searchVal a) :
    LinkOk levelmax S s op l (step levelmax level t s op l) := by
  rcases hl with ⟨a, i, rfl⟩ | ⟨a, b, i, rfl⟩ | ⟨a, b, i, rfl⟩ | ⟨a, b, i, rfl⟩ | ⟨a, b, i, rfl⟩ |
    ⟨a, b, i, rfl⟩ | ⟨a, rfl⟩ | ⟨a, rfl⟩
  · exact .read w h trivial (by simp [Pc.Links])
  · simp only [step]
    split <;> exact .read w h trivial (by simp [Pc.Links])
  · simp only [step]
    split <;> exact .read w h trivial (by simp [Pc.Links])
  · simp only [step]
    split <;> exact .read w h trivial (by simp [Pc.Links])
  · exact .read w h trivial (by simp [Pc.Links])
  · simp only [step]
    split
    · exact .read w h trivial (by simp [Pc.Links])
    · cases i <;> exact .read w h trivial (by simp [Pc.Links])
  · simp only [step]
    split <;> exact .read w h trivial (by simp [Pc.Links])
  · exact .read w h trivial (by simp [Pc.Links])

theorem link_no_cleanup
    (hpc : (∃ a i x, l = .noCleanup a i x) ∨ (∃ a b i x, l = .noCleanupMark a b i x) ∨
      (∃ a b i x, l = .noCleanupKey a b i x) ∨ (∃ a b i x, l = .noCleanupNext a b i x) ∨
      ∃ b x, l = .found b x) :
    LinkOk levelmax S s op l (step levelmax level t s op l) := by
  rcases hpc with ⟨a, i, x, rfl⟩ | ⟨a, b, i, x, rfl⟩ | ⟨a, b, i, x, rfl⟩ | ⟨a, b, i, x, rfl⟩ |
    ⟨b, x, rfl⟩
  · obtain ⟨h1, h2, h3⟩ := hl
    have hat' : a ≠ .tail := w.ne_tail_of_lt hat.1.2.1
    exact .read w h ⟨h1, h2, h.next h1 (h.tall h1 h2) hat', h3⟩ (by simp [Pc.Links])
  · simp only [step]
    split <;> exact .read w h hl (by simp [Pc.Links])
  · obtain ⟨h1, h2, h3, h4⟩ := hl
    simp only [step]
    split
    · have hfill : Filled levelmax S op i (x.record op i a b) := h4.record h2 h3
      cases i with
      | zero => exact .read w h hfill (by simp [Pc.Links])
      | succ i =>
        exact .read w h ⟨i.lt_succ_self.trans h1, h.down h1 h2 i.le_succ, hfill⟩
          (by simp [Pc.Links])
    · exact .read w h ⟨h1, h3, h3, h4⟩ (by simp [Pc.Links])
  · obtain ⟨h1, h2, h3, h4⟩ := hl
    exact .read w h ⟨h1, h2, h.next h1 (h.tall h1 h3) hat.2.1.2.1, h4⟩ (by simp [Pc.Links])
  · cases op with
    | insert k v =>
      simp only [step]
      split
      · exact .read w h trivial (by simp [Pc.Links])
      · exact .read w h (hl ⟨k, v, rfl⟩) (by simp [Pc.Links])
    | remove k | search k =>
      simp only [step]
      split <;> exact .read w h trivial (by simp [Pc.Links])

theorem link_insert (hpos : 0 < levelmax) (ha : Act t S s (step levelmax level t s op l).1)
    (hpc : (∃ x, l = .insertAlloc x) ∨ (∃ n i x, l = .insertFill n i x) ∨
      (∃ n x, l = .insertCas n x) ∨ ∃ n x, l = .insertFree n x) :
    LinkOk levelmax S s op l (step levelmax level t s op l) := by
  rcases hpc with ⟨x, rfl⟩ | ⟨n, i, x, rfl⟩ | ⟨n, x, rfl⟩ | ⟨n, x, rfl⟩
  · obtain ⟨⟨k, v, rfl⟩, -⟩ := hat
    refine ⟨h.own w ha fun y hy => mem_allocate_of_pub w t k v level hy, Lists.Up.step hl, ?_⟩
    rintro n i a (⟨h, -⟩ | h) <;> cases h
  · obtain ⟨k, v, m, -, -, -, -, hpriv, -⟩ := hat
    simp only [step] at ha ⊢
    split at ha <;> rename_i hi
    · rw [if_pos hi]
      refine ⟨h.own w ha fun y hy => hpriv.mem_setNext hy i _, Lists.Up.step hl, ?_⟩
      rintro n i a (⟨h, -⟩ | h) <;> cases h
    · rw [if_neg hi]
      exact .read w h hl (by simp [Pc.Links])
  · obtain ⟨k, v, m, rfl, hm, hle, hpriv, hlists, hlm, hlt⟩ := hat
    obtain ⟨hp, hq⟩ := hl 0 le_rfl hlm
    obtain ⟨⟨-, hpk⟩, hq0, -⟩ := hlists 0 le_rfl hlm
    rcases hc : s.cas (x.preds 0) 0 (unsetMark (x.succs 0).ref) n.ref with ⟨⟨⟩, s'⟩
    · simp only [step, hc]
      rw [cas_false hc]
      refine .read w h trivial ?_
      rintro n' i a (⟨he, rfl⟩ | he) <;> cases he
      exact next_ne_of_cas hc
    · simp only [step, hc] at ha ⊢
      obtain ⟨hpq, rfl⟩ := cas_true hc
      have hnq : ∀ j < m, (s.next n j).ptr = x.succs j := fun j hj =>
        congrArg Ref.ptr (hpriv.next j hj)
      have hnp : n ≠ x.preds 0 := fun he => hpriv.not_pub (he ▸ pubAt_zero.mp hp)
      have hnt : n ≠ .tail := by
        obtain ⟨u, rfl, -⟩ := hpriv.node
        exact fun h => by cases h
      have hlp : LnkAt 0 s (x.preds 0) := h.lnk hlm hp (not_marked_of_next hpq)
      refine ⟨h.calm w (ha.keeps w) (ha.wf w) (fun i y h0 _ => ?_) fun y hy => ?_,
        ⟨fun j hj => ?_, Lists.Up.step hl⟩, ?_⟩
      · exact congrArg Ref.ptr (next_setNext_of_ne s (x.preds 0) y 0 i _ (Or.inr h0))
      · -- the node becomes a node of all its levels
        rcases h.swing_pub w hlm (fun _ => by rw [hnq 0 hm]; exact hq) hy with hy | rfl
        · exact Or.inl (pubAt_zero.mp hy)
        · refine Or.inr fun i hi hit => ?_
          rw [toplevel_setNext, hpriv.top] at hit
          rw [next_setNext_of_ne s (x.preds 0) y 0 i _ (Or.inl hnp), hnq i hit]
          exact (hl i i.zero_le hi).2
      · obtain rfl : j = 0 := Nat.lt_one_iff.mp hj
        exact ⟨_, Set.mem_insert _ _, lnk_target hlp (w.ne_tail_of_lt hpk)⟩
      · rintro n' i a (⟨he, rfl⟩ | he) <;> cases he
        intro _
        have hkq : s.key (x.preds 0) < s.key (x.succs 0) := hpk.trans hlt
        refine link_live w hpq hlp (w.ne_tail_of_lt hpk) (by rw [hpriv.key]; exact hpk) hnt ?_
          (y := x.succs 0) .refl ?_
        · rw [hnq 0 hm]
          exact ⟨hq0, hkq⟩
        · rw [hnq 0 hm]
          exact .refl
  · refine ⟨h.own w ha fun _ _ => rfl, ?_, ?_⟩
    · refine ⟨Nat.sub_lt hpos one_pos, ⟨_, Set.mem_insert _ _, linked_head⟩, fun _ j hij hj => ?_⟩
      omega
    · rintro n i a (⟨h, -⟩ | h) <;> cases h

theorem link_link (ht : op.key < ⊤) (ha : Act t S s (step levelmax level t s op l).1)
    (hf : Rejoins s op l)
    (hpc : (∃ n i x, l = .linkTop n i x) ∨ (∃ n i x, l = .linkMark n i x) ∨
      ∃ n i x, l = .linkCas n i x) : LinkOk levelmax S s op l (step levelmax level t s op l) := by
  rcases hpc with ⟨n, i, x, rfl⟩ | ⟨n, i, x, rfl⟩ | ⟨n, i, x, rfl⟩
  · simp only [step]
    split
    · exact .read w h hl (by simp [Pc.Links])
    · exact .read w h trivial (by simp [Pc.Links])
  · simp only [step]
    split
    · exact .read w h trivial (by simp [Pc.Links])
    · exact .read w h hl (by simp [Pc.Links])
  · obtain ⟨⟨-, hpub, hkey, hle, hlists, h0, -⟩, htop⟩ := hat
    obtain ⟨hbelow, hx⟩ := hl
    have hi : i < levelmax := htop.trans_le hle
    obtain ⟨hp, -⟩ := hx i i.zero_le hi
    obtain ⟨⟨-, hpk⟩, hq, hqk⟩ := hlists i i.zero_le hi
    rcases hc : s.cas (x.preds i) i (x.succs i).ref n.ref with ⟨⟨⟩, s'⟩
    · simp only [step, hc]
      rw [cas_false hc]
      refine .read w h ⟨⟨hbelow, hx⟩, Nat.sub_lt (Nat.zero_lt_of_lt hi) one_pos,
        ⟨_, w.mem, linked_head⟩⟩ ?_
      rintro n' i' a (⟨he, rfl⟩ | he) <;> cases he
      exact next_ne_of_cas hc
    · simp only [step, hc] at ha ⊢
      obtain ⟨hpq, rfl⟩ := cas_true hc
      have hlp : LnkAt i s (x.preds i) := h.lnk hi hp (not_marked_of_next hpq)
      have hpt := w.ne_tail_of_lt hpk
      have hnt : n ≠ .tail := w.ne_tail_of_lt (k := ⊤) (by rw [hkey]; exact ht)
      have hnn := next_of_tall w ⟨hpub, htop⟩ hnt
      obtain ⟨y, hqy, hny⟩ := hf n i x rfl hpq
      have hpn : s.key (x.preds i) < s.key n := hpk.trans_eq hkey.symm
      have hlive : Live i (s.setNext (x.preds i) i n.ref) =
          Live i s ∪ {z | z = n ∧ ¬ s.Marked n i} :=
        link_live w hpq hlp hpt hpn hnt ⟨hnn.1, hpn.trans_le hnn.2⟩ hqy hny
      refine ⟨h.swing w (ha.keeps w) (ha.wf w) h0 hi hpq hlp hpt ⟨hpub, htop⟩ (Or.inr hbelow)
        (fun z hz hm => ?_) rfl, ⟨fun j hj => ?_, hx.step⟩, ?_⟩
      · have hz' : z ∈ Live i (s.setNext (x.preds i) i n.ref) := hlive ▸ Or.inl ⟨hz, hm⟩
        exact hz'.1
      · rcases (Nat.le_of_lt_succ hj).lt_or_eq with hj | rfl
        · exact (hbelow j hj).insert _
        · exact ⟨_, Set.mem_insert _ _, lnk_target hlp hpt⟩
      · rintro n' i' a (⟨he, rfl⟩ | he) <;> cases he
        exact fun _ => hlive

omit hat hl in
theorem holds_cleanupLevel {c : Caller T V} {left right : Ptr T} (h1 : c.Knows levelmax S)
    (hi : i < levelmax) (h2 : PubAt i S left) (h3 : PubAt i S right) :
    Holds levelmax S s op (cleanupLevel c left right i) := by
  have hc : (c.record i left right).Knows levelmax S := by
    cases c with
    | insert n j x => exact ⟨h1.1, Lists.Up.set (fun j' _ hj _ => h1.2 j' j'.zero_le hj) h2 h3⟩
    | remove n r => trivial
  cases i with
  | zero => exact hc
  | succ i => exact ⟨hc, i.lt_succ_self.trans hi, h.down hi h2 i.le_succ⟩

theorem link_cleanup (hpos : 0 < levelmax) (ha : Act t S s (step levelmax level t s op l).1)
    (hpc : (∃ c a i, l = .cleanup c a i) ∨ (∃ c a b x i, l = .cleanupNext c a b x i) ∨
      (∃ c a b x y i, l = .cleanupKey c a b x y i) ∨ (∃ c a b x i, l = .cleanupCas c a b x i) ∨
      ∃ c x, l = .cleanupEq c x) :
    LinkOk levelmax S s op l (step levelmax level t s op l) := by
  have hagain : ∀ {c : Caller T V}, c.Knows levelmax S →
      Holds levelmax S s op (.cleanup c .head (levelmax - 1)) := fun hc =>
    ⟨hc, Nat.sub_lt hpos one_pos, ⟨s, w.mem, linked_head⟩⟩
  rcases hpc with ⟨c, a, i, rfl⟩ | ⟨c, a, b, x, i, rfl⟩ | ⟨c, a, b, x, y, i, rfl⟩ |
    ⟨c, a, b, x, i, rfl⟩ | ⟨c, x, rfl⟩
  · obtain ⟨h1, h2, h3⟩ := hl
    simp only [step]
    split
    · exact .read w h (hagain h1) (by simp [Pc.Links])
    · have hn := h.next h2 (h.tall h2 h3) (w.ne_tail_of_lt hat.2.2)
      exact .read w h ⟨h1, h2, h3, hn, .refl⟩ (by simp [Pc.Links])
  · obtain ⟨h1, h2, h3, h4, h5⟩ := hl
    by_cases hm : s.Marked x i
    · simp only [step, isMarked, show (s.next x i).mark = true from hm, if_true]
      have hxt : x ≠ .tail := fun he => w.tail_mark i (he ▸ hm)
      exact .read w h ⟨h1, h2, h3, h.next h2 (h.tall h2 h4) hxt, h5.tail ⟨hm, rfl⟩⟩
        (by simp [Pc.Links])
    · simp only [step, isMarked, show (s.next x i).mark = false by simpa [Marked] using hm]
      exact .read w h ⟨h1, h2, h3, h4, h5, h.next h2 (h.tall h2 h4)⟩ (by simp [Pc.Links])
  · obtain ⟨h1, h2, h3, h4, h5, h6⟩ := hl
    by_cases hle : op.key ≤ s.key x
    · by_cases hbx : b = x
      · simp only [step, hle, if_true, hbx, ne_eq, not_true_eq_false, if_false]
        exact .read w h (holds_cleanupLevel w h h1 h2 h3 h4) (by simp [Pc.Links])
      · simp only [step, hle, if_true, ne_eq, hbx, not_false_eq_true]
        exact .read w h ⟨h1, h2, h3, h4, h5⟩ (by simp [Pc.Links])
    · simp only [step, hle, if_false]
      have hy := h6 (w.ne_tail_of_lt (not_le.mp hle))
      exact .read w h ⟨h1, h2, h4, hy, .refl⟩ (by simp [Pc.Links])
  · obtain ⟨h1, h2, h3, h4, h5⟩ := hl
    obtain ⟨-, ⟨-, hak⟩, -, hx, -, hxk⟩ := hat
    have hno : ∀ n j y, ¬ (Pc.cleanupCas c a b x i).Links n j y := by simp [Pc.Links]
    rcases hc : s.cas a i b.ref x.ref with ⟨⟨⟩, s'⟩
    · simp only [step, hc]
      rw [cas_false hc]
      exact .read w h (hagain h1) fun n j y hn => absurd hn (hno n j y)
    · simp only [step, hc] at ha ⊢
      obtain ⟨hn, rfl⟩ := cas_true hc
      have hla : LnkAt i s a := h.lnk h2 h3 (not_marked_of_next hn)
      have hat' := w.ne_tail_of_lt hak
      have hlive : Live i (s.setNext a i x.ref) = Live i s :=
        splice_live w hn hla hat' hx h5 (hak.trans_le hxk)
      have hs : Sound levelmax (insert (s.setNext a i x.ref) S) (s.setNext a i x.ref) := by
        by_cases h0 : i = 0
        · subst h0
          refine h.calm w (ha.keeps w) (ha.wf w) (fun j y hj _ => ?_) fun y hy => Or.inl ?_
          · exact congrArg Ref.ptr (next_setNext_of_ne s a y 0 j _ (Or.inr hj))
          · rcases h.swing_pub w h2 (h.next h2 hx) hy with hy | rfl
            · exact pubAt_zero.mp hy
            · exact hx.1
        · refine h.swing w (ha.keeps w) (ha.wf w) h0 h2 hn hla hat' hx (Or.inl h4)
            (fun z hz hm => ?_) rfl
          have hz' : z ∈ Live i (s.setNext a i x.ref) := hlive ▸ ⟨hz, hm⟩
          exact hz'.1
      exact ⟨hs, holds_cleanupLevel (ha.wf w) hs (knows_step h1) h2 (h3.insert _) (h4.insert _),
        fun n j y hn => absurd hn (hno n j y)⟩
  · cases c with
    | insert n i lists => exact .read w h hl (by simp [Pc.Links])
    | remove n r => exact .read w h trivial (by simp [Pc.Links])

theorem link_remove (hpos : 0 < levelmax) (ha : Act t S s (step levelmax level t s op l).1)
    (hpc : (∃ n, l = .markTop n) ∨ (∃ n i, l = .markNext n i) ∨ (∃ n i r, l = .markCas n i r) ∨
      (∃ n, l = .removeVal n) ∨ ∃ n r, l = .removeFree n r) :
    LinkOk levelmax S s op l (step levelmax level t s op l) := by
  rcases hpc with ⟨n, rfl⟩ | ⟨n, i, rfl⟩ | ⟨n, i, r, rfl⟩ | ⟨n, rfl⟩ | ⟨n, r, rfl⟩
  · simp only [step]
    split <;> exact .read w h trivial (by simp [Pc.Links])
  · simp only [step]
    split
    · cases i <;> exact .read w h trivial (by simp [Pc.Links])
    · exact .read w h trivial (by simp [Pc.Links])
  · obtain ⟨q, m⟩ := r
    obtain rfl : m = false := hat.2.2.2
    have hno : ∀ n' j y, ¬ (Pc.markCas n i (⟨q, false⟩ : Ref T) : Pc T V).Links n' j y := by
      simp [Pc.Links]
    rcases hc : s.cas n i (unsetMark ⟨q, false⟩) (setMark ⟨q, false⟩) with ⟨⟨⟩, s'⟩
    · simp only [step, hc]
      rw [cas_false hc]
      exact .read w h trivial fun n' j y hn => absurd hn (hno n' j y)
    · simp only [step, hc] at ha ⊢
      obtain ⟨hn, rfl⟩ := cas_true hc
      have hsame : ∀ y j, ((s.setNext n i (setMark ⟨q, false⟩)).next y j).ptr = (s.next y j).ptr :=
        fun y j => mark_next (q := q) hn y j
      refine ⟨h.calm w (ha.keeps w) (ha.wf w) (fun j y _ _ => hsame y j) fun y hy => Or.inl ?_, ?_,
        fun n' j y hn => absurd hn (hno n' j y)⟩
      · have hy' : LnkAt 0 s y := (linked_congr fun z _ _ => hsame z 0).mp hy
        exact pubAt_zero.mp ⟨s, w.mem, hy'⟩
      · cases i <;> trivial
  · exact .read w h ⟨trivial, Nat.sub_lt hpos one_pos, ⟨s, w.mem, linked_head⟩⟩ (by simp [Pc.Links])
  · exact ⟨h.own w ha fun _ _ => rfl, trivial, fun n' j y hn => by simp [Pc.Links] at hn⟩

/-- **Every step adds the node it links to its level, and leads to the next
assertion.** -/
theorem link_ok (hpos : 0 < levelmax) (ht : op.key < ⊤)
    (ha : Act t S s (step levelmax level t s op l).1) (hf : Rejoins s op l)
    (hr : result l = none) : LinkOk levelmax S s op l (step levelmax level t s op l) := by
  cases l
  case left | leftKey | leftCond | leftMark | leftNext | leftEq | searchEq | searchVal =>
    exact link_search w h hat hl (by simp)
  case noCleanup | noCleanupMark | noCleanupKey | noCleanupNext | found =>
    exact link_no_cleanup w h hat hl (by simp)
  case insertAlloc | insertFill | insertCas | insertFree =>
    exact link_insert w h hat hl hpos ha (by simp)
  case linkTop | linkMark | linkCas => exact link_link w h hat hl ht ha hf (by simp)
  case cleanup | cleanupNext | cleanupKey | cleanupCas | cleanupEq =>
    exact link_cleanup w h hat hl hpos ha (by simp)
  case markTop | markNext | markCas | removeVal | removeFree =>
    exact link_remove w h hat hl hpos ha (by simp)
  case done => cases hr
  case unchanged => cases hr

end step

/-! ### The runs -/

section runs

variable [Nontrivial K] (hpos : 0 < levelmax)

/-- An event that leaves the nodes alone. -/
theorem Sound.frame {es} {e : Event T (Call K V) (Answer V)}
    {th : T → Option (Call K V × Pc T V)} (h : Sound levelmax ((keyed T K V levelmax).seen es) s) :
    Sound levelmax ((keyed T K V levelmax).seen ((e, ⟨s, th⟩) :: es)) s := by
  rw [Program.seen, Set.insert_eq_of_mem h.mem]
  exact h

include hpos in
omit [Nontrivial K] in
theorem holds_start (hs : s ∈ S) (op : Call K V) : Holds levelmax S s op (start levelmax op) := by
  have hhead : PubAt (levelmax - 1) S .head := ⟨s, hs, linked_head⟩
  cases op with
  | search k => trivial
  | insert k v | remove k =>
    exact ⟨Nat.sub_lt hpos one_pos, hhead, fun _ j hij hj => by omega⟩

include hpos in
theorem link_ok_of_run {es c} (hr : (keyed T K V levelmax).Run es c) {l : Pc T V} (i : Fin levelmax)
    (ht : c.threads t = some (op, l)) (hres : result l = none) (hf : Rejoins c.shared op l)
    (h : Sound levelmax ((keyed T K V levelmax).seen es) c.shared)
    (hl : Holds levelmax ((keyed T K V levelmax).seen es) c.shared op l) :
    LinkOk levelmax ((keyed T K V levelmax).seen es) c.shared op l
      (step levelmax (i + 1) t c.shared op l) := by
  have hO := (outline hpos fun _ h => h).holds hr
  obtain ⟨-, -, hc, hat⟩ := hO.loc t op l ht
  have ha := (step_ok_of_run hpos (fun _ h => h) hr i ht hres).act
  exact link_ok hO.glob h hat hl hpos hc.2 ha hf hres

def linkOutline : Outline (keyed T K V levelmax) (Guarded Rejoins) (fun _ _ => False) where
  glob es s := Sound levelmax ((keyed T K V levelmax).seen es) s
  loc _ W₀ _ s op l := Holds levelmax W₀ s op l
  pair _ _ := True
  pair_symm := id
  init := .initial levelmax
  frame hg _ := hg.frame
  call _ _ hs _ := holds_start hpos hs _
  call_pair := trivial
  tau := by
    intro es c t op l i s' l' hr ht hres hstep hok hg hl
    have hr' : (keyed T K V levelmax).Run es c := hr.mono fun _ _ _ _ _ => trivial
    have hO := (outline hpos fun _ h => h).holds hr'
    have ha := (step_ok_of_run hpos (fun _ h => h) hr' i ht hres).act
    have hlink := link_ok_of_run hpos hr' i ht hres (hok t op l rfl ht) hg hl
    rw [show step levelmax (i + 1) t c.shared op l = (s', l') from Option.some.inj hstep]
      at ha hlink
    exact ⟨hlink.sound, hlink.next, fun u op₁ l₁ hu hl₁' hl₁ _ =>
      ⟨Holds.step hO.glob (hO.loc u op₁ l₁ hl₁').2.2.2 hl₁ (ha.keeps hO.glob), trivial⟩⟩

/-- In the runs that meet `ok`, a CAS of an insert that links its node at a
level adds the node to the level, and drops no other. -/
def LinksAdd (P : Program T (Call K V) (Answer V) (SkipHeap T K V) (Pc T V) (Fin levelmax))
    (ok : Trace T (Call K V) (Answer V) (SkipHeap T K V) (Pc T V) →
      Config T (Call K V) (SkipHeap T K V) (Pc T V) → Event T (Call K V) (Answer V) →
      Config T (Call K V) (SkipHeap T K V) (Pc T V) → Prop) : Prop :=
  ∀ es c e c', P.RunIf ok es c → P.Step c e c' → ok es c e c' →
    ∀ t op l, e = .tau t → c.threads t = some (op, l) → AddsNode c.shared l c'.shared

include hpos

/-- **An insert drops no node from a level**, in the runs in which, at every CAS
that links a node above level 0, the node's own pointer leads to the same node
as the successor that the search found. -/
theorem herlihy_lf_links : LinksAdd (keyed T K V levelmax) (Guarded Rejoins) := by
  rintro es c e c' hr hst hok t op l rfl ht
  cases hst with
  | @tau t op' l' s' l'' i ht' hres hstep =>
    obtain ⟨rfl, rfl⟩ := Prod.mk.inj (Option.some.inj (ht'.symm.trans ht))
    have hO := (linkOutline hpos).holds hr
    have hlink := link_ok_of_run hpos (hr.mono fun _ _ _ _ _ => trivial) i ht hres
      (hok t op' l' rfl ht) hO.glob (hO.loc t op' l' ht)
    rw [show step levelmax (i + 1) t c.shared op' l' = (s', l'') from Option.some.inj hstep]
      at hlink
    exact hlink.adds

omit hpos in
/-- Three threads, keys 1 to 8, and nodes of up to four levels. -/
theorem herlihy_lf_links_three : LinksAdd (keyed (Fin 3) (Fin 10) ℕ 4) (Guarded Rejoins) :=
  herlihy_lf_links (by decide)

end runs

/-! ### A node that is dropped from its level -/

/-- A thread is about to link `newNode` at level `i`, between `p` and `q`. -/
def linksBetween (newNode : Ptr T) (i : ℕ) (p q : Ptr T) : Option (Call K V × Pc T V) → Bool
  | some (_, .linkCas n j lists) =>
    decide (n = newNode ∧ j = i ∧ lists.preds i = p ∧ lists.succs i = q)
  | _ => false

omit [BoundedOrder K] in
theorem exists_of_linksBetween {th : Option (Call K V × Pc T V)}
    (h : linksBetween n i p q th = true) :
    ∃ op lists, th = some (op, .linkCas n i lists) ∧ lists.preds i = p ∧ lists.succs i = q := by
  rcases th with _ | ⟨op, l⟩
  · cases h
  · cases l <;> simp only [linksBetween, decide_eq_true_eq, reduceCtorEq] at h
    obtain ⟨rfl, rfl, h1, h2⟩ := h
    exact ⟨op, _, rfl, h1, h2⟩

/-- Thread 0 inserts 5 with two levels and stops before the CAS that links the
node at level 1. Thread 1 inserts 7, with two levels as well. The CAS of thread
0 fails, and its search finds 7 at level 1. -/
def staleLink : List (Move (Fin 2) (Call (Fin 10) ℕ) (Fin 2)) :=
  [.call 0 (.insert 5 7)] ++ List.replicate 14 (.tau 0 1) ++
  [.call 1 (.insert 7 9)] ++ List.replicate 19 (.tau 1 1) ++ List.replicate 9 (.tau 0 0)

theorem staleLink_state :
    (Program.play (keyed (Fin 2) (Fin 10) ℕ 2)
      ([], Program.initial (keyed (Fin 2) (Fin 10) ℕ 2)) staleLink).any
      (fun q => linksBetween (.node 0 0) 1 .head (.node 1 0) (q.2.threads 0) &&
        decide (q.2.shared.next .head 1 = (Ptr.node 1 0).ref ∧
          q.2.shared.next (.node 1 0) 1 = Ptr.tail.ref ∧
          q.2.shared.next (.node 0 0) 1 = Ptr.tail.ref)) = true := by
  decide +kernel

/-- **An insert can drop a node from a level.** The CAS of thread 0 links 5 at
level 1 in front of 7, but the pointer of 5 leads to the tail: 7 is not linked
at level 1 any more, and it is not deleted. -/
theorem link_drops_node : ¬ LinksAdd (keyed (Fin 2) (Fin 10) ℕ 2) fun _ _ _ _ => True := by
  intro hclaim
  obtain ⟨⟨es, c⟩, hplay, hq⟩ := (Option.any_eq_true _ _).mp staleLink_state
  obtain ⟨hlinks, hnext⟩ := Bool.and_eq_true_iff.mp hq
  obtain ⟨op, lists, ht, hp, hs⟩ := exists_of_linksBetween hlinks
  obtain ⟨h1, h2, h3⟩ := of_decide_eq_true hnext
  have hpre : ∀ t op, .call t op ∈ staleLink → Keyed op := by
    intro t op h
    simp only [staleLink, List.mem_append, List.mem_cons, List.mem_replicate, List.not_mem_nil,
      or_false, reduceCtorEq, and_false, Move.call.injEq] at h
    rcases h with ⟨-, rfl⟩ | ⟨-, rfl⟩ <;> exact ⟨by decide, by decide⟩
  have hrun := Program.play_run _ .init hpre hplay
  have hpq : c.shared.next (lists.preds 1) 1 = (lists.succs 1).ref := by rw [hp, hs, h1]
  have hstep : (keyed (Fin 2) (Fin 10) ℕ 2).step 0 0 c.shared op (.linkCas (.node 0 0) 1 lists) =
      some (c.shared.setNext .head 1 (Ptr.node 0 0).ref, .linkTop (.node 0 0) 2 lists) := by
    show some (step 2 1 0 c.shared op (.linkCas (.node 0 0) 1 lists)) = _
    rw [hp] at hpq
    simp only [step, SkipHeap.cas, hp, if_pos hpq]
  have hadds := hclaim es c _ _ hrun (.tau 0 ht rfl hstep) trivial 0 op _ rfl ht (.node 0 0) 1 lists
    (Or.inr rfl) hpq
  -- 7 is linked at level 1 before the CAS
  have hbefore : (.node 1 0 : Ptr (Fin 2)) ∈ Live 1 c.shared := by
    have hlnk : LnkAt 1 c.shared (c.shared.next .head 1).ptr :=
      linked_head.next fun h => by cases h
    rw [h1] at hlnk
    exact ⟨hlnk, not_marked_of_next h2⟩
  have hafter : (.node 1 0 : Ptr (Fin 2)) ∈
      Live 1 (c.shared.setNext .head 1 (Ptr.node 0 0).ref) := by
    rw [hadds]
    exact Or.inl hbefore
  -- and not after it
  have hmet : ∀ x, LnkAt 1 (c.shared.setNext .head 1 (Ptr.node 0 0).ref) x →
      x = .head ∨ x = .node 0 0 ∨ x = .tail := by
    intro x hx
    induction hx with
    | refl => exact Or.inl rfl
    | @tail y z _ hyz ih =>
      obtain ⟨hyt, rfl⟩ := hyz
      rcases ih with rfl | rfl | rfl
      · exact Or.inr (Or.inl (congrArg Ref.ptr (next_setNext_self c.shared .head 1 _)))
      · refine Or.inr (Or.inr ?_)
        have hn := next_setNext_of_ne c.shared .head (.node 0 0) 1 1 (Ptr.node 0 0).ref
          (Or.inl fun h => by cases h)
        exact congrArg Ref.ptr (hn.trans h3)
      · exact absurd rfl hyt
  rcases hmet _ hafter.1 with h | h | h <;> cases h

end SkiplistHerlihyLF

end Ascylib
