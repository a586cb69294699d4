/-
# The levels of the lock-free skip lists

Each level of a skip list is a sorted list of its own (`Leveled`), as long as
a node is linked at a level only between two neighbours there, with its
pointer to the second of them. A node is marked level by level: one that has
been linked at a level and is not marked there is linked there still.

`Write` lists what the steps of such a skip list do. A node that is marked at
all its levels and linked at none (`Retired`) stays so, unless a thread links
a node that is marked already.

Key theorems: `Write.leveled`, `Write.stays`, `Write.gone`.
-/
import Ascylib.Levels
import Ascylib.SkipHeap

set_option linter.unusedSectionVars false

namespace Ascylib

open Concur Chain

namespace SkipHeap

variable {T K V : Type*} [DecidableEq T]

/-- The lists of the levels. -/
abbrev tower (T K V : Type*) : TowerView (SlSimple T K V) T K V where
  key := SlSimple.key
  val := SlSimple.val
  next n i := (n.next i).ptr
  dead n := (n.next 0).mark = true

/-- The node is linked at level `i`. -/
abbrev LnkAt (i : ℕ) (s : SkipHeap T K V) (x : Ptr T) : Prop := (tower T K V).Lnk i s x

/-- The node has been linked at level `i`. -/
abbrev PubAt (i : ℕ) (S : Set (SkipHeap T K V)) (x : Ptr T) : Prop := (tower T K V).Pub i S x

variable [LinearOrder K]

/-- A skip list in order at every level, in a run through the memories `S`. -/
structure Leveled [BoundedOrder K] (S : Set (SkipHeap T K V)) (s : SkipHeap T K V) : Prop where
  listed : (tower T K V).Listed S s
  head_mark : ∀ i, ¬ s.Marked .head i
  tail_next : ∀ i, s.next .tail i = Ptr.null.ref
  lnk : ∀ {i x}, PubAt i S x → ¬ s.Marked x i → LnkAt i s x
  next : ∀ {i x}, PubAt i S x → x ≠ .tail →
    PubAt i S (s.next x i).ptr ∧ s.key x < s.key (s.next x i).ptr
  down : ∀ {i j x}, PubAt i S x → j ≤ i → PubAt j S x
  top : ∀ {i x}, PubAt i S x → x ≠ .head → x ≠ .tail → i < s.toplevel x

/-- The writes of thread `t`, level by level. A node may be marked when it is
linked only if `late`. -/
inductive Write (late : Prop) (t : T) (S : Set (SkipHeap T K V)) :
    SkipHeap T K V → SkipHeap T K V → Prop
  | skip {s} : Write late t S s s
  | free {s : SkipHeap T K V} (x : Ptr T) : Write late t S s (s.ssmemFree x)
  | own {s s' : SkipHeap T K V} {m : ℕ} : ¬ PubAt 0 S (.node t m) → m < s'.count t →
      (∀ x, x ≠ .node t m → s'.mem x = s.mem x) → (∀ u, s.count u ≤ s'.count u) →
      Write late t S s s'
  | fill {s : SkipHeap T K V} {r : Ptr T} {m i : ℕ} : ¬ PubAt i S (.node t m) →
      ¬ s.Marked (.node t m) i → Write late t S s (s.setNext (.node t m) i r.ref)
  | link {s : SkipHeap T K V} {p q : Ptr T} {m i : ℕ} : s.next p i = q.ref → PubAt i S p →
      ¬ PubAt i S (.node t m) → m < s.count t → (s.next (.node t m) i).ptr = q →
      (s.Marked (.node t m) i → late) → s.key p < s.key (.node t m) → s.key (.node t m) < s.key q →
      i < s.toplevel (.node t m) → (∀ j < i, PubAt j S (.node t m)) →
      Write late t S s (s.setNext p i (Ptr.node t m).ref)
  | mark {s : SkipHeap T K V} {p q : Ptr T} {i : ℕ} : s.next p i = q.ref → PubAt 0 S p → p ≠ .head →
      p ≠ .tail → Write late t S s (s.setNext p i (setMark q.ref))
  | splice {s : SkipHeap T K V} {p q r : Ptr T} {i : ℕ} : s.next p i = q.ref → PubAt i S p →
      LnkAt i s r → s.key p < s.key r →
      (∀ x, LnkAt i s x → s.key p < s.key x → s.key x < s.key r → s.Marked x i) →
      Write late t S s (s.setNext p i r.ref)

variable [BoundedOrder K] {late : Prop} {t u : T} {S W : Set (SkipHeap T K V)}
  {s s' : SkipHeap T K V} {p q r x : Ptr T} {i j m : ℕ}

/-! ### The writes to `next` -/

theorem marked_setNext_of_ne (h : x ≠ p ∨ j ≠ i) (r : Ref T) :
    (s.setNext p i r).Marked x j ↔ s.Marked x j := by
  rw [Marked, next_setNext_of_ne s p x i j r h]
  rfl

/-- An unmarked pointer is swung. -/
theorem setNext_tower (hm : ¬ s.Marked p i) :
    (tower T K V).Swing s (s.setNext p i r.ref) i p r where
  other y hy := mem_setNext_of_ne s p y i _ hy
  key := key_setNext s p p i _
  val := val_setNext s p p i _
  dead := by
    show (s.setNext p i r.ref).Marked p 0 ↔ s.Marked p 0
    by_cases h : (0 : ℕ) = i
    · subst h
      rw [Marked, next_setNext_self]
      simpa [Ptr.ref] using hm
    · exact marked_setNext_of_ne (Or.inr h) _
  next := congrArg Ref.ptr (next_setNext_self s p i _)
  levels j hj := congrArg Ref.ptr (next_setNext_of_ne s p p i j _ (Or.inr hj))
  count := rfl

/-- An unmarked pointer that is swung stays unmarked. -/
theorem marked_swing (hm : ¬ s.Marked p i) :
    (s.setNext p i r.ref).Marked x j ↔ s.Marked x j := by
  by_cases h : x = p ∧ j = i
  · obtain ⟨rfl, rfl⟩ := h
    rw [Marked, next_setNext_self]
    simpa [Ptr.ref] using hm
  · exact marked_setNext_of_ne (not_and_or.mp h) _

theorem mark_next (h : s.next p i = q.ref) (x : Ptr T) (j : ℕ) :
    ((s.setNext p i (setMark q.ref)).next x j).ptr = (s.next x j).ptr := by
  by_cases hx : x = p ∧ j = i
  · obtain ⟨rfl, rfl⟩ := hx
    rw [next_setNext_self, h]
    rfl
  · rw [next_setNext_of_ne s p x i j _ (not_and_or.mp hx)]

theorem mark_marked (x : Ptr T) (j : ℕ) :
    (s.setNext p i (setMark q.ref)).Marked x j ↔ s.Marked x j ∨ x = p ∧ j = i := by
  by_cases hx : x = p ∧ j = i
  · obtain ⟨rfl, rfl⟩ := hx
    simp [Marked, setMark]
  · rw [marked_setNext_of_ne (not_and_or.mp hx)]
    simp [hx]

theorem pubAt_zero : PubAt 0 S x ↔ Pub S x := by
  have h : Pub S x ↔ ∃ s ∈ S, HarrisHeap.Lnk s.level0 x := Set.exists_mem_image
  exact h.symm

namespace Leveled

variable (w : Leveled S s)

include w

theorem pub_lnk (h : LnkAt i s x) : PubAt i S x := (w.listed i).pub_lnk h

theorem pub_head (i : ℕ) : PubAt i S .head := (w.listed i).pub_head

theorem pub_tail (i : ℕ) : PubAt i S .tail := (w.listed i).pub_tail

theorem head_key : s.key .head = ⊥ := (w.listed 0).head_key

theorem tail_key : s.key .tail = ⊤ := (w.listed 0).tail_key

theorem sorted (i : ℕ) : Sorted ((tower T K V).level i |>.succ s) s.key .head .tail :=
  (w.listed i).sorted

theorem ne_tail_of_lt {k : K} (h : s.key x < k) : x ≠ .tail := (w.listed 0).ne_tail_of_lt h

theorem ne_head_of_lt {k : K} (h : k < s.key x) : x ≠ .head := (w.listed 0).ne_head_of_lt h

theorem tail_mark (i : ℕ) : ¬ s.Marked .tail i := not_marked_of_next (w.tail_next i)

theorem lnk_of_next (hp : PubAt i S p) (h : s.next p i = q.ref) : LnkAt i s p :=
  w.lnk hp (not_marked_of_next h)

theorem pub_zero (h : PubAt i S x) : PubAt 0 S x := w.down h i.zero_le

theorem not_pub_next (t : T) : ¬ PubAt 0 S (.node t (s.count t)) := (w.listed 0).not_pub_next t

/-- Two nodes of a level with one key are one node. -/
theorem inj {y : Ptr T} (hx : LnkAt i s x) (hy : LnkAt i s y) (h : s.key x = s.key y) : x = y :=
  (w.sorted i).inj hx hy h

/-- A step that leaves the pointers of the nodes of every level alone, and
unmarks none. -/
theorem keep (hkey : ∀ x, PubAt 0 S x → s'.key x = s.key x)
    (hval : ∀ x, PubAt 0 S x → s'.val x = s.val x)
    (htop : ∀ x, PubAt 0 S x → s'.toplevel x = s.toplevel x)
    (hnext : ∀ i x, PubAt i S x → (s'.next x i).ptr = (s.next x i).ptr)
    (hmark : ∀ i x, PubAt i S x → s.Marked x i → s'.Marked x i)
    (hhead : ∀ i, s'.Marked .head i → s.Marked .head i)
    (htail : ∀ i, s'.next .tail i = s.next .tail i) (hc : ∀ u, s.count u ≤ s'.count u) :
    (tower T K V).Same S s s' ∧ Leveled (insert s' S) s' := by
  have hsame : (tower T K V).Same S s s' := fun i =>
    ⟨fun x hx => hkey x (w.pub_zero hx), fun x hx => hval x (w.pub_zero hx),
      fun x hx _ => hnext i x hx, hc⟩
  have hpub : ∀ i x, PubAt i (insert s' S) x ↔ PubAt i S x := fun i => (hsame i).pub (w.listed i)
  refine ⟨hsame, fun i => (hsame i).listed (w.listed i), fun i h => w.head_mark i (hhead i h),
    fun i => (htail i).trans (w.tail_next i), fun {i x} hx hm => ?_, fun {i x} hx hxt => ?_,
    fun {i j x} hx hj => ?_, fun {i x} hx hxh hxt => ?_⟩
  · have hx := (hpub i x).mp hx
    exact ((hsame i).lnk (w.listed i) x).mpr (w.lnk hx fun h => hm (hmark i x hx h))
  · have hx := (hpub i x).mp hx
    obtain ⟨h1, h2⟩ := w.next hx hxt
    rw [hpub, hnext i x hx, hkey x (w.pub_zero hx), hkey _ (w.pub_zero h1)]
    exact ⟨h1, h2⟩
  · rw [hpub] at hx ⊢
    exact w.down hx hj
  · have hx := (hpub i x).mp hx
    rw [htop x (w.pub_zero hx)]
    exact w.top hx hxh hxt

/-- A step that does not touch the nodes of level 0. -/
theorem keep_of_mem (h : ∀ x, PubAt 0 S x → s'.mem x = s.mem x) (hc : ∀ u, s.count u ≤ s'.count u) :
    (tower T K V).Same S s s' ∧ Leveled (insert s' S) s' := by
  have hn : ∀ i x, PubAt 0 S x → s'.next x i = s.next x i := fun i x hx => by
    rw [SkipHeap.next, h x hx]
    rfl
  refine w.keep (fun x hx => ?_) (fun x hx => ?_) (fun x hx => ?_)
    (fun i x hx => congrArg Ref.ptr (hn i x (w.pub_zero hx))) (fun i x hx hm => ?_) (fun i hm => ?_)
    (fun i => hn i _ (w.pub_tail 0)) hc
  · rw [key, h x hx]
    rfl
  · rw [val, h x hx]
    rfl
  · rw [toplevel, h x hx]
    rfl
  · rwa [Marked, hn i x (w.pub_zero hx)]
  · rwa [Marked, hn i _ (w.pub_head 0)] at hm

end Leveled

/-! ### Linking and unlinking -/

section link

variable (w : Leveled S s) (hpq : s.next p i = q.ref) (hp : PubAt i S p)

include w hpq hp

theorem link_tower (hnq : (s.next (.node t m) i).ptr = q) (hlt : s.key p < s.key (.node t m))
    (hn : ¬ PubAt i S (.node t m)) (j : ℕ) (x : Ptr T) :
    (LnkAt j (s.setNext p i (Ptr.node t m).ref) x ↔ LnkAt j s x ∨ j = i ∧ x = .node t m) ∧
      (PubAt j (insert (s.setNext p i (Ptr.node t m).ref) S) x ↔
        PubAt j S x ∨ j = i ∧ x = .node t m) := by
  have hsw : (tower T K V).Swing s (s.setNext p i (Ptr.node t m).ref) i p (.node t m) :=
    setNext_tower (not_marked_of_next hpq)
  have hne : (s.next (.node t m) i).ptr = (s.next p i).ptr := by rw [hnq, hpq]; rfl
  have hlp := w.lnk_of_next hp hpq
  have hpt := w.ne_tail_of_lt hlt
  exact ⟨hsw.link_lnk w.listed hlp hpt hn hne j x, hsw.link_pub w.listed hlp hpt hn hne j x⟩

theorem link_leveled (hn : ¬ PubAt i S (.node t m)) (hm : m < s.count t)
    (hnq : (s.next (.node t m) i).ptr = q) (h1 : s.key p < s.key (.node t m))
    (h2 : s.key (.node t m) < s.key q) (htop : i < s.toplevel (.node t m))
    (hdown : ∀ j < i, PubAt j S (.node t m)) :
    Leveled (insert (s.setNext p i (Ptr.node t m).ref) S) (s.setNext p i (Ptr.node t m).ref) := by
  have hpm : ¬ s.Marked p i := not_marked_of_next hpq
  have hpt := w.ne_tail_of_lt h1
  have hlp := w.lnk_of_next hp hpq
  have hsw : (tower T K V).Swing s (s.setNext p i (Ptr.node t m).ref) i p (.node t m) :=
    setNext_tower hpm
  have hnp : (s.next p i).ptr = q := by rw [hpq]; rfl
  have hlnk := fun j x => (link_tower w hpq hp hnq h1 hn j x).1
  have hpub := fun j x => (link_tower w hpq hp hnq h1 hn j x).2
  refine ⟨hsw.link_listed w.listed hlp hpt hn (hnq.trans hnp.symm) h1 ?_ ⟨t, m, rfl, hm⟩,
    fun j h => w.head_mark j ((marked_swing hpm).mp h), fun j => ?_, fun {j x} hx hm => ?_,
    fun {j x} hx hxt => ?_, fun {j k x} hx hkj => ?_, fun {j x} hx hxh hxt => ?_⟩
  · show s.key (.node t m) < s.key (s.next p i).ptr
    rw [hnp]
    exact h2
  · rw [next_setNext_of_ne s p .tail i j _ (Or.inl (Ne.symm hpt))]
    exact w.tail_next j
  · rw [marked_swing hpm] at hm
    exact (hlnk j x).mpr (((hpub j x).mp hx).imp_left fun hx => w.lnk hx hm)
  · rw [hpub, key_setNext, key_setNext]
    by_cases hxp : x = p ∧ j = i
    · obtain ⟨rfl, rfl⟩ := hxp
      rw [next_setNext_self]
      exact ⟨Or.inr ⟨rfl, rfl⟩, h1⟩
    · rw [next_setNext_of_ne s p x i j _ (not_and_or.mp hxp)]
      rcases (hpub j x).mp hx with hx | ⟨rfl, rfl⟩
      · obtain ⟨h3, h4⟩ := w.next hx hxt
        exact ⟨Or.inl h3, h4⟩
      · rw [hnq, ← hnp]
        refine ⟨Or.inl (w.next hp hpt).1, ?_⟩
        rw [hnp]
        exact h2
  · rw [hpub] at hx ⊢
    rcases hx with hx | ⟨rfl, rfl⟩
    · exact Or.inl (w.down hx hkj)
    · exact hkj.lt_or_eq.imp (hdown k) fun h => ⟨h, rfl⟩
  · rw [toplevel_setNext]
    rcases (hpub j x).mp hx with hx | ⟨rfl, rfl⟩
    · exact w.top hx hxh hxt
    · exact htop

end link

section splice

variable (w : Leveled S s) (hpq : s.next p i = q.ref) (hp : PubAt i S p) (hr : LnkAt i s r)
  (hk : s.key p < s.key r)

include w hpq hp hr hk

theorem splice_tower (j : ℕ) (x : Ptr T) : (LnkAt j (s.setNext p i r.ref) x ↔
      LnkAt j s x ∧ (j = i → s.key x ≤ s.key p ∨ s.key r ≤ s.key x)) ∧
    (PubAt j (insert (s.setNext p i r.ref) S) x ↔ PubAt j S x) := by
  have hsw : (tower T K V).Swing s (s.setNext p i r.ref) i p r :=
    setNext_tower (not_marked_of_next hpq)
  have hlp := w.lnk_of_next hp hpq
  exact ⟨hsw.splice_lnk w.listed hlp hr hk j x, hsw.splice_pub w.listed hlp hr hk j x⟩

theorem splice_leveled
    (hm : ∀ x, LnkAt i s x → s.key p < s.key x → s.key x < s.key r → s.Marked x i) :
    Leveled (insert (s.setNext p i r.ref) S) (s.setNext p i r.ref) := by
  have hpm : ¬ s.Marked p i := not_marked_of_next hpq
  have hpt := w.ne_tail_of_lt hk
  have hsw : (tower T K V).Swing s (s.setNext p i r.ref) i p r := setNext_tower hpm
  have hlnk := fun j x => (splice_tower w hpq hp hr hk j x).1
  have hpub := fun j x => (splice_tower w hpq hp hr hk j x).2
  refine ⟨hsw.splice_listed w.listed (w.lnk_of_next hp hpq) hr hk,
    fun j h => w.head_mark j ((marked_swing hpm).mp h), fun j => ?_, fun {j x} hx hmx => ?_,
    fun {j x} hx hxt => ?_, fun {j k x} hx hkj => ?_, fun {j x} hx hxh hxt => ?_⟩
  · rw [next_setNext_of_ne s p .tail i j _ (Or.inl (Ne.symm hpt))]
    exact w.tail_next j
  · rw [marked_swing hpm] at hmx
    have hlx := w.lnk ((hpub j x).mp hx) hmx
    refine (hlnk j x).mpr ⟨hlx, ?_⟩
    rintro rfl
    by_contra h
    rw [not_or, not_le, not_le] at h
    exact hmx (hm x hlx h.1 h.2)
  · rw [hpub, key_setNext, key_setNext]
    by_cases hxp : x = p ∧ j = i
    · obtain ⟨rfl, rfl⟩ := hxp
      rw [next_setNext_self]
      exact ⟨w.pub_lnk hr, hk⟩
    · rw [next_setNext_of_ne s p x i j _ (not_and_or.mp hxp)]
      exact w.next ((hpub j x).mp hx) hxt
  · rw [hpub] at hx ⊢
    exact w.down hx hkj
  · rw [toplevel_setNext]
    exact w.top ((hpub j x).mp hx) hxh hxt

end splice

/-! ### Any write -/

namespace Leveled

variable (w : Leveled S s)

include w

theorem keep_fill (hx : ¬ PubAt i S x) (hm : ¬ s.Marked x i) (r : Ptr T) :
    (∀ j y, PubAt j (insert (s.setNext x i r.ref) S) y ↔ PubAt j S y) ∧
      (∀ j y, LnkAt j (s.setNext x i r.ref) y ↔ LnkAt j s y) ∧
      Leveled (insert (s.setNext x i r.ref) S) (s.setNext x i r.ref) := by
  have hne : ∀ {j y}, PubAt j S y → y ≠ x ∨ j ≠ i := fun {j y} hy => by
    by_contra h
    rw [not_or, not_not, not_not] at h
    exact hx (h.1 ▸ h.2 ▸ hy)
  obtain ⟨hs, hw⟩ := w.keep (fun y _ => key_setNext s x y i _) (fun y _ => val_setNext s x y i _)
    (fun y _ => toplevel_setNext s x y i _)
    (fun j y hy => congrArg Ref.ptr (next_setNext_of_ne s x y i j _ (hne hy)))
    (fun j y hy h => (marked_swing hm).mpr h) (fun j h => (marked_swing hm).mp h)
    (fun j => next_setNext_of_ne s x .tail i j _ (hne (w.pub_tail j))) fun _ => le_rfl
  exact ⟨fun j => (hs j).pub (w.listed j), fun j => (hs j).lnk (w.listed j), hw⟩

theorem keep_mark (hpq : s.next p i = q.ref) (hph : p ≠ .head) (hpt : p ≠ .tail) :
    (∀ j y, PubAt j (insert (s.setNext p i (setMark q.ref)) S) y ↔ PubAt j S y) ∧
      (∀ j y, LnkAt j (s.setNext p i (setMark q.ref)) y ↔ LnkAt j s y) ∧
      Leveled (insert (s.setNext p i (setMark q.ref)) S) (s.setNext p i (setMark q.ref)) := by
  obtain ⟨hs, hw⟩ := w.keep (fun y _ => key_setNext s p y i _) (fun y _ => val_setNext s p y i _)
    (fun y _ => toplevel_setNext s p y i _) (fun j y _ => mark_next hpq y j)
    (fun j y _ h => (mark_marked y j).mpr (Or.inl h))
    (fun j h => ((mark_marked _ j).mp h).resolve_right fun h => hph h.1.symm)
    (fun j => next_setNext_of_ne s p .tail i j _ (Or.inl (Ne.symm hpt))) fun _ => le_rfl
  exact ⟨fun j => (hs j).pub (w.listed j), fun j => (hs j).lnk (w.listed j), hw⟩

theorem keep_own (h : ∀ x, PubAt 0 S x → s'.mem x = s.mem x) (hc : ∀ u, s.count u ≤ s'.count u) :
    (∀ j y, PubAt j (insert s' S) y ↔ PubAt j S y) ∧ (∀ j y, LnkAt j s' y ↔ LnkAt j s y) ∧
      Leveled (insert s' S) s' := by
  obtain ⟨hs, hw⟩ := w.keep_of_mem h hc
  exact ⟨fun j => (hs j).pub (w.listed j), fun j => (hs j).lnk (w.listed j), hw⟩

theorem keep_free (x : Ptr T) : (∀ j y, PubAt j (insert (s.ssmemFree x) S) y ↔ PubAt j S y) ∧
    Leveled (insert (s.ssmemFree x) S) (s.ssmemFree x) := by
  have hmem : ∀ y, PubAt 0 S y → (s.ssmemFree x).mem y = s.mem y := fun _ _ => rfl
  obtain ⟨h1, -, h2⟩ := w.keep_own hmem fun _ => le_rfl
  exact ⟨h1, h2⟩

end Leveled

theorem own_mem_of_pub (hn : ¬ PubAt 0 S (.node t m)) (he : ∀ x, x ≠ .node t m → s'.mem x = s.mem x)
    (x : Ptr T) (hx : PubAt 0 S x) : s'.mem x = s.mem x := he x fun h => hn (h ▸ hx)

/-- **Every write keeps the levels in order.** -/
theorem Write.leveled (a : Write late t S s s') (w : Leveled S s) : Leveled (insert s' S) s' := by
  cases a with
  | skip => exact (w.keep_own (fun _ _ => rfl) fun _ => le_rfl).2.2
  | free x => exact (w.keep_free x).2
  | own hn hm he hc => exact (w.keep_own (own_mem_of_pub hn he) hc).2.2
  | fill hx hm => exact (w.keep_fill hx hm _).2.2
  | link hpq hp hn hm hnq hl h1 h2 h3 h4 => exact link_leveled w hpq hp hn hm hnq h1 h2 h3 h4
  | mark hpq hp hph hpt => exact (w.keep_mark hpq hph hpt).2.2
  | splice hpq hp hr hk hm => exact splice_leveled w hpq hp hr hk hm

/-- A write publishes at most one node, of the thread's own. -/
theorem Write.published (a : Write late t S s s') (w : Leveled S s)
    (h : PubAt j (insert s' S) x) : PubAt j S x ∨ ∃ m, x = .node t m := by
  cases a with
  | skip => exact Or.inl (((w.keep_own (fun _ _ => rfl) fun _ => le_rfl).1 j x).mp h)
  | free y => exact Or.inl (((w.keep_free y).1 j x).mp h)
  | own hn hm he hc => exact Or.inl (((w.keep_own (own_mem_of_pub hn he) hc).1 j x).mp h)
  | fill hx hm => exact Or.inl (((w.keep_fill hx hm _).1 j x).mp h)
  | link hpq hp hn hm hnq hl h1 h2 h3 h4 =>
    exact ((link_tower w hpq hp hnq h1 hn j x).2.mp h).imp_right fun h => ⟨_, h.2⟩
  | mark hpq hp hph hpt => exact Or.inl (((w.keep_mark hpq hph hpt).1 j x).mp h)
  | splice hpq hp hr hk hm => exact Or.inl ((splice_tower w hpq hp hr hk j x).2.mp h)

/-- A node that is marked when it is linked is linked late. -/
theorem Write.linked (a : Write late t S s s') (w : Leveled S s) (h : LnkAt j s' x) :
    LnkAt j s x ∨ (s.Marked x j → late) ∧ j < s.toplevel x := by
  cases a with
  | skip => exact Or.inl h
  | free y => exact Or.inl h
  | own hn hm he hc => exact Or.inl (((w.keep_own (own_mem_of_pub hn he) hc).2.1 j x).mp h)
  | fill hx hm => exact Or.inl (((w.keep_fill hx hm _).2.1 j x).mp h)
  | link hpq hp hn hm hnq hl h1 h2 h3 h4 =>
    refine ((link_tower w hpq hp hnq h1 hn j x).1.mp h).imp_right ?_
    rintro ⟨rfl, rfl⟩
    exact ⟨hl, h3⟩
  | mark hpq hp hph hpt => exact Or.inl (((w.keep_mark hpq hph hpt).2.1 j x).mp h)
  | splice hpq hp hr hk hm => exact Or.inl ((splice_tower w hpq hp hr hk j x).1.mp h).1

/-- What a step of thread `t` leaves alone. -/
structure Stays (t : T) (S : Set (SkipHeap T K V)) (s s' : SkipHeap T K V) : Prop where
  key : ∀ x, PubAt 0 S x → s'.key x = s.key x
  val : ∀ x, PubAt 0 S x → s'.val x = s.val x
  top : ∀ x, PubAt 0 S x → s'.toplevel x = s.toplevel x
  frozen : ∀ x i, PubAt 0 S x → s.Marked x i → s'.next x i = s.next x i
  others : ∀ u m, u ≠ t → ¬ PubAt 0 S (.node u m) → s'.mem (.node u m) = s.mem (.node u m)
  apart : ∀ u m i, u ≠ t → ¬ PubAt i S (.node u m) →
    (s'.next (.node u m) i).ptr = (s.next (.node u m) i).ptr
  count : ∀ u, s.count u ≤ s'.count u

theorem stays_of_mem (h : ∀ x, PubAt 0 S x → s'.mem x = s.mem x)
    (ho : ∀ u m, u ≠ t → s'.mem (.node u m) = s.mem (.node u m))
    (hc : ∀ u, s.count u ≤ s'.count u) : Stays t S s s' := by
  refine ⟨fun x hx => ?_, fun x hx => ?_, fun x hx => ?_, fun x i hx _ => ?_,
    fun u m hu _ => ho u m hu, fun u m i hu _ => ?_, hc⟩
  · rw [SkipHeap.key, h x hx]
    rfl
  · rw [SkipHeap.val, h x hx]
    rfl
  · rw [toplevel, h x hx]
    rfl
  · rw [SkipHeap.next, h x hx]
    rfl
  · rw [SkipHeap.next, ho u m hu]
    rfl

/-- A write to an unmarked pointer, of a node of the thread or of one that is
published there, or one that only marks. -/
theorem stays_setNext {r : Ref T} (hm : ¬ s.Marked p i) (hp : PubAt 0 S p ∨ ∃ m, p = .node t m)
    (hi : PubAt i S p ∨ (∃ m, p = .node t m) ∨ r.ptr = (s.next p i).ptr) :
    Stays t S s (s.setNext p i r) := by
  refine ⟨fun x _ => key_setNext s p x i r, fun x _ => val_setNext s p x i r,
    fun x _ => toplevel_setNext s p x i r, fun x j hx hmx => ?_, fun u m hu hx => ?_,
    fun u m j hu hx => ?_, fun _ => le_rfl⟩
  · refine next_setNext_of_ne s p x i j r ?_
    by_contra h
    rw [not_or, not_not, not_not] at h
    exact hm (h.1 ▸ h.2 ▸ hmx)
  · refine mem_setNext_of_ne s p _ i r ?_
    rintro rfl
    rcases hp with hp | ⟨m', hp⟩
    · exact hx hp
    · exact hu (Ptr.node.inj hp).1
  · by_cases h : (.node u m : Ptr T) = p ∧ j = i
    · obtain ⟨rfl, rfl⟩ := h
      rw [next_setNext_self]
      rcases hi with hi | ⟨m', hi⟩ | hi
      · exact absurd hi hx
      · exact absurd (Ptr.node.inj hi).1 hu
      · exact hi
    · rw [next_setNext_of_ne s p _ i j r (not_and_or.mp h)]

theorem Write.stays (a : Write late t S s s') (w : Leveled S s) : Stays t S s s' := by
  cases a with
  | skip => exact stays_of_mem (fun _ _ => rfl) (fun _ _ _ => rfl) fun _ => le_rfl
  | free x =>
    have hmem : ∀ y, (s.ssmemFree x).mem y = s.mem y := fun _ => rfl
    exact stays_of_mem (fun y _ => hmem y) (fun _ _ _ => hmem _) fun _ => le_rfl
  | own hn hm he hc =>
    exact stays_of_mem (own_mem_of_pub hn he) (fun u m hu => he _ fun h => hu (Ptr.node.inj h).1) hc
  | fill hx hm => exact stays_setNext hm (Or.inr ⟨_, rfl⟩) (Or.inr (Or.inl ⟨_, rfl⟩))
  | link hpq hp => exact stays_setNext (not_marked_of_next hpq) (Or.inl (w.pub_zero hp)) (Or.inl hp)
  | mark hpq hp =>
    exact stays_setNext (not_marked_of_next hpq) (Or.inl hp) (Or.inr (Or.inr (by rw [hpq]; rfl)))
  | splice hpq hp => exact stays_setNext (not_marked_of_next hpq) (Or.inl (w.pub_zero hp)) (Or.inl hp)

section step

variable (hk : Stays t S s s')

include hk

theorem Stays.marked (hx : PubAt 0 S x) (hm : s.Marked x i) : s'.Marked x i := by
  rw [Marked, hk.frozen x i hx hm]
  exact hm

end step

theorem PubAt.mono (h : PubAt i W x) (hW : W ⊆ S) : PubAt i S x := Met.mono h hW

theorem PubAt.insert (h : PubAt i S x) (s' : SkipHeap T K V) : PubAt i (insert s' S) x :=
  h.mono (Set.subset_insert _ _)

/-- A node of another thread is not published by a step. -/
theorem Write.unpublished (a : Write late t S s s') (w : Leveled S s) (hu : u ≠ t)
    (h : ¬ PubAt i S (.node u m)) : ¬ PubAt i (Insert.insert s' S) (.node u m) := by
  intro hp
  rcases a.published w hp with hp | ⟨m', hp⟩
  · exact h hp
  · exact hu (Ptr.node.inj hp).1

/-! ### Marked nodes that are linked nowhere -/

/-- The node is marked at all its levels. -/
def Doomed (S : Set (SkipHeap T K V)) (s : SkipHeap T K V) (x : Ptr T) : Prop :=
  PubAt 0 S x ∧ ∀ i < s.toplevel x, s.Marked x i

/-- And from level `i` up it is not linked. -/
def Retired (levelmax : ℕ) (S : Set (SkipHeap T K V)) (s : SkipHeap T K V) (i : ℕ) (x : Ptr T) :
    Prop :=
  Doomed S s x ∧ ∀ j, i ≤ j → j < levelmax → ¬ LnkAt j s x

theorem Doomed.step (h : Doomed S s x) (hk : Stays t S s s') : Doomed (insert s' S) s' x := by
  refine ⟨h.1.insert s', fun i hi => hk.marked h.1 (h.2 i ?_)⟩
  rwa [hk.top x h.1] at hi

/-- **If no node is linked late, a doomed node that is not linked never is.** -/
theorem Write.gone (a : Write False t S s s') (w : Leveled S s) (h : Doomed S s x)
    (hl : ¬ LnkAt i s x) : ¬ LnkAt i s' x := by
  intro hl'
  rcases a.linked w hl' with hx | ⟨hx, htop⟩
  · exact hl hx
  · exact hx (h.2 i htop)

theorem Write.retired {levelmax : ℕ} (a : Write False t S s s') (w : Leveled S s)
    (h : Retired levelmax S s i x) : Retired levelmax (insert s' S) s' i x :=
  ⟨h.1.step (a.stays w), fun j hj hl => a.gone w h.1 (h.2 j hj hl)⟩

/-! ### One level of a search

A search that cleans up goes from a left node over marked nodes (`MarkedTo`) to
a right one that is not marked, and unlinks what lies between. A marked node
that was in front of the right node is not linked afterwards. -/

/-- From `a` marked nodes lead to `b`, at level `i`. -/
def MarkedTo (i : ℕ) (s : SkipHeap T K V) (a b : Ptr T) : Prop :=
  Relation.ReflTransGen (fun x y => s.Marked x i ∧ (s.next x i).ptr = y) a b

/-- The node does not stand in front of `r` at level `i`. -/
def NotBefore (i : ℕ) (s : SkipHeap T K V) (y r : Ptr T) : Prop :=
  ¬ LnkAt i s y ∨ s.key r < s.key y ∨ r = y

section level

variable (w : Leveled S s) {a b y : Ptr T}

include w

theorem MarkedTo.step (h : MarkedTo i s a b) (ha : PubAt i S a) (hk : Stays t S s s') :
    MarkedTo i s' a b := by
  induction h using Relation.ReflTransGen.head_induction_on with
  | refl => exact .refl
  | @head x y hxy _ ih =>
    obtain ⟨hm, rfl⟩ := hxy
    have h0 := w.pub_zero ha
    have hxt : x ≠ .tail := fun h => w.tail_mark i (h ▸ hm)
    refine .head ⟨hk.marked h0 hm, ?_⟩ (ih (w.next ha hxt).1)
    rw [hk.frozen x i h0 hm]

theorem MarkedTo.lnk (h : MarkedTo i s a b) (ha : LnkAt i s a) :
    LnkAt i s b ∧ ∀ x, LnkAt i s x → s.key a ≤ s.key x → s.key x < s.key b → s.Marked x i := by
  induction h using Relation.ReflTransGen.head_induction_on with
  | refl => exact ⟨ha, fun x _ h1 h2 => absurd h2 (not_lt.mpr h1)⟩
  | @head y z hyz _ ih =>
    obtain ⟨hm, rfl⟩ := hyz
    have hyt : y ≠ .tail := fun h => w.tail_mark i (h ▸ hm)
    obtain ⟨h1, h2⟩ := ih (ha.next hyt)
    refine ⟨h1, fun x hx h3 h4 => ?_⟩
    rcases (w.sorted i).le_or_next_le ha hyt hx with h5 | h5
    · rwa [w.inj hx ha (le_antisymm h5 h3)]
    · exact h2 x hx h5 h4

theorem linked_next (hp : PubAt i S p) (hpt : p ≠ .tail) (hn : s.next p i = q.ref) : LnkAt i s q := by
  have h : LnkAt i s (s.next p i).ptr := (w.lnk_of_next hp hn).next hpt
  rwa [hn] at h

/-- The marked nodes behind the left one are unlinked. -/
theorem splice_write (hp : PubAt i S p) (hn : s.next p i = a.ref) (h : MarkedTo i s a r)
    (hk : s.key p < s.key r) : LnkAt i s r ∧ Write late t S s (s.setNext p i r.ref) := by
  have hpt := w.ne_tail_of_lt hk
  have hlp := w.lnk_of_next hp hn
  obtain ⟨hr, hmark⟩ := h.lnk w (linked_next w hp hpt hn)
  refine ⟨hr, .splice hn hp hr hk fun x hx h1 h2 => hmark x hx ?_ h2⟩
  have h3 : s.key (s.next p i).ptr ≤ s.key x :=
    ((w.sorted i).le_or_next_le hlp hpt hx).resolve_left (not_le.mpr h1)
  rwa [hn] at h3

/-- A node with a larger key is not in front of the successor. -/
theorem notBefore_next (hp : PubAt i S p) (hn : s.next p i = q.ref) (hlt : s.key p < s.key y) :
    NotBefore i s y q := by
  have hpt := w.ne_tail_of_lt hlt
  by_cases hy : LnkAt i s y
  · have h : s.key (s.next p i).ptr ≤ s.key y :=
      ((w.sorted i).le_or_next_le (w.lnk_of_next hp hn) hpt hy).resolve_left (not_le.mpr hlt)
    rw [hn] at h
    exact Or.inr (h.lt_or_eq.imp_right fun he => w.inj (linked_next w hp hpt hn) hy he)
  · exact Or.inl hy

omit w in
theorem NotBefore.gone (h : NotBefore i s y r) (hne : r ≠ y) (hle : s.key y ≤ s.key r) :
    ¬ LnkAt i s y :=
  h.resolve_right fun h => h.elim (fun h => absurd hle (not_le.mpr h)) hne

theorem NotBefore.step (h : NotBefore i s y r) (hk : Stays t S s s')
    (hgone : ¬ LnkAt i s y → ¬ LnkAt i s' y) (hy : PubAt 0 S y) (hr : PubAt 0 S r) :
    NotBefore i s' y r := by
  refine h.imp hgone (Or.imp_left fun h => ?_)
  rwa [hk.key y hy, hk.key r hr]

/-- A node between the two that are made neighbours is not linked any more. -/
theorem gone_of_splice (hp : PubAt i S p) (hn : s.next p i = a.ref) (hr : LnkAt i s r)
    (h1 : s.key p < s.key y) (h2 : s.key y ≤ s.key r) (hne : r ≠ y) :
    ¬ LnkAt i (s.setNext p i r.ref) y := by
  intro hy
  obtain ⟨hy, h3⟩ := (splice_tower w hn hp hr (h1.trans_le h2) i y).1.mp hy
  have h4 := (h3 rfl).resolve_left (not_le.mpr h1)
  exact hne (w.inj hr hy (le_antisymm h4 h2))

end level

/-! ### The empty skip list -/

theorem Leveled.initial [Nontrivial K] [Zero V] (levelmax : ℕ) :
    Leveled {(empty levelmax : SkipHeap T K V)} (empty levelmax) := by
  have hlnk : ∀ i x, LnkAt i (empty levelmax : SkipHeap T K V) x ↔ x = .head ∨ x = .tail :=
    fun i => NodeView.lnk_empty (D := (tower T K V).level i) rfl
  have hpub : ∀ i x, PubAt i {(empty levelmax : SkipHeap T K V)} x ↔ x = .head ∨ x = .tail :=
    fun i => NodeView.pub_empty (D := (tower T K V).level i) rfl
  refine ⟨fun i => NodeView.Listed.initial rfl rfl rfl, fun _ => nofun, fun _ => rfl,
    fun {i x} hx _ => (hlnk i x).mpr ((hpub i x).mp hx), fun {i x} hx hxt => ?_,
    fun {i j x} hx _ => (hpub j x).mpr ((hpub i x).mp hx), fun {i x} hx hxh hxt => ?_⟩
  · rcases (hpub i x).mp hx with rfl | rfl
    · exact ⟨(hpub i _).mpr (Or.inr rfl), (bot_lt_top : (⊥ : K) < ⊤)⟩
    · exact absurd rfl hxt
  · rcases (hpub i x).mp hx with rfl | rfl
    · exact absurd rfl hxh
    · exact absurd rfl hxt

end SkipHeap

end Ascylib
