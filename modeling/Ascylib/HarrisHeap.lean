/-
# What the steps of a Harris list do to the shared memory

The two lock-free lists write the shared memory in the same few ways: they
fill a node of their own, link it between two neighbours, mark a node, or
swing the pointer of an unmarked node over a stretch of marked ones (`Act`).
Every such step keeps the list well formed (`Act.wf`), and leaves keys,
values, marked nodes and the private nodes of other threads alone
(`Act.keeps`).

A node is published once it has been linked (`Pub`). A published node that is
not marked is linked; a marked one never changes again, so a traversal that
stands on it reads what was there when it was linked (`Act.hindsight`).

The list stands for the map of its linked unmarked nodes (`absMap`).
-/
import Ascylib.ListHeap
import Ascylib.LlSimple

set_option linter.unusedSectionVars false

namespace Ascylib

open Concur Chain

namespace HarrisHeap

variable {T K V : Type*} [DecidableEq T]

/-- The list of `ll_simple` nodes; the marked ones are logically deleted. -/
abbrev view (T K V : Type*) : NodeView (LlSimple T K V) T K V where
  key := LlSimple.key
  val := LlSimple.val
  next n := n.next.ptr
  dead n := n.next.mark = true

/-- The node is linked from the head. -/
abbrev Lnk (s : Heap T K V) (x : Ptr T) : Prop := (view T K V).Lnk s x

/-- The node has been linked. -/
abbrev Pub (S : Set (Heap T K V)) (x : Ptr T) : Prop := Met Lnk S x

/-- A linked unmarked node, not a sentinel: its key is present. -/
abbrev Live (s : Heap T K V) (x : Ptr T) : Prop := (view T K V).Live s x

/-- The map the list stands for. -/
noncomputable abbrev absMap (s : Heap T K V) : K → Option V := (view T K V).absMap s

variable [LinearOrder K]

/-- A well-formed list, in a run that went through the memories `S`. -/
structure Wf [BoundedOrder K] (S : Set (Heap T K V)) (s : Heap T K V) : Prop where
  listed : (view T K V).Listed S s
  head_mark : ¬ s.Marked .head
  tail_next : s.next .tail = ⟨.null, false⟩
  lnk : ∀ x, Pub S x → ¬ s.Marked x → Lnk s x
  next : ∀ x, Pub S x → x ≠ .tail → Pub S (s.succ x) ∧ s.key x < s.key (s.succ x)

/-- The writes of thread `t`. -/
inductive Act (t : T) (S : Set (Heap T K V)) : Heap T K V → Heap T K V → Prop
  | skip {s} : Act t S s s
  | free {s : Heap T K V} (x : Ptr T) : Act t S s (s.ssmemFree x)
  | own {s s' : Heap T K V} {i : ℕ} : ¬ Pub S (.node t i) → i < s'.count t →
      (∀ x, x ≠ .node t i → s'.mem x = s.mem x) → (∀ u, s.count u ≤ s'.count u) → Act t S s s'
  | link {s : Heap T K V} {p q : Ptr T} {i : ℕ} : s.next p = q.ref → Pub S p → p ≠ .tail →
      ¬ Pub S (.node t i) → i < s.count t → s.next (.node t i) = q.ref →
      s.key p < s.key (.node t i) → s.key (.node t i) < s.key q →
      Act t S s (s.setNext p (Ptr.node t i).ref)
  | mark {s : Heap T K V} {p q : Ptr T} : s.next p = q.ref → Pub S p → p ≠ .head → p ≠ .tail →
      Act t S s (s.setNext p (getMarkedRef q.ref))
  | splice {s : Heap T K V} {p q r : Ptr T} : s.next p = q.ref → Pub S p → Lnk s r →
      s.key p < s.key r → (∀ x, Lnk s x → s.key p < s.key x → s.key x < s.key r → s.Marked x) →
      Act t S s (s.setNext p r.ref)

/-- What a step of thread `t` leaves alone. -/
structure Keeps (t : T) (S : Set (Heap T K V)) (s s' : Heap T K V) : Prop where
  key : ∀ x, Pub S x → s'.key x = s.key x
  val : ∀ x, Pub S x → s'.val x = s.val x
  frozen : ∀ x, Pub S x → s.Marked x → s'.mem x = s.mem x
  unlinked : ∀ x, Pub S x → ¬ Lnk s' x → s'.mem x = s.mem x
  others : (view T K V).Others t S s s'

theorem not_marked_of_next {s : Heap T K V} {p q : Ptr T} (h : s.next p = q.ref) : ¬ s.Marked p := by
  simp [Heap.Marked, h, Ptr.ref]

theorem succ_of_next {s : Heap T K V} {p q : Ptr T} (h : s.next p = q.ref) : s.succ p = q := by
  simp [Heap.succ, h, Ptr.ref]

variable [BoundedOrder K] {t : T} {S : Set (Heap T K V)} {s s' : Heap T K V}

namespace Wf

variable (w : Wf S s)

include w

theorem mem : s ∈ S := w.listed.mem

theorem sorted : Sorted s.succ s.key .head .tail := w.listed.sorted

theorem past (s₀ : Heap T K V) (h : s₀ ∈ S) : Sorted s₀.succ s₀.key .head .tail := w.listed.past s₀ h

theorem const (s₀ : Heap T K V) (h : s₀ ∈ S) (x : Ptr T) (hx : Lnk s₀ x) :
    s₀.key x = s.key x ∧ s₀.val x = s.val x := w.listed.const s₀ h x hx

theorem head_key : s.key .head = ⊥ := w.listed.head_key

theorem tail_key : s.key .tail = ⊤ := w.listed.tail_key

theorem pub_lnk {x : Ptr T} (h : Lnk s x) : Pub S x := w.listed.pub_lnk h

theorem lnk_of_next {p q : Ptr T} (hp : Pub S p) (h : s.next p = q.ref) : Lnk s p :=
  w.lnk p hp (not_marked_of_next h)

theorem pub_head : Pub S .head := w.listed.pub_head

theorem pub_tail : Pub S .tail := w.listed.pub_tail

theorem tail_mark : ¬ s.Marked .tail := by simp [Heap.Marked, w.tail_next]

theorem ne_tail_of_lt {x : Ptr T} {k : K} (h : s.key x < k) : x ≠ .tail := w.listed.ne_tail_of_lt h

theorem ne_head_of_lt {x : Ptr T} {k : K} (h : k < s.key x) : x ≠ .head := w.listed.ne_head_of_lt h

theorem unique : Unique (Live s) s.key := w.listed.unique

end Wf

/-! ### The writes to `next` -/

/-- A write that keeps the mark. -/
theorem setNext_swing {p : Ptr T} {r : Ref T} (h : r.mark = (s.next p).mark) :
    (view T K V).Swing s (s.setNext p r) p r.ptr where
  other x hx := Heap.mem_setNext_of_ne s p x r hx
  key := Heap.key_setNext s p p r
  val := Heap.val_setNext s p p r
  dead := by
    show (s.setNext p r).Marked p ↔ s.Marked p
    rw [Heap.Marked, Heap.next_setNext_self, h]
    rfl
  next := Heap.succ_setNext_self s p r
  count := rfl

theorem marked_setNext_of_ne {x y : Ptr T} {r : Ref T} (h : y ≠ x) :
    (s.setNext x r).Marked y ↔ s.Marked y := by
  simp [Heap.Marked, Heap.next_setNext_of_ne s x y r h]

section link

variable {p q : Ptr T} {i : ℕ} (w : Wf S s) (hpq : s.next p = q.ref) (hp : Pub S p)
  (hpt : p ≠ .tail) (hn : ¬ Pub S (.node t i)) (hi : i < s.count t)
  (hnq : s.next (.node t i) = q.ref) (h1 : s.key p < s.key (.node t i))
  (h2 : s.key (.node t i) < s.key q)

include w hpq hp hpt hn hnq

theorem link_swing : (view T K V).Swing s (s.setNext p (Ptr.node t i).ref) p (.node t i) ∧
    Lnk s p ∧ (s.mem (.node t i)).next.ptr = s.succ p :=
  ⟨setNext_swing (by rw [hpq]; rfl), w.lnk_of_next hp hpq,
    (succ_of_next hnq).trans (succ_of_next hpq).symm⟩

theorem link_lnk (x : Ptr T) :
    Lnk (s.setNext p (Ptr.node t i).ref) x ↔ Lnk s x ∨ x = .node t i := by
  obtain ⟨h, hl, he⟩ := link_swing w hpq hp hpt hn hnq
  exact h.link_lnk w.listed hl hpt hn he x

theorem link_pub (x : Ptr T) :
    Pub (insert (s.setNext p (Ptr.node t i).ref) S) x ↔ Pub S x ∨ x = .node t i := by
  obtain ⟨h, hl, he⟩ := link_swing w hpq hp hpt hn hnq
  exact h.link_pub w.listed hl hpt hn he x

theorem link_live (x : Ptr T) :
    Live (s.setNext p (Ptr.node t i).ref) x ↔ Live s x ∨ x = .node t i := by
  obtain ⟨h, hl, he⟩ := link_swing w hpq hp hpt hn hnq
  exact h.link_live w.listed hl hpt hn he (not_marked_of_next hnq) ⟨nofun, nofun⟩ x

theorem link_keeps : Keeps t S s (s.setNext p (Ptr.node t i).ref) := by
  have hl := link_lnk w hpq hp hpt hn hnq
  have hp' : Lnk s p := w.lnk_of_next hp hpq
  refine ⟨fun x _ => by simp, fun x _ => by simp, fun x hx hm => ?_, fun x hx hx' => ?_,
    NodeView.others_of_pub (fun x hx => ?_) (fun u j hu hj => ?_) fun _ => le_rfl⟩
  · exact Heap.mem_setNext_of_ne s p x _ fun h => not_marked_of_next hpq (h ▸ hm)
  · exact Heap.mem_setNext_of_ne s p x _ fun h => hx' (h ▸ (hl p).mpr (Or.inl hp'))
  · exact Heap.mem_setNext_of_ne s p _ _ fun h => hx (h ▸ hp)
  · rcases (link_pub w hpq hp hpt hn hnq _).mp hj with h | h
    · exact h
    · cases h; exact absurd rfl hu

include h1 h2

/-- Linking a node adds its key to the map. -/
theorem link_absMap : absMap s (s.key (.node t i)) = none ∧
    absMap (s.setNext p (Ptr.node t i).ref) =
      Function.update (absMap s) (s.key (.node t i)) (some (s.val (.node t i))) := by
  obtain ⟨h, hl, he⟩ := link_swing w hpq hp hpt hn hnq
  exact h.link_absMap w.listed hl hpt hn he h1
    (lt_of_lt_of_eq h2 (congrArg s.key (succ_of_next hpq).symm)) (not_marked_of_next hnq)
    ⟨nofun, nofun⟩

include hi

theorem link_wf : Wf (insert (s.setNext p (Ptr.node t i).ref) S) (s.setNext p (Ptr.node t i).ref) := by
  have hl := link_lnk w hpq hp hpt hn hnq
  have hpub := link_pub w hpq hp hpt hn hnq
  obtain ⟨h, hlp, he⟩ := link_swing w hpq hp hpt hn hnq
  have hlt : s.key (.node t i) < s.key (s.succ p) := by rw [succ_of_next hpq]; exact h2
  refine ⟨h.link_listed w.listed hlp hpt hn he h1 hlt ⟨t, i, rfl, hi⟩,
    fun hm => w.head_mark ((h.dead_iff _).mp hm), ?_, fun x hx hm => ?_, fun x hx hxt => ?_⟩
  · rw [Heap.next_setNext_of_ne s p _ _ (Ne.symm hpt)]; exact w.tail_next
  · have hm' : ¬ s.Marked x := fun h' => hm ((h.dead_iff x).mpr h')
    exact (hl x).mpr (((hpub x).mp hx).imp_left fun hx => w.lnk x hx hm')
  · simp only [Heap.key_setNext, hpub]
    rcases (hpub x).mp hx with hx | rfl
    · by_cases hxp : x = p
      · subst hxp
        rw [Heap.succ_setNext_self]
        exact ⟨Or.inr rfl, h1⟩
      · rw [Heap.succ_setNext_of_ne s p x _ hxp]
        obtain ⟨h3, h4⟩ := w.next x hx hxt
        exact ⟨Or.inl h3, h4⟩
    · rw [Heap.succ_setNext_of_ne s p (.node t i) _ fun h => hn (h ▸ hp), succ_of_next hnq]
      obtain ⟨h3, -⟩ := w.next p hp hpt
      rw [succ_of_next hpq] at h3
      exact ⟨Or.inl h3, h2⟩

end link

section mark

variable {p q : Ptr T} (w : Wf S s) (hpq : s.next p = q.ref) (hp : Pub S p) (hph : p ≠ .head)
  (hpt : p ≠ .tail)

theorem mark_succ (hpq : s.next p = q.ref) : (s.setNext p (getMarkedRef q.ref)).succ = s.succ := by
  funext x
  by_cases h : x = p
  · subst h; simp [getMarkedRef, Heap.succ, hpq]
  · exact Heap.succ_setNext_of_ne s p x _ h

theorem mark_marked (x : Ptr T) :
    (s.setNext p (getMarkedRef q.ref)).Marked x ↔ s.Marked x ∨ x = p := by
  by_cases h : x = p
  · subst h; simp [Heap.Marked, getMarkedRef]
  · rw [marked_setNext_of_ne h]; simp [h]

include hpq

theorem mark_same : (view T K V).Same S s (s.setNext p (getMarkedRef q.ref)) :=
  ⟨fun x _ => Heap.key_setNext s p x _, fun x _ => Heap.val_setNext s p x _,
    fun x _ _ => congrFun (mark_succ hpq) x, fun _ => le_rfl⟩

theorem mark_lnk (x : Ptr T) : Lnk (s.setNext p (getMarkedRef q.ref)) x ↔ Lnk s x := by
  have h : (view T K V).succ (s.setNext p (getMarkedRef q.ref)) = (view T K V).succ s := mark_succ hpq
  rw [Lnk, NodeView.Lnk, h]

theorem mark_live (x : Ptr T) :
    Live (s.setNext p (getMarkedRef q.ref)) x ↔ Live s x ∧ x ≠ p := by
  have h1 : (s.setNext p (getMarkedRef q.ref)).Marked x ↔ s.Marked x ∨ x = p := mark_marked x
  have h2 : Lnk (s.setNext p (getMarkedRef q.ref)) x ↔ Lnk s x := mark_lnk hpq x
  show Lnk (s.setNext p (getMarkedRef q.ref)) x ∧ ¬ (s.setNext p (getMarkedRef q.ref)).Marked x ∧ _ ↔
    (Lnk s x ∧ ¬ s.Marked x ∧ _) ∧ _
  rw [h1, h2]
  tauto

include w hp hph hpt

/-- Marking a node removes its key from the map. -/
theorem mark_absMap : Live s p ∧ absMap (s.setNext p (getMarkedRef q.ref)) =
    Function.update (absMap s) (s.key p) none := by
  have hlp : Live s p := ⟨w.lnk_of_next hp hpq, not_marked_of_next hpq, hph, hpt⟩
  refine ⟨hlp, (mark_same hpq).kill w.listed hlp ((mark_marked p).mpr (Or.inr rfl)) fun x _ hx => ?_⟩
  exact marked_setNext_of_ne hx

theorem mark_wf : Wf (insert (s.setNext p (getMarkedRef q.ref)) S)
    (s.setNext p (getMarkedRef q.ref)) := by
  have hsame : (view T K V).Same S s (s.setNext p (getMarkedRef q.ref)) := mark_same hpq
  have hpub := hsame.pub w.listed
  refine ⟨hsame.listed w.listed, ?_, ?_, fun x hx hx' => ?_, fun x hx hxt => ?_⟩
  · rw [mark_marked]; exact not_or.mpr ⟨w.head_mark, Ne.symm hph⟩
  · rw [Heap.next_setNext_of_ne s p _ _ (Ne.symm hpt)]; exact w.tail_next
  · rw [mark_lnk hpq]
    exact w.lnk x ((hpub x).mp hx) fun h => hx' ((mark_marked x).mpr (Or.inl h))
  · simp only [Heap.key_setNext, mark_succ hpq]
    have := w.next x ((hpub x).mp hx) hxt
    exact ⟨(hpub _).mpr this.1, this.2⟩

theorem mark_keeps : Keeps t S s (s.setNext p (getMarkedRef q.ref)) := by
  have hl := mark_lnk hpq
  have hsame : (view T K V).Same S s (s.setNext p (getMarkedRef q.ref)) := mark_same hpq
  refine ⟨fun x _ => by simp, fun x _ => by simp, fun x hx hm => ?_, fun x hx hx' => ?_,
    NodeView.others_of_pub (fun x hx => ?_) (fun u j _ hj => (hsame.pub w.listed _).mp hj)
      fun _ => le_rfl⟩
  · exact Heap.mem_setNext_of_ne s p x _ fun h => not_marked_of_next hpq (h ▸ hm)
  · exact Heap.mem_setNext_of_ne s p x _ fun h =>
      hx' (h ▸ (hl p).mpr (w.lnk_of_next hp hpq))
  · exact Heap.mem_setNext_of_ne s p _ _ fun h => hx (h ▸ hp)

end mark

section splice

variable {p q r : Ptr T} (w : Wf S s) (hpq : s.next p = q.ref) (hp : Pub S p) (hr : Lnk s r)
  (hk : s.key p < s.key r)
  (hm : ∀ x, Lnk s x → s.key p < s.key x → s.key x < s.key r → s.Marked x)

theorem splice_swing (hpq : s.next p = q.ref) : (view T K V).Swing s (s.setNext p r.ref) p r :=
  setNext_swing (by rw [hpq]; rfl)

include w hpq hp hr hk

theorem splice_lnk (x : Ptr T) :
    Lnk (s.setNext p r.ref) x ↔ Lnk s x ∧ (s.key x ≤ s.key p ∨ s.key r ≤ s.key x) :=
  (splice_swing hpq).splice_lnk w.listed (w.lnk_of_next hp hpq) hr hk x

theorem splice_pub (x : Ptr T) : Pub (insert (s.setNext p r.ref) S) x ↔ Pub S x :=
  (splice_swing hpq).splice_pub w.listed (w.lnk_of_next hp hpq) hr hk x

/-- A node that is not linked yet is left alone. -/
theorem splice_private {x : Ptr T} (hx : ¬ Pub S x) :
    (s.setNext p r.ref).mem x = s.mem x ∧ ¬ Pub (insert (s.setNext p r.ref) S) x :=
  ⟨Heap.mem_setNext_of_ne s p x _ fun h => hx (h ▸ hp), by
    rw [splice_pub w hpq hp hr hk]; exact hx⟩

theorem splice_keeps : Keeps t S s (s.setNext p r.ref) := by
  have hl := splice_lnk w hpq hp hr hk
  refine ⟨fun x _ => by simp, fun x _ => by simp, fun x hx hm => ?_, fun x hx hx' => ?_,
    NodeView.others_of_pub (fun x hx => ?_)
      (fun u j _ hj => (splice_pub w hpq hp hr hk _).mp hj) fun _ => le_rfl⟩
  · exact Heap.mem_setNext_of_ne s p x _ fun h => not_marked_of_next hpq (h ▸ hm)
  · exact Heap.mem_setNext_of_ne s p x _ fun h =>
      hx' (h ▸ (hl p).mpr ⟨w.lnk_of_next hp hpq, Or.inl le_rfl⟩)
  · exact Heap.mem_setNext_of_ne s p _ _ fun h => hx (h ▸ hp)

include hm

/-- Unlinking marked nodes does not change the map. -/
theorem splice_absMap : (∀ x, Live (s.setNext p r.ref) x ↔ Live s x) ∧
    absMap (s.setNext p r.ref) = absMap s :=
  (splice_swing hpq).splice_absMap w.listed (w.lnk_of_next hp hpq) hr hk hm

theorem splice_wf : Wf (insert (s.setNext p r.ref) S) (s.setNext p r.ref) := by
  have hl := splice_lnk w hpq hp hr hk
  have hpub := splice_pub w hpq hp hr hk
  have h : (view T K V).Swing s (s.setNext p r.ref) p r := splice_swing hpq
  refine ⟨h.splice_listed w.listed (w.lnk_of_next hp hpq) hr hk,
    fun hm => w.head_mark ((h.dead_iff _).mp hm), ?_, fun x hx hx' => ?_, fun x hx hxt => ?_⟩
  · rw [Heap.next_setNext_of_ne s p _ _ (Ne.symm (w.sorted.ne_tail hr hk))]; exact w.tail_next
  · have hx' : ¬ s.Marked x := fun h' => hx' ((h.dead_iff x).mpr h')
    have hlx := w.lnk x ((hpub x).mp hx) hx'
    refine (hl x).mpr ⟨hlx, ?_⟩
    by_contra h
    rw [not_or, not_le, not_le] at h
    exact hx' (hm x hlx h.1 h.2)
  · simp only [Heap.key_setNext, hpub]
    by_cases h : x = p
    · subst h
      rw [Heap.succ_setNext_self]
      exact ⟨w.pub_lnk hr, hk⟩
    · rw [Heap.succ_setNext_of_ne s p x _ h]
      exact w.next x ((hpub x).mp hx) hxt

end splice

/-! ### Steps that leave the published nodes alone -/

section own

variable (w : Wf S s) (he : ∀ x, Pub S x → s'.mem x = s.mem x) (hc : ∀ u, s.count u ≤ s'.count u)

include w he hc

theorem own_wf : Wf (insert s' S) s' := by
  have hs : (view T K V).Same S s s' := NodeView.same_of_mem he hc
  have hl := hs.lnk w.listed
  have hpub := hs.pub w.listed
  refine ⟨hs.listed w.listed, ?_, ?_, fun x hx hm => ?_, fun x hx hxt => ?_⟩
  · rw [Heap.Marked, Heap.next, he _ w.pub_head]; exact w.head_mark
  · rw [Heap.next, he _ w.pub_tail]; exact w.tail_next
  · have hx := (hpub x).mp hx
    rw [Heap.Marked, Heap.next, he x hx] at hm
    exact (hl x).mpr (w.lnk x hx hm)
  · have hx := (hpub x).mp hx
    obtain ⟨h1, h2⟩ := w.next x hx hxt
    have hsucc : s'.succ x = s.succ x := by rw [Heap.succ, Heap.next, he x hx]; rfl
    rw [hsucc, Heap.key, Heap.key, he x hx, he _ h1]
    exact ⟨(hpub _).mpr h1, h2⟩

theorem own_absMap : (∀ x, Live s' x ↔ Live s x) ∧ absMap s' = absMap s := by
  have hs : (view T K V).Same S s s' := NodeView.same_of_mem he hc
  have hd : ∀ x, Lnk s x → ((s'.mem x).next.mark = true ↔ (s.mem x).next.mark = true) :=
    fun x hx => by rw [he x (w.pub_lnk hx)]
  exact ⟨hs.live w.listed hd, hs.absMap w.listed hd⟩

theorem own_keeps (ho : ∀ u i, u ≠ t → ¬ Pub S (.node u i) → s'.mem (.node u i) = s.mem (.node u i)) :
    Keeps t S s s' := by
  have hs : (view T K V).Same S s s' := NodeView.same_of_mem he hc
  exact ⟨fun x hx => by rw [Heap.key, he x hx]; rfl, fun x hx => by rw [Heap.val, he x hx]; rfl,
    fun x hx _ => he x hx, fun x hx _ => he x hx,
    fun u i hu h => ⟨ho u i hu h, by rw [hs.pub w.listed]; exact h⟩, hc⟩

end own

theorem Wf.pub_free (w : Wf S s) (x y : Ptr T) : Pub (insert (s.ssmemFree x) S) y ↔ Pub S y := by
  have hs : (view T K V).Same S s (s.ssmemFree x) := NodeView.same_of_mem (fun _ _ => rfl) fun _ => le_rfl
  exact hs.pub w.listed y

theorem own_mem {i : ℕ} (hn : ¬ Pub S (.node t i)) (he : ∀ x, x ≠ .node t i → s'.mem x = s.mem x)
    (x : Ptr T) (hx : Pub S x) : s'.mem x = s.mem x := he x fun h => hn (h ▸ hx)

/-! ### Any write -/

/-- **Every write keeps the list well formed.** -/
theorem Act.wf (a : Act t S s s') (w : Wf S s) : Wf (insert s' S) s' := by
  cases a with
  | skip => exact own_wf w (fun _ _ => rfl) fun _ => le_rfl
  | free x => exact own_wf w (fun _ _ => rfl) fun _ => le_rfl
  | own hn hi he hc => exact own_wf w (own_mem hn he) hc
  | link hpq hp hpt hn hi hnq h1 h2 => exact link_wf w hpq hp hpt hn hi hnq h1 h2
  | mark hpq hp hph hpt => exact mark_wf w hpq hp hph hpt
  | splice hpq hp hr hk hm => exact splice_wf w hpq hp hr hk hm

theorem Act.keeps (a : Act t S s s') (w : Wf S s) : Keeps t S s s' := by
  cases a with
  | skip => exact own_keeps w (fun _ _ => rfl) (fun _ => le_rfl) fun _ _ _ _ => rfl
  | free x => exact own_keeps w (fun _ _ => rfl) (fun _ => le_rfl) fun _ _ _ _ => rfl
  | own hn hi he hc =>
    exact own_keeps w (own_mem hn he) hc fun u j hu _ => he _ fun h => hu (Ptr.node.inj h).1
  | link hpq hp hpt hn hi hnq h1 h2 => exact link_keeps w hpq hp hpt hn hnq
  | mark hpq hp hph hpt => exact mark_keeps w hpq hp hph hpt
  | splice hpq hp hr hk hm => exact splice_keeps w hpq hp hr hk

/-- The linked unmarked nodes change by at most one, and the map with them. -/
theorem Act.live (a : Act t S s s') (w : Wf S s) :
    ((∀ x, Live s' x ↔ Live s x) ∧ absMap s' = absMap s) ∨
    (∃ x, ¬ Live s x ∧ (∀ y, Live s' y ↔ y = x ∨ Live s y) ∧ absMap s (s'.key x) = none) ∨
    ∃ x, Live s x ∧ (∀ y, Live s' y ↔ Live s y ∧ y ≠ x) ∧ absMap s' (s.key x) = none := by
  cases a with
  | skip => exact Or.inl ⟨fun _ => Iff.rfl, rfl⟩
  | free x => exact Or.inl ⟨fun _ => Iff.rfl, rfl⟩
  | own hn hi he hc => exact Or.inl (own_absMap w (own_mem hn he) hc)
  | link hpq hp hpt hn hi hnq h1 h2 =>
    refine Or.inr (Or.inl ⟨_, fun h => hn (w.pub_lnk h.1), fun y => ?_, ?_⟩)
    · rw [link_live w hpq hp hpt hn hnq, or_comm]
    · rw [Heap.key_setNext]
      exact (link_absMap w hpq hp hpt hn hnq h1 h2).1
  | mark hpq hp hph hpt =>
    obtain ⟨hl, habs⟩ := mark_absMap w hpq hp hph hpt
    exact Or.inr (Or.inr ⟨_, hl, mark_live hpq, by rw [habs, Function.update_self]⟩)
  | splice hpq hp hr hk hm => exact Or.inl (splice_absMap w hpq hp hr hk hm)

/-! ### What a traversal learns -/

/-- The nodes show what they showed when they were linked. -/
abbrev Hind (W : Set (Heap T K V)) (s : Heap T K V) : Prop := Hindsight Lnk Memory.mem W s

abbrev NoneSeen (W : Set (Heap T K V)) (k : K) : Prop := (view T K V).NoneSeen W k

abbrev SomeSeen (W : Set (Heap T K V)) (k : K) (v : V) : Prop := (view T K V).SomeSeen W k v

theorem Act.hindsight {W : Set (Heap T K V)} (a : Act t S s s') (w : Wf S s) (hW : W ⊆ S)
    (h : Hind W s) : Hind (insert s' W) s' :=
  h.step fun x hx hx' => (a.keeps w).unlinked x (hx.mono hW) hx'

theorem Hind.succ {W : Set (Heap T K V)} (h : Hind W s) : (view T K V).Hind W s := fun x hx =>
  let ⟨s₀, hs₀, hl, hv⟩ := h x hx
  ⟨s₀, hs₀, hl, by rw [NodeView.succ, hv]⟩

section learn

variable {W : Set (Heap T K V)} (w : Wf S s) (hW : W ⊆ S) (h : Hind W s) {x : Ptr T} {k : K}

include w

theorem Wf.absMap_of_unmarked (hx : Pub S x) (hm : ¬ s.Marked x) (hh : x ≠ .head) (ht : x ≠ .tail) :
    absMap s (s.key x) = some (s.val x) :=
  w.listed.absMap_past w.mem ⟨w.lnk x hx hm, hm, hh, ht⟩

include hW h

/-- A traversal that meets a marked node saw a moment without its key. -/
theorem Wf.noneSeen_of_marked (hx : Met Lnk W x) (hm : s.Marked x) : NoneSeen W (s.key x) := by
  obtain ⟨s₀, hs₀, hl, hv⟩ := h x hx
  refine ⟨s₀, hs₀, mapOf_eq_none.mpr fun y hy he => ?_⟩
  have hyx : y = x := (w.past s₀ (hW hs₀)).inj hy.1 hl
    (he.trans (w.const s₀ (hW hs₀) x hl).1.symm)
  refine hy.2.1 ?_
  rw [hyx, hv]
  exact hm

end learn

/-! ### What a traversal knows of its nodes

`LeftOf` is a node to insert behind, `Walked` and `Passed` are those of the
list, and `Private` is a node that thread `t` has filled but not linked. -/

def LeftOf (S : Set (Heap T K V)) (s : Heap T K V) (k : K) (x : Ptr T) : Prop :=
  Pub S x ∧ s.key x < k

abbrev Walked (W : Set (Heap T K V)) (s : Heap T K V) (k : K) (x : Ptr T) : Prop :=
  (view T K V).Walked W s k x

abbrev Passed (W : Set (Heap T K V)) (s : Heap T K V) (k : K) (x : Ptr T) : Prop :=
  (view T K V).Passed W s k x

abbrev Private (t : T) (S : Set (Heap T K V)) (s : Heap T K V) (k : K) (v : V) (q x : Ptr T) : Prop :=
  (view T K V).Private t S s ⟨k, v, q.ref⟩ x

section traversal

variable {W : Set (Heap T K V)} {k : K} {v : V} {x q : Ptr T} {u : T}

theorem LeftOf.step (h : LeftOf S s k x) (hk : Keeps t S s s') : LeftOf (insert s' S) s' k x :=
  ⟨h.1.insert s', by rw [hk.key x h.1]; exact h.2⟩

theorem walked_step (h : Walked W s k x) (hW : W ⊆ S) (hk : Keeps t S s s') :
    Walked (insert s' W) s' k x := h.step (hk.key x (h.1.mono hW))

theorem passed_step (h : Passed W s k x) (hW : W ⊆ S) (hk : Keeps t S s s') :
    Passed (insert s' W) s' k x := h.step (hk.key x (h.1.mono hW))

theorem private_step (h : Private u S s k v q x) (hu : u ≠ t) (hk : Keeps t S s s') :
    Private u (insert s' S) s' k v q x := NodeView.Private.step h hu hk.others

variable (w : Wf S s)

include w

theorem leftOf_head (hk : ⊥ < k) : LeftOf S s k .head := ⟨w.pub_head, by rw [w.head_key]; exact hk⟩

/-- The first node of the list. -/
theorem walked_first (hs : s ∈ W) (hk : ⊥ < k) : Walked W s k (s.succ .head) :=
  w.listed.walked_first hs hk

/-- Swinging `left->next` from a marked node to its successor. -/
theorem LeftOf.unlink {left right newNext : Ptr T} (hl : LeftOf S s k left)
    (hm : s.Marked right) (hsucc : s.succ right = newNext)
    (hc : s.next left = right.ref) :
    Act t S s (s.setNext left newNext.ref) ∧ absMap (s.setNext left newNext.ref) = absMap s := by
  have hlt := w.ne_tail_of_lt hl.2
  have hll : Lnk s left := w.lnk_of_next hl.1 hc
  have hlr : Lnk s right := succ_of_next hc ▸ hll.next hlt
  have hrt : right ≠ .tail := fun h => w.tail_mark (h ▸ hm)
  have hln : Lnk s newNext := hsucc ▸ hlr.next hrt
  have h1 : s.key left < s.key right := by
    have := w.sorted.step left hll hlt
    rwa [succ_of_next hc] at this
  have h2 : s.key right < s.key newNext := hsucc ▸ w.sorted.step right hlr hrt
  have hbetween : ∀ x, Lnk s x → s.key left < s.key x → s.key x < s.key newNext → s.Marked x := by
    intro x hx h3 h4
    have h5 := (w.sorted.le_or_next_le hll hlt hx).resolve_left (not_le.mpr h3)
    rw [succ_of_next hc] at h5
    have h6 := (w.sorted.le_or_next_le hlr hrt hx).resolve_right (by rw [hsucc]; exact not_le.mpr h4)
    rwa [w.sorted.inj hx hlr (le_antisymm h6 h5)]
  exact ⟨.splice hc hl.1 hln (h1.trans h2) hbetween,
    (splice_absMap w hc hl.1 hln (h1.trans h2) hbetween).2⟩

section Zero

variable [Zero V]

/-- A thread allocates a node. -/
theorem allocate_act (k : K) (v : V) (q : Ptr T) :
    Act t S s (s.allocateLlSimple t k v q).1 ∧
      absMap (s.allocateLlSimple t k v q).1 = absMap s ∧
      Private t (insert (s.allocateLlSimple t k v q).1 S) (s.allocateLlSimple t k v q).1 k v q
        (s.allocateLlSimple t k v q).2 := by
  obtain ⟨-, hm, hp⟩ := w.listed.allocate t ⟨k, v, q.ref⟩
  have hc := Memory.count_le_allocate s ⟨k, v, q.ref⟩ t
  exact ⟨.own (w.listed.not_pub_next t) (Memory.count_allocate_self s _ t)
    (fun x hx => Memory.mem_allocate_of_ne s x _ t hx) hc, (own_absMap w hm hc).2, hp⟩

/-- A thread sets the successor of a node of its own. -/
theorem private_setNext (h : Private t S s k v q x) (r : Ptr T) :
    Act t S s (s.setNext x r.ref) ∧ absMap (s.setNext x r.ref) = absMap s ∧
      Private t (insert (s.setNext x r.ref) S) (s.setNext x r.ref) k v r x := by
  obtain ⟨h1, h2, i, rfl, hi⟩ := h
  have hmem : ∀ y, y ≠ .node t i → (s.setNext (.node t i) r.ref).mem y = s.mem y :=
    fun y hy => Heap.mem_setNext_of_ne s _ y _ hy
  have hpub := own_mem h1 hmem
  have hs : (view T K V).Same S s (s.setNext (.node t i) r.ref) :=
    NodeView.same_of_mem hpub fun _ => le_rfl
  exact ⟨.own h1 hi hmem fun _ => le_rfl, (own_absMap w hpub fun _ => le_rfl).2,
    fun hp => h1 ((hs.pub w.listed _).mp hp), by simp [Heap.setNext, h2], i, rfl, hi⟩

/-- A node linked between its neighbours: the insert takes effect. -/
theorem private_link (h : Private t S s k v q x) {left : Ptr T}
    (hl : LeftOf S s k left) (hk : k < s.key q) (hc : s.next left = q.ref) :
    Act t S s (s.setNext left x.ref) ∧
      (mapObject K V).apply (.insert k v) (absMap s) = (absMap (s.setNext left x.ref), .flag true) := by
  obtain ⟨h1, h2, i, rfl, hi⟩ := h
  have hkey : s.key (.node t i) = k := by simp [Heap.key, h2]
  have hval : s.val (.node t i) = v := by simp [Heap.val, h2]
  have hnext : s.next (.node t i) = q.ref := by simp [Heap.next, h2]
  have hlt := w.ne_tail_of_lt hl.2
  have h3 : s.key left < s.key (.node t i) := hkey ▸ hl.2
  have h4 : s.key (.node t i) < s.key q := hkey ▸ hk
  refine ⟨.link hc hl.1 hlt h1 hi hnext h3 h4, ?_⟩
  obtain ⟨hnone, habs⟩ := link_absMap w hc hl.1 hlt h1 hnext h3 h4
  rw [hkey] at hnone
  rw [habs, hkey, hval]
  exact apply_insert_none hnone

/-- A node marked: the remove takes effect. -/
theorem Wf.mark_act (hx : Pub S x) (he : s.key x = k) (hb : ⊥ < k) (ht : k < ⊤)
    (hc : s.next x = q.ref) :
    Act t S s (s.setNext x (getMarkedRef q.ref)) ∧ (mapObject K V).apply (.remove k) (absMap s) =
      (absMap (s.setNext x (getMarkedRef q.ref)), .val (s.val x)) := by
  have hxh : x ≠ .head := w.ne_head_of_lt (k := ⊥) (by rw [he]; exact hb)
  have hxt : x ≠ .tail := w.ne_tail_of_lt (k := ⊤) (by rw [he]; exact ht)
  obtain ⟨hlive, habs⟩ := mark_absMap w hc hx hxh hxt
  have hm : absMap s k = some (s.val x) := by rw [← he]; exact mapOf_eq_some w.unique hlive
  exact ⟨.mark hc hx hxh hxt, by rw [habs, apply_remove_some hm, he]⟩

end Zero

variable (hW : W ⊆ S) (h : Hind W s)

include hW h

/-- One step on along the list, from a node that does not hold the key. -/
theorem passed_next (hx : Passed W s k x) (hxt : x ≠ .tail) : Walked W s k (s.succ x) :=
  hx.next w.listed hW h.succ hxt

/-- A marked node does not hold the key. -/
theorem walked_marked (hx : Walked W s k x) (hm : s.Marked x) : Passed W s k x := by
  refine ⟨hx.1, ?_⟩
  rcases hx.2 with hle | hn
  · rcases hle.lt_or_eq with hlt | rfl
    · exact Or.inl hlt
    · exact Or.inr (w.noneSeen_of_marked hW h hx.1 hm)
  · exact Or.inr hn

end traversal

/-! ### The empty list -/

variable [Nontrivial K] [Zero V]

theorem Wf.initial : Wf {(Heap.empty : Heap T K V)} Heap.empty := by
  have hpub : ∀ x, Pub {(Heap.empty : Heap T K V)} x ↔ x = .head ∨ x = .tail :=
    NodeView.pub_empty (D := view T K V) rfl
  refine ⟨NodeView.Listed.initial rfl rfl rfl, nofun, rfl,
    fun x hx _ => (NodeView.lnk_empty (D := view T K V) rfl x).mpr ((hpub x).mp hx),
    fun x hx hxt => ?_⟩
  rcases (hpub x).mp hx with rfl | rfl
  · exact ⟨(hpub _).mpr (Or.inr rfl), (bot_lt_top : (⊥ : K) < ⊤)⟩
  · exact absurd rfl hxt

theorem empty_absMap : absMap (Heap.empty : Heap T K V) = fun _ => none :=
  NodeView.absMap_empty rfl

end HarrisHeap

end Ascylib
