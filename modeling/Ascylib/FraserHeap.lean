/-
# The memory of Fraser's skip list

`skiplist_fraser.h` decides a removal by the counter `deleted` of a node: the
`remove` that counts it up from 0 has removed the key. Only then the node is
marked, level by level, and a search unlinks what is marked.

So every level is a sorted list (`SkipHeap.Leveled`), whatever the inserters do
above level 0, and the skip list stands for the map of the nodes that are
linked at level 0 and not deleted (`absMap`).

Key theorems: `Act.wf`, `Act.absMap_eq`, `Wf.link_map`, `Wf.delete_map`.
-/
import Ascylib.SkipLevels

set_option linter.unusedSectionVars false

namespace Ascylib

open Concur Chain

/-- The shared memory: the nodes, and beside them their fields `deleted`. -/
structure FraserHeap (T K V : Type*) where
  heap : SkipHeap T K V
  deleted : Ptr T → ℕ

namespace FraserHeap

open SkipHeap (LnkAt PubAt Leveled Write Stays Doomed)

variable {T K V : Type*} [DecidableEq T]

def setNext (s : FraserHeap T K V) (x : Ptr T) (i : ℕ) (r : Ref T) : FraserHeap T K V :=
  { s with heap := s.heap.setNext x i r }

/-- `ATOMIC_CAS_MB(&x->next[i], old, new)`. -/
def cas (s : FraserHeap T K V) (x : Ptr T) (i : ℕ) (old new : Ref T) : Bool × FraserHeap T K V :=
  if s.heap.next x i = old then (true, s.setNext x i new) else (false, s)

/-- `ATOMIC_FETCH_AND_INC_FULL(&x->deleted)`: the value before, and the memory
after. -/
def fetchAndInc (s : FraserHeap T K V) (x : Ptr T) : ℕ × FraserHeap T K V :=
  (s.deleted x, { s with deleted := Function.update s.deleted x (s.deleted x + 1) })

/-- `allocate_sl_simple_unlinked(key, val, .., toplevel, 0)` by thread `t`. -/
def allocate (s : FraserHeap T K V) (t : T) (key : K) (val : V) (toplevel : ℕ) :
    FraserHeap T K V × Ptr T :=
  (⟨(s.heap.allocateSlSimpleUnlinked t key val toplevel).1,
    Function.update s.deleted (s.heap.allocateSlSimpleUnlinked t key val toplevel).2 0⟩,
    (s.heap.allocateSlSimpleUnlinked t key val toplevel).2)

def ssmemFree (s : FraserHeap T K V) (x : Ptr T) : FraserHeap T K V :=
  { s with heap := s.heap.ssmemFree x }

/-- The constructor: the two sentinels. -/
def empty [Bot K] [Top K] [Zero V] (levelmax : ℕ) : FraserHeap T K V :=
  ⟨SkipHeap.empty levelmax, fun _ => 0⟩

theorem cas_true {s s' : FraserHeap T K V} {x : Ptr T} {i : ℕ} {old new : Ref T}
    (h : s.cas x i old new = (true, s')) : s.heap.next x i = old ∧ s' = s.setNext x i new := by
  unfold cas at h
  split at h
  · cases h; exact ⟨‹_›, rfl⟩
  · cases h

theorem cas_false {s s' : FraserHeap T K V} {x : Ptr T} {i : ℕ} {old new : Ref T}
    (h : s.cas x i old new = (false, s')) : s.heap.next x i ≠ old ∧ s' = s := by
  unfold cas at h
  split at h <;> cases h
  exact ⟨‹_›, rfl⟩

/-- The node holds its key: it is linked at level 0 and not deleted. -/
def Live (s : FraserHeap T K V) (x : Ptr T) : Prop :=
  LnkAt 0 s.heap x ∧ s.deleted x = 0 ∧ x ≠ .head ∧ x ≠ .tail

/-- The map the skip list stands for. -/
noncomputable def absMap (s : FraserHeap T K V) : K → Option V := mapOf (Live s) s.heap.key s.heap.val

theorem absMap_ne_none {s : FraserHeap T K V} {k : K} :
    absMap s k ≠ none ↔ ∃ x, Live s x ∧ s.heap.key x = k := by
  rw [ne_eq, show absMap s k = none ↔ _ from mapOf_eq_none]
  push Not
  rfl

/-- The memories of a run, without the counters. -/
abbrev heaps (S : Set (FraserHeap T K V)) : Set (SkipHeap T K V) := heap '' S

/-- The node has been linked at level `i`. -/
abbrev Pub (i : ℕ) (S : Set (FraserHeap T K V)) (x : Ptr T) : Prop := PubAt i (heaps S) x

theorem heaps_insert (s : FraserHeap T K V) (S : Set (FraserHeap T K V)) :
    heaps (insert s S) = insert s.heap (heaps S) := Set.image_insert_eq

theorem Pub.mono {i : ℕ} {S W : Set (FraserHeap T K V)} {x : Ptr T} (h : Pub i W x) (hW : W ⊆ S) :
    Pub i S x := Met.mono h (Set.image_mono hW)

theorem Pub.insert {i : ℕ} {S : Set (FraserHeap T K V)} {x : Ptr T} (h : Pub i S x)
    (s : FraserHeap T K V) : Pub i (insert s S) x := h.mono (Set.subset_insert _ _)

variable [LinearOrder K] [BoundedOrder K]

/-- A well-formed skip list, in a run through the memories `S`. A node is
marked from the top down, after it was deleted. -/
structure Wf (S : Set (FraserHeap T K V)) (s : FraserHeap T K V) : Prop where
  mem : s ∈ S
  leveled : Leveled (heaps S) s.heap
  marks : ∀ {x i}, s.heap.Marked x i → Pub 0 S x ∧ s.deleted x ≠ 0 ∧
    ∀ j, i < j → j < s.heap.toplevel x → s.heap.Marked x j

/-- What a step of thread `t` does. Only if `late` it links a marked node. -/
structure Act (late : Prop) (t : T) (S : Set (FraserHeap T K V)) (s s' : FraserHeap T K V) : Prop where
  write : Write late t (heaps S) s.heap s'.heap
  mono : ∀ x, Pub 0 S x → s.deleted x ≤ s'.deleted x
  apart : s'.heap = s.heap ∨ ∀ x, Pub 0 S x → s'.deleted x = s.deleted x
  others : ∀ u m, u ≠ t → ¬ Pub 0 S (.node u m) → s'.deleted (.node u m) = s.deleted (.node u m)
  marks : ∀ {x i}, s'.heap.Marked x i → s.heap.Marked x i ∨ Pub 0 S x ∧ s.deleted x ≠ 0 ∧
    ∀ j, i < j → j < s.heap.toplevel x → s.heap.Marked x j

variable {late : Prop} {t u : T} {S W : Set (FraserHeap T K V)} {s s' : FraserHeap T K V} {p q r x : Ptr T}
  {i j m : ℕ} {k : K} {v : V}

/-- **Every step keeps the skip list well formed.** -/
theorem Act.wf (a : Act late t S s s') (w : Wf S s) : Wf (insert s' S) s' := by
  have hk := a.write.stays w.leveled
  refine ⟨Set.mem_insert _ _, by rw [heaps_insert]; exact a.write.leveled w.leveled, fun {x i} hm => ?_⟩
  have hold : Pub 0 S x ∧ s.deleted x ≠ 0 ∧
      ∀ j, i < j → j < s.heap.toplevel x → s.heap.Marked x j := (a.marks hm).elim w.marks id
  obtain ⟨hp, hd, hj⟩ := hold
  refine ⟨hp.insert s', fun h0 => hd (Nat.le_zero.mp (h0 ▸ a.mono x hp)), fun j hij hjt => ?_⟩
  rw [hk.top x hp] at hjt
  exact hk.marked hp (hj j hij hjt)

theorem Act.stays (a : Act late t S s s') (w : Wf S s) : Stays t (heaps S) s.heap s'.heap :=
  a.write.stays w.leveled

/-- A step that does not touch the counters, and marks nothing. -/
theorem act_of_write {h : SkipHeap T K V} (a : Write late t (heaps S) s.heap h)
    (hm : ∀ {x i}, h.Marked x i → s.heap.Marked x i) : Act late t S s ⟨h, s.deleted⟩ :=
  ⟨a, fun _ _ => le_rfl, Or.inr fun _ _ => rfl, fun _ _ _ _ => rfl, fun h => Or.inl (hm h)⟩

theorem act_skip : Act late t S s s := act_of_write .skip id

theorem act_free (x : Ptr T) : Act late t S s (s.ssmemFree x) := act_of_write (.free x) id

/-- An unmarked pointer is swung. -/
theorem act_setNext (a : Write late t (heaps S) s.heap (s.heap.setNext p i r.ref))
    (hm : ¬ s.heap.Marked p i) : Act late t S s (s.setNext p i r.ref) :=
  act_of_write a fun h => (SkipHeap.marked_swing hm).mp h

theorem act_mark (hn : s.heap.next p i = q.ref) (hp : Pub 0 S p) (hph : p ≠ .head)
    (hpt : p ≠ .tail) (hd : s.deleted p ≠ 0)
    (hj : ∀ j, i < j → j < s.heap.toplevel p → s.heap.Marked p j) :
    Act late t S s (s.setNext p i (setMark q.ref)) := by
  refine ⟨.mark hn hp hph hpt, fun _ _ => le_rfl, Or.inr fun _ _ => rfl, fun _ _ _ _ => rfl,
    fun {x j} hm => ?_⟩
  rcases (SkipHeap.mark_marked x j).mp hm with hm | ⟨rfl, rfl⟩
  · exact Or.inl hm
  · exact Or.inr ⟨hp, hd, hj⟩

theorem deleted_inc_of_ne {y : Ptr T} (h : y ≠ x) : (s.fetchAndInc x).2.deleted y = s.deleted y :=
  Function.update_of_ne h _ _

theorem act_inc (hx : Pub 0 S x) : Act late t S s (s.fetchAndInc x).2 := by
  refine ⟨.skip, fun y _ => ?_, Or.inl rfl, fun u m _ hp => ?_, fun h => Or.inl h⟩
  · by_cases hy : y = x
    · subst hy
      simp [fetchAndInc]
    · rw [deleted_inc_of_ne hy]
  · exact deleted_inc_of_ne fun he => hp (he ▸ hx)

/-! ### The map -/

namespace Wf

variable (w : Wf S s)

include w

theorem not_marked (hd : s.deleted x = 0) : ¬ s.heap.Marked x i := fun h => (w.marks h).2.1 hd

theorem unique : Unique (Live s) s.heap.key := fun _ _ hx hy he => w.leveled.inj hx.1 hy.1 he

theorem live (hp : Pub 0 S x) (hd : s.deleted x = 0) (hb : ⊥ < s.heap.key x)
    (ht : s.heap.key x < ⊤) : Live s x :=
  ⟨w.leveled.lnk hp (w.not_marked hd), hd, w.leveled.ne_head_of_lt hb, w.leveled.ne_tail_of_lt ht⟩

/-- The key of a deleted node that is linked is absent. -/
theorem absent (hx : LnkAt 0 s.heap x) (hd : s.deleted x ≠ 0) : absMap s (s.heap.key x) = none := by
  refine mapOf_eq_none.mpr fun y hy he => ?_
  rw [w.leveled.inj hy.1 hx he] at hy
  exact hd hy.2.1

/-- A key strictly between neighbours is absent. -/
theorem between (hp : LnkAt 0 s.heap p) (hn : s.heap.next p 0 = q.ref) (h1 : s.heap.key p < k)
    (h2 : k < s.heap.key q) : absMap s k = none := by
  refine mapOf_eq_none.mpr fun y hy => ?_
  have h3 : k < s.heap.key (s.heap.next p 0).ptr := by rwa [hn]
  exact (w.leveled.sorted 0).absent hp (w.leveled.ne_tail_of_lt h1) h1 h3 hy.1

end Wf

/-- **A step that links no node at level 0 and deletes none leaves the map
alone**: what it unlinks has been deleted. -/
theorem Act.absMap_eq (a : Act late t S s s') (w : Wf S s)
    (hd : ∀ x, LnkAt 0 s.heap x → (s'.deleted x = 0 ↔ s.deleted x = 0))
    (hn : ∀ x, LnkAt 0 s'.heap x → LnkAt 0 s.heap x) : absMap s' = absMap s := by
  have hk := a.stays w
  have hw := a.wf w
  refine mapOf_congr (fun x => ⟨?_, ?_⟩) (fun x hx => hk.key x (w.leveled.pub_lnk hx.1))
    (fun x hx => hk.val x (w.leveled.pub_lnk hx.1)) w.unique
  · rintro ⟨h1, h2, h3⟩
    exact ⟨hn x h1, (hd x (hn x h1)).mp h2, h3⟩
  · rintro ⟨h1, h2, h3⟩
    have hd' : s'.deleted x = 0 := (hd x h1).mpr h2
    have hp : Pub 0 (insert s' S) x := Pub.insert (w.leveled.pub_lnk h1) s'
    exact ⟨hw.leveled.lnk hp (hw.not_marked hd'), hd', h3⟩

/-! ### Nodes of one thread -/

variable (late) in
/-- A thread allocates a node. -/
theorem allocate_act (w : Wf S s) (t : T) (k : K) (v : V) (toplevel : ℕ) :
    Act late t S s (s.allocate t k v toplevel).1 ∧ absMap (s.allocate t k v toplevel).1 = absMap s ∧
      ¬ Pub 0 (insert (s.allocate t k v toplevel).1 S) (s.allocate t k v toplevel).2 ∧
      (s.allocate t k v toplevel).1.heap.mem (s.allocate t k v toplevel).2 =
        ⟨k, v, toplevel, fun _ => Ptr.null.ref⟩ := by
  have hn : ¬ Pub 0 S (.node t (s.heap.count t)) := w.leveled.not_pub_next t
  have hm : ∀ x, x ≠ .node t (s.heap.count t) →
      (s.allocate t k v toplevel).1.heap.mem x = s.heap.mem x := fun x hx =>
    Memory.mem_allocate_of_ne s.heap x _ t hx
  have hself : (s.allocate t k v toplevel).1.heap.mem (.node t (s.heap.count t)) =
      ⟨k, v, toplevel, fun _ => Ptr.null.ref⟩ := Memory.mem_allocate_self s.heap _ t
  have hd : ∀ x, x ≠ .node t (s.heap.count t) →
      (s.allocate t k v toplevel).1.deleted x = s.deleted x := fun x hx => Function.update_of_ne hx _ _
  have hne : ∀ {x}, Pub 0 S x → x ≠ .node t (s.heap.count t) := fun hx he => hn (he ▸ hx)
  have hwrite : Write late t (heaps S) s.heap (s.allocate t k v toplevel).1.heap :=
    .own hn (Memory.count_allocate_self s.heap _ t) hm (Memory.count_le_allocate s.heap _ t)
  obtain ⟨hpub, hlnk, -⟩ := w.leveled.keep_own
    (fun x hx => hm x (hne hx)) (Memory.count_le_allocate s.heap _ t)
  have hact : Act late t S s (s.allocate t k v toplevel).1 := by
    refine ⟨hwrite, fun x hx => le_of_eq (hd x (hne hx)).symm, Or.inr fun x hx => hd x (hne hx),
      fun u m hu _ => hd _ fun he => hu (Ptr.node.inj he).1, fun {x i} hx => Or.inl ?_⟩
    by_cases he : x = .node t (s.heap.count t)
    · rw [he, SkipHeap.Marked, SkipHeap.next, hself] at hx
      cases hx
    · rwa [SkipHeap.Marked, SkipHeap.next, hm x he] at hx
  refine ⟨hact, hact.absMap_eq w (fun x hx => ?_) fun x hx => (hlnk 0 x).mp hx, ?_, hself⟩
  · rw [hd x (hne (w.leveled.pub_lnk hx))]
  · rw [Pub, heaps_insert, hpub]
    exact hn

variable (late) in
/-- A thread sets a `next` word of a node of its own. -/
theorem fill_act (w : Wf S s) (hn : ¬ Pub 0 S (.node t m)) (hm : m < s.heap.count t) (i : ℕ)
    (r : Ptr T) : Act late t S s (s.setNext (.node t m) i r.ref) ∧
      absMap (s.setNext (.node t m) i r.ref) = absMap s ∧
      ¬ Pub 0 (insert (s.setNext (.node t m) i r.ref) S) (.node t m) := by
  have hmem : ∀ x, x ≠ .node t m → (s.heap.setNext (.node t m) i r.ref).mem x = s.heap.mem x :=
    fun x hx => SkipHeap.mem_setNext_of_ne s.heap _ x i _ hx
  have hwrite : Write late t (heaps S) s.heap (s.heap.setNext (.node t m) i r.ref) :=
    .own hn hm hmem fun _ => le_rfl
  obtain ⟨hpub, hlnk, -⟩ := w.leveled.keep_own (SkipHeap.own_mem_of_pub hn hmem) fun _ => le_rfl
  have hact : Act late t S s (s.setNext (.node t m) i r.ref) :=
    act_setNext hwrite fun h => hn (w.marks h).1
  refine ⟨hact, hact.absMap_eq w (fun _ _ => Iff.rfl) fun x hx => (hlnk 0 x).mp hx, ?_⟩
  rw [Pub, heaps_insert]
  exact fun h => hn ((hpub 0 _).mp h)

/-! ### Linking, marking and unlinking -/

variable (late) in
/-- An inserter turns its node's pointer at a level where it is not linked. -/
theorem swing_act (w : Wf S s) (hn : ¬ Pub i S (.node t m)) (hm : ¬ s.heap.Marked (.node t m) i)
    (r : Ptr T) : Act late t S s (s.setNext (.node t m) i r.ref) ∧
      absMap (s.setNext (.node t m) i r.ref) = absMap s ∧
      ∀ j x, Pub j (insert (s.setNext (.node t m) i r.ref) S) x ↔ Pub j S x := by
  obtain ⟨hpub, hlnk, -⟩ := w.leveled.keep_fill hn hm r
  have hact : Act late t S s (s.setNext (.node t m) i r.ref) := act_setNext (.fill hn hm) hm
  refine ⟨hact, hact.absMap_eq w (fun _ _ => Iff.rfl) fun x hx => (hlnk 0 x).mp hx, fun j x => ?_⟩
  rw [Pub, heaps_insert]
  exact hpub j x

variable (late) in
/-- A node linked at a level, in front of the node its pointer leads to. -/
theorem link_act (w : Wf S s) (hn : s.heap.next p i = q.ref) (hp : Pub i S p)
    (hx : ¬ Pub i S (.node t m)) (hm : m < s.heap.count t)
    (hxq : (s.heap.next (.node t m) i).ptr = q) (hl : s.heap.Marked (.node t m) i → late)
    (h1 : s.heap.key p < s.heap.key (.node t m)) (h2 : s.heap.key (.node t m) < s.heap.key q)
    (h3 : i < s.heap.toplevel (.node t m)) (h4 : ∀ j < i, Pub j S (.node t m)) :
    Act late t S s (s.setNext p i (Ptr.node t m).ref) ∧
      (i ≠ 0 → absMap (s.setNext p i (Ptr.node t m).ref) = absMap s) ∧
      ∀ j x, Pub j (insert (s.setNext p i (Ptr.node t m).ref) S) x ↔
        Pub j S x ∨ j = i ∧ x = .node t m := by
  have hact : Act late t S s (s.setNext p i (Ptr.node t m).ref) :=
    act_setNext (.link hn hp hx hm hxq hl h1 h2 h3 h4) (SkipHeap.not_marked_of_next hn)
  have hlink := SkipHeap.link_tower w.leveled hn hp hxq h1 hx
  refine ⟨hact, fun hi => hact.absMap_eq w (fun _ _ => Iff.rfl) fun x hx => ?_, fun j x => ?_⟩
  · exact ((hlink 0 x).1.mp hx).resolve_right fun h => hi h.1.symm
  · rw [Pub, heaps_insert]
    exact (hlink j x).2

variable (late) in
theorem mark_act (w : Wf S s) (hn : s.heap.next p i = q.ref) (hp : Pub 0 S p) (hph : p ≠ .head)
    (hpt : p ≠ .tail) (hd : s.deleted p ≠ 0)
    (hj : ∀ j, i < j → j < s.heap.toplevel p → s.heap.Marked p j) :
    Act late t S s (s.setNext p i (setMark q.ref)) ∧
      absMap (s.setNext p i (setMark q.ref)) = absMap s := by
  obtain ⟨-, hlnk, -⟩ := w.leveled.keep_mark hn hph hpt
  have hact : Act late t S s (s.setNext p i (setMark q.ref)) := act_mark hn hp hph hpt hd hj
  exact ⟨hact, hact.absMap_eq w (fun _ _ => Iff.rfl) fun x hx => (hlnk 0 x).mp hx⟩

variable (late) in
/-- The marked nodes behind the left one are unlinked. -/
theorem splice_act {a : Ptr T} (w : Wf S s) (hp : Pub i S p) (hn : s.heap.next p i = a.ref)
    (h : SkipHeap.MarkedTo i s.heap a r) (hk : s.heap.key p < s.heap.key r) :
    Act late t S s (s.setNext p i r.ref) ∧ absMap (s.setNext p i r.ref) = absMap s ∧
      ∀ j x, Pub j (insert (s.setNext p i r.ref) S) x ↔ Pub j S x := by
  obtain ⟨hr, hwrite⟩ : LnkAt i s.heap r ∧ Write late t (heaps S) s.heap (s.heap.setNext p i r.ref) :=
    SkipHeap.splice_write w.leveled hp hn h hk
  have hsplice := SkipHeap.splice_tower w.leveled hn hp hr hk
  have hact : Act late t S s (s.setNext p i r.ref) := act_setNext hwrite (SkipHeap.not_marked_of_next hn)
  refine ⟨hact, hact.absMap_eq w (fun _ _ => Iff.rfl) fun x hx => ((hsplice 0 x).1.mp hx).1,
    fun j x => ?_⟩
  rw [Pub, heaps_insert]
  exact (hsplice j x).2

section map

variable [Zero V] (w : Wf S s)

include w

/-- A node linked at level 0: the insert takes effect. -/
theorem Wf.link_map (hp : Pub 0 S p) (hn : s.heap.next p 0 = q.ref) (hx : ¬ Pub 0 S (.node t m))
    (hxq : s.heap.next (.node t m) 0 = q.ref) (hd : s.deleted (.node t m) = 0)
    (hk : s.heap.key (.node t m) = k) (hv : s.heap.val (.node t m) = v) (h1 : s.heap.key p < k)
    (h2 : k < s.heap.key q) : (mapObject K V).apply (.insert k v) (absMap s) =
      (absMap (s.setNext p 0 (Ptr.node t m).ref), .flag true) := by
  have hxp : (s.heap.next (.node t m) 0).ptr = q := congrArg Ref.ptr hxq
  have hlnk := fun x => (SkipHeap.link_tower w.leveled hn hp hxp (hk.symm ▸ h1) hx 0 x).1
  have hnone := w.between (w.leveled.lnk_of_next hp hn) hn h1 h2
  have hlive : ∀ x, Live (s.setNext p 0 (Ptr.node t m).ref) x ↔ Live s x ∨ x = .node t m := by
    intro x
    constructor
    · rintro ⟨h3, h4⟩
      exact ((hlnk x).mp h3).imp (fun h => ⟨h, h4⟩) And.right
    · rintro (⟨h3, h4⟩ | rfl)
      · exact ⟨(hlnk x).mpr (Or.inl h3), h4⟩
      · exact ⟨(hlnk _).mpr (Or.inr ⟨rfl, rfl⟩), hd, nofun, nofun⟩
  have hkey : ∀ x, (s.setNext p 0 (Ptr.node t m).ref).heap.key x = s.heap.key x := fun x =>
    SkipHeap.key_setNext s.heap p x 0 _
  have hval : ∀ x, (s.setNext p 0 (Ptr.node t m).ref).heap.val x = s.heap.val x := fun x =>
    SkipHeap.val_setNext s.heap p x 0 _
  have hmap : absMap (s.setNext p 0 (Ptr.node t m).ref) = _ :=
    mapOf_insert hlive (fun x _ => hkey x) (fun x _ => hval x) w.unique fun x hx => by
      rw [hkey, hk]
      exact mapOf_eq_none.mp hnone x hx
  rw [hkey, hval, hk, hv] at hmap
  rw [hmap]
  exact apply_insert_none hnone

/-- A node counted up from 0: the remove takes effect. -/
theorem Wf.delete_map (hx : Pub 0 S x) (hd : s.deleted x = 0) (hk : s.heap.key x = k) (hb : ⊥ < k)
    (ht : k < ⊤) : (mapObject K V).apply (.remove k) (absMap s) =
      (absMap (s.fetchAndInc x).2, .val (s.heap.val x)) := by
  subst hk
  have hlive : Live s x := w.live hx hd hb ht
  have hmap : absMap (s.fetchAndInc x).2 = Function.update (absMap s) (s.heap.key x) none := by
    refine mapOf_remove (fun y => ?_) hlive (fun _ _ => rfl) (fun _ _ => rfl) w.unique
    by_cases hy : y = x
    · subst hy
      simp [Live, fetchAndInc]
    · simp [Live, fetchAndInc, hy]
  rw [hmap]
  exact apply_remove_some (mapOf_eq_some w.unique hlive)

end map

/-! ### What a search learns -/

/-- A node that was linked shows whether it was deleted then. -/
def Hind (W : Set (FraserHeap T K V)) (s : FraserHeap T K V) : Prop :=
  Hindsight (fun s x => LnkAt 0 s.heap x) (fun s x => s.deleted x ≠ 0) W s

/-- The key was absent at some moment of the window. -/
def NoneSeen (W : Set (FraserHeap T K V)) (k : K) : Prop := ∃ s ∈ W, absMap s k = none

/-- The key was present with this value at some moment of the window. -/
def SomeSeen (W : Set (FraserHeap T K V)) (k : K) (v : V) : Prop := ∃ s ∈ W, absMap s k = some v

theorem NoneSeen.insert (h : NoneSeen W k) (s' : FraserHeap T K V) : NoneSeen (insert s' W) k :=
  let ⟨s, hs, he⟩ := h
  ⟨s, Set.mem_insert_of_mem _ hs, he⟩

theorem SomeSeen.insert (h : SomeSeen W k v) (s' : FraserHeap T K V) :
    SomeSeen (insert s' W) k v :=
  let ⟨s, hs, he⟩ := h
  ⟨s, Set.mem_insert_of_mem _ hs, he⟩

theorem pub_iff : Pub 0 S x ↔ ∃ s ∈ S, LnkAt 0 s.heap x := Set.exists_mem_image

theorem Hind.met (h : Hind W s) (hx : Pub 0 W x) :
    ∃ s₀ ∈ W, LnkAt 0 s₀.heap x ∧ (s₀.deleted x = 0 ↔ s.deleted x = 0) := by
  obtain ⟨s₀, hs₀, hl, hv⟩ := h x (pub_iff.mp hx)
  exact ⟨s₀, hs₀, hl, not_iff_not.mp (Iff.of_eq hv)⟩

theorem Act.hind (a : Act late t S s s') (w : Wf S s) (hW : W ⊆ S) (h : Hind W s) :
    Hind (Insert.insert s' W) s' := by
  refine h.step fun x hx hl => ?_
  have hw := a.wf w
  have hp : Pub 0 S x := (pub_iff.mpr hx).mono hW
  -- an unlinked node has been deleted
  have hd' : s'.deleted x ≠ 0 := fun h0 => hl (hw.leveled.lnk (hp.insert s') (hw.not_marked h0))
  have hd : s.deleted x ≠ 0 := by
    rcases a.apart with he | he
    · intro h0
      rw [he] at hl
      exact hl (w.leveled.lnk hp (w.not_marked h0))
    · rwa [← he x hp]
  simp [hd, hd']

/-- At some moment of the window the two were neighbours at level `i`. -/
def Edge (W : Set (FraserHeap T K V)) (i : ℕ) (p q : Ptr T) : Prop :=
  ∃ s ∈ W, LnkAt i s.heap p ∧ s.heap.next p i = q.ref

theorem Edge.insert (h : Edge W i p q) (s' : FraserHeap T K V) : Edge (insert s' W) i p q :=
  let ⟨s, hs, he⟩ := h
  ⟨s, Set.mem_insert_of_mem _ hs, he⟩

section learn

variable (w : Wf S s) (hW : W ⊆ S)

include w

/-- Every moment of the run: the list of level 0 was in order, with the keys
and values of now. -/
theorem Wf.past {s₀ : FraserHeap T K V} (h : s₀ ∈ S) :
    Sorted (fun x => (s₀.heap.next x 0).ptr) s₀.heap.key .head .tail ∧
      ∀ x, LnkAt 0 s₀.heap x → s₀.heap.key x = s.heap.key x ∧ s₀.heap.val x = s.heap.val x :=
  ⟨(w.leveled.listed 0).past s₀.heap (Set.mem_image_of_mem _ h),
    (w.leveled.listed 0).const s₀.heap (Set.mem_image_of_mem _ h)⟩

include hW

theorem Edge.lnk (h : Edge W i p q) (hpt : p ≠ .tail) : Pub i W p ∧ Pub i W q := by
  obtain ⟨s₀, hs₀, hp, hn⟩ := h
  have hq : LnkAt i s₀.heap (s₀.heap.next p i).ptr := hp.next hpt
  rw [hn] at hq
  exact ⟨⟨_, Set.mem_image_of_mem _ hs₀, hp⟩, ⟨_, Set.mem_image_of_mem _ hs₀, hq⟩⟩

/-- A key strictly between two nodes that were neighbours was absent. -/
theorem Edge.noneSeen (h : Edge W 0 p q) (h1 : s.heap.key p < k) (h2 : k < s.heap.key q) :
    NoneSeen W k := by
  have hpt := w.leveled.ne_tail_of_lt h1
  obtain ⟨s₀, hs₀, hp, hn⟩ := h
  obtain ⟨hsort, hconst⟩ := w.past (hW hs₀)
  have hq : LnkAt 0 s₀.heap (s₀.heap.next p 0).ptr := hp.next hpt
  refine ⟨s₀, hs₀, mapOf_eq_none.mpr fun y hy => ?_⟩
  refine hsort.absent hp hpt ?_ ?_ hy.1
  · rwa [(hconst p hp).1]
  · rw [(hconst _ hq).1, hn]
    exact h2

variable (hh : Hind W s) (hx : Pub 0 W x)

include hh hx

/-- A deleted node of the window: its key was absent at some moment. -/
theorem Wf.noneSeen_of_deleted (hd : s.deleted x ≠ 0) : NoneSeen W (s.heap.key x) := by
  obtain ⟨s₀, hs₀, hl, hv⟩ := hh.met hx
  obtain ⟨hsort, hconst⟩ := w.past (hW hs₀)
  have hd₀ : s₀.deleted x ≠ 0 := fun h => hd (hv.mp h)
  refine ⟨s₀, hs₀, mapOf_eq_none.mpr fun y hy he => hd₀ ?_⟩
  rw [← hsort.inj hy.1 hl (he.trans (hconst x hl).1.symm)]
  exact hy.2.1

/-- And one that is not deleted: it was present. -/
theorem Wf.someSeen_of_not_deleted (hd : s.deleted x = 0) (hxh : x ≠ .head) (hxt : x ≠ .tail) :
    SomeSeen W (s.heap.key x) (s.heap.val x) := by
  obtain ⟨s₀, hs₀, hl, hv⟩ := hh.met hx
  obtain ⟨hsort, hconst⟩ := w.past (hW hs₀)
  have hd₀ : s₀.deleted x = 0 := hv.mpr hd
  have hu : Unique (Live s₀) s₀.heap.key := fun _ _ h1 h2 he => hsort.inj h1.1 h2.1 he
  have hlive : Live s₀ x := ⟨hl, hd₀, hxh, hxt⟩
  refine ⟨s₀, hs₀, ?_⟩
  rw [← (hconst x hl).1, ← (hconst x hl).2]
  exact mapOf_eq_some hu hlive

end learn

/-! ### The empty skip list -/

theorem Wf.initial [Nontrivial K] [Zero V] (levelmax : ℕ) :
    Wf {(empty levelmax : FraserHeap T K V)} (empty levelmax) := by
  refine ⟨rfl, ?_, fun {x i} hm => ?_⟩
  · rw [heaps, Set.image_singleton]
    exact .initial levelmax
  · cases x <;> exact absurd hm nofun

theorem empty_absMap [Nontrivial K] [Zero V] (levelmax : ℕ) :
    absMap (empty levelmax : FraserHeap T K V) = fun _ => none := by
  funext k
  refine mapOf_eq_none.mpr fun x hx => ?_
  have hl : ∀ x, LnkAt 0 (empty levelmax : FraserHeap T K V).heap x ↔ x = .head ∨ x = .tail :=
    NodeView.lnk_empty (D := (SkipHeap.tower T K V).level 0) rfl
  rcases (hl x).mp hx.1 with rfl | rfl
  · exact absurd rfl hx.2.2.1
  · exact absurd rfl hx.2.2.2

end FraserHeap

end Ascylib
