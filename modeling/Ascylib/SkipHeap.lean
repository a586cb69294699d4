/-
# Nodes of the lock-free skip lists

`src/aux/sl_simple.h`: a node has a key, a value, its height `toplevel` and one
`next` word a level, whose low bit marks the node as deleted at that level.

Level 0 of such a skip list is a Harris list (`level0`), and what is known of
Harris lists is known of it: it stands for the map. The levels above are
shortcuts. All that is kept of them is that a pointer at level `i` leads to a
node of more than `i` levels (`Wf.tower`), that a node is marked from the top
down (`Wf.marks`), and that no pointer leads back (`Wf.order`).

The writes are those of a Harris list at level 0, and swings and marks above
it (`Act`).
-/
import Ascylib.HarrisHeap
import Mathlib.Data.Finset.Lattice.Fold
import Mathlib.Data.Set.Card

set_option linter.unusedSectionVars false

namespace Ascylib

open Concur Chain

structure SlSimple (T K V : Type*) where
  key : K
  val : V
  toplevel : ℕ
  next : ℕ → Ref T

/-- The shared memory of a skip list. -/
abbrev SkipHeap (T K V : Type*) := Memory T (SlSimple T K V)

def isMarked {T : Type*} (r : Ref T) : Bool := r.mark
def setMark {T : Type*} (r : Ref T) : Ref T := ⟨r.ptr, true⟩
def unsetMark {T : Type*} (r : Ref T) : Ref T := ⟨r.ptr, false⟩

namespace SkipHeap

variable {T K V : Type*} [DecidableEq T]

def key (s : SkipHeap T K V) (x : Ptr T) : K := (s.mem x).key
def val (s : SkipHeap T K V) (x : Ptr T) : V := (s.mem x).val
def toplevel (s : SkipHeap T K V) (x : Ptr T) : ℕ := (s.mem x).toplevel

/-- `x->next[i]`. -/
def next (s : SkipHeap T K V) (x : Ptr T) (i : ℕ) : Ref T := (s.mem x).next i

/-- The node is deleted at level `i`. -/
def Marked (s : SkipHeap T K V) (x : Ptr T) (i : ℕ) : Prop := (s.next x i).mark = true

/-- `x->next[i] = r`. -/
def setNext (s : SkipHeap T K V) (x : Ptr T) (i : ℕ) (r : Ref T) : SkipHeap T K V :=
  s.modify x fun n => { n with next := Function.update n.next i r }

/-- `CAS(&x->next[i], old, new)`: whether it succeeded, and the memory after it. -/
def cas (s : SkipHeap T K V) (x : Ptr T) (i : ℕ) (old new : Ref T) : Bool × SkipHeap T K V :=
  if s.next x i = old then (true, s.setNext x i new) else (false, s)

/-- `allocate_sl_simple_unlinked(key, val, ..., toplevel)` by thread `t`. It
leaves the `next` words as they are; what they hold does not matter. -/
def allocateSlSimpleUnlinked (s : SkipHeap T K V) (t : T) (key : K) (val : V) (toplevel : ℕ) :
    SkipHeap T K V × Ptr T :=
  s.allocate t ⟨key, val, toplevel, fun _ => Ptr.null.ref⟩

/-- The constructor: the two sentinels, of all levels, linked at each. -/
def empty [Bot K] [Top K] [Zero V] (levelmax : ℕ) : SkipHeap T K V where
  mem
    | .head => ⟨⊥, 0, levelmax, fun _ => Ptr.tail.ref⟩
    | .tail => ⟨⊤, 0, levelmax, fun _ => Ptr.null.ref⟩
    | _ => ⟨⊥, 0, 0, fun _ => Ptr.null.ref⟩
  count := fun _ => 0
  freed := []

/-- The list at level 0. -/
def level0 (s : SkipHeap T K V) : Heap T K V where
  mem x := ⟨(s.mem x).key, (s.mem x).val, (s.mem x).next 0⟩
  count := s.count
  freed := s.freed

/-! ### Reading a memory after a write -/

section

variable (s : SkipHeap T K V) (x y : Ptr T) (i j : ℕ) (r : Ref T)

theorem mem_setNext_of_ne (h : y ≠ x) : (s.setNext x i r).mem y = s.mem y :=
  s.mem_modify_of_ne x y _ h

@[simp] theorem key_setNext : (s.setNext x i r).key y = s.key y :=
  s.field_modify x y SlSimple.key fun _ => rfl

@[simp] theorem val_setNext : (s.setNext x i r).val y = s.val y :=
  s.field_modify x y SlSimple.val fun _ => rfl

@[simp] theorem toplevel_setNext : (s.setNext x i r).toplevel y = s.toplevel y :=
  s.field_modify x y SlSimple.toplevel fun _ => rfl

@[simp] theorem next_setNext_self : (s.setNext x i r).next x i = r := by simp [setNext, next]

theorem next_setNext_of_ne (h : y ≠ x ∨ j ≠ i) : (s.setNext x i r).next y j = s.next y j := by
  by_cases hy : y = x
  · subst hy
    simp [setNext, next, h.resolve_left fun h => h rfl]
  · rw [next, mem_setNext_of_ne s x y i r hy]
    rfl

theorem level0_setNext_zero : (s.setNext x 0 r).level0 = s.level0.setNext x r := by
  have hm : (s.setNext x 0 r).level0.mem = (s.level0.setNext x r).mem := by
    funext y
    by_cases h : y = x
    · subst h
      simp [level0, setNext, Heap.setNext]
    · rw [Heap.mem_setNext_of_ne _ x y r h]
      simp only [level0, mem_setNext_of_ne s x y 0 r h]
  exact congrArg (fun m => (⟨m, s.count, s.freed⟩ : Heap T K V)) hm

theorem level0_setNext_of_ne (h : i ≠ 0) : (s.setNext x i r).level0 = s.level0 := by
  have hm : (s.setNext x i r).level0.mem = s.level0.mem := by
    funext y
    by_cases hy : y = x
    · subst hy
      simp [level0, setNext, Ne.symm h]
    · simp only [level0, mem_setNext_of_ne s x y i r hy]
  exact congrArg (fun m => (⟨m, s.count, s.freed⟩ : Heap T K V)) hm

end

theorem cas_true {s s' : SkipHeap T K V} {x : Ptr T} {i : ℕ} {old new : Ref T}
    (h : s.cas x i old new = (true, s')) : s.next x i = old ∧ s' = s.setNext x i new := by
  unfold cas at h
  split at h
  · cases h; exact ⟨‹_›, rfl⟩
  · cases h

theorem cas_false {s s' : SkipHeap T K V} {x : Ptr T} {i : ℕ} {old new : Ref T}
    (h : s.cas x i old new = (false, s')) : s' = s := by
  unfold cas at h
  split at h <;> cases h
  rfl

theorem next_ne_of_cas {s s' : SkipHeap T K V} {x : Ptr T} {i : ℕ} {old new : Ref T}
    (h : s.cas x i old new = (false, s')) : s.next x i ≠ old := by
  unfold cas at h
  split at h
  · cases h
  · assumption

theorem next_eq_ref {s : SkipHeap T K V} {x : Ptr T} {i : ℕ} (h : ¬ s.Marked x i) :
    s.next x i = (s.next x i).ptr.ref := by
  rw [Marked, Bool.not_eq_true] at h
  rw [Ptr.ref, ← h]

/-! ### What is left of a level -/

/-- One step along level `i`. -/
def Onward (s : SkipHeap T K V) (i : ℕ) (x y : Ptr T) : Prop :=
  x ≠ .tail ∧ (s.next x i).ptr = y

/-- How many nodes are met from `x` along level `i`. -/
noncomputable def rest (s : SkipHeap T K V) (i : ℕ) (x : Ptr T) : ℕ :=
  {y | Relation.ReflTransGen (Onward s i) x y}.ncard

section rest

variable {s : SkipHeap T K V} {i : ℕ} {x : Ptr T} (hfin : {x | s.Allocated x}.Finite)
  (halloc : ∀ y, Relation.ReflTransGen (Onward s i) x y → s.Allocated y)

include hfin halloc

theorem rest_pos_of_allocated : 0 < rest s i x :=
  (Set.ncard_pos (hfin.subset halloc)).mpr ⟨x, .refl⟩

/-- A pointer from which no way leads back leads to fewer nodes. -/
theorem rest_lt_of_not_back (hxt : x ≠ .tail)
    (hback : ¬ Relation.ReflTransGen (Onward s i) (s.next x i).ptr x) :
    rest s i (s.next x i).ptr < rest s i x := by
  have hn : Onward s i x (s.next x i).ptr := ⟨hxt, rfl⟩
  refine Set.ncard_lt_ncard ⟨fun y hy => .head hn hy, fun h => hback ?_⟩ (hfin.subset halloc)
  exact h (show Relation.ReflTransGen (Onward s i) x x from .refl)

end rest

/-! ### The skip list -/

/-- The node has been linked, at level 0. -/
abbrev Pub (S : Set (SkipHeap T K V)) (x : Ptr T) : Prop := HarrisHeap.Pub (level0 '' S) x

/-- The node is linked at level 0. -/
abbrev Lnk (s : SkipHeap T K V) (x : Ptr T) : Prop := HarrisHeap.Lnk s.level0 x

/-- The map the skip list stands for. -/
noncomputable def absMap (s : SkipHeap T K V) : K → Option V := HarrisHeap.absMap s.level0

/-- The node has been linked, and has a level `i`. -/
def Tall (S : Set (SkipHeap T K V)) (s : SkipHeap T K V) (i : ℕ) (x : Ptr T) : Prop :=
  Pub S x ∧ i < s.toplevel x

variable [LinearOrder K]

/-- A well-formed skip list, in a run that went through the memories `S`. -/
structure Wf [BoundedOrder K] (levelmax : ℕ) (S : Set (SkipHeap T K V)) (s : SkipHeap T K V) :
    Prop where
  mem : s ∈ S
  base : HarrisHeap.Wf (level0 '' S) s.level0
  head_top : s.toplevel .head = levelmax
  tail_top : s.toplevel .tail = levelmax
  head_mark : ∀ i, ¬ s.Marked .head i
  tail_next : ∀ i, s.next .tail i = Ptr.null.ref
  tower : ∀ {x i}, Tall S s i x → x ≠ .tail → Tall S s i (s.next x i).ptr
  marks : ∀ {x i j}, Pub S x → s.Marked x i → i ≤ j → j < s.toplevel x → s.Marked x j
  -- `d` grows with the age of nodes of one key
  order : ∃ d : Ptr T → ℕ, ∀ {x i}, Tall S s i x → x ≠ .tail →
    s.key x < s.key (s.next x i).ptr ∨
      s.key x = s.key (s.next x i).ptr ∧ d (s.next x i).ptr < d x

/-- The writes of thread `t`. -/
inductive Act (t : T) (S : Set (SkipHeap T K V)) : SkipHeap T K V → SkipHeap T K V → Prop
  | skip {s} : Act t S s s
  | free {s : SkipHeap T K V} (x : Ptr T) : Act t S s (s.ssmemFree x)
  | own {s s' : SkipHeap T K V} {i : ℕ} : ¬ Pub S (.node t i) → i < s'.count t →
      (∀ x, x ≠ .node t i → s'.mem x = s.mem x) → (∀ u, s.count u ≤ s'.count u) → Act t S s s'
  | link {s : SkipHeap T K V} {p q : Ptr T} {i : ℕ} : s.next p 0 = q.ref → Pub S p →
      ¬ Pub S (.node t i) → i < s.count t → s.next (.node t i) 0 = q.ref →
      s.key p < s.key (.node t i) → s.key (.node t i) < s.key q →
      (∀ j < s.toplevel (.node t i), ∃ r, s.next (.node t i) j = r.ref ∧ Tall S s j r ∧
        s.key (.node t i) ≤ s.key r) → 0 < s.toplevel (.node t i) →
      Act t S s (s.setNext p 0 (Ptr.node t i).ref)
  | mark {s : SkipHeap T K V} {p q : Ptr T} {i : ℕ} : s.next p i = q.ref → Tall S s i p →
      p ≠ .head → p ≠ .tail → (∀ j, i < j → j < s.toplevel p → s.Marked p j) →
      Act t S s (s.setNext p i (setMark q.ref))
  | swing {s : SkipHeap T K V} {p r : Ptr T} {i : ℕ} : i ≠ 0 → ¬ s.Marked p i → Tall S s i p →
      Tall S s i r → s.key p < s.key r → Act t S s (s.setNext p i r.ref)
  | splice {s : SkipHeap T K V} {p q r : Ptr T} : s.next p 0 = q.ref → Tall S s 0 p →
      Tall S s 0 r → Lnk s r → s.key p < s.key r →
      (∀ x, Lnk s x → s.key p < s.key x → s.key x < s.key r → s.Marked x 0) →
      Act t S s (s.setNext p 0 r.ref)

/-- What a step of thread `t` leaves alone. -/
structure Keeps (t : T) (S : Set (SkipHeap T K V)) (s s' : SkipHeap T K V) : Prop where
  base : HarrisHeap.Keeps t (level0 '' S) s.level0 s'.level0
  top : ∀ x, Pub S x → s'.toplevel x = s.toplevel x
  frozen : ∀ x i, Pub S x → s.Marked x i → s'.next x i = s.next x i
  others : ∀ u i, u ≠ t → ¬ Pub S (.node u i) → s'.mem (.node u i) = s.mem (.node u i)

variable [BoundedOrder K] {levelmax : ℕ} {t : T} {S : Set (SkipHeap T K V)} {s s' : SkipHeap T K V}

theorem image_insert (s' : SkipHeap T K V) (S : Set (SkipHeap T K V)) :
    level0 '' insert s' S = insert s'.level0 (level0 '' S) := Set.image_insert_eq

theorem not_marked_of_next {p q : Ptr T} {i : ℕ} (h : s.next p i = q.ref) : ¬ s.Marked p i := by
  simp [Marked, h, Ptr.ref]

namespace Wf

variable (w : Wf levelmax S s)

include w

theorem ne_tail_of_lt {x : Ptr T} {k : K} (h : s.key x < k) : x ≠ .tail := w.base.ne_tail_of_lt h

theorem ne_head_of_lt {x : Ptr T} {k : K} (h : k < s.key x) : x ≠ .head := w.base.ne_head_of_lt h

theorem tail_mark (i : ℕ) : ¬ s.Marked .tail i := not_marked_of_next (w.tail_next i)

theorem tall_head {i : ℕ} (h : i < levelmax) : Tall S s i .head :=
  ⟨w.base.pub_head, by rw [w.head_top]; exact h⟩

/-- A node that is not marked at one of its levels is not marked at level 0,
and so it is linked there. -/
theorem not_marked_zero {x : Ptr T} {i : ℕ} (h : Tall S s i x) (hm : ¬ s.Marked x i) :
    ¬ s.Marked x 0 := fun h0 => hm (w.marks h.1 h0 (Nat.zero_le i) h.2)

theorem lnk {x : Ptr T} {i : ℕ} (h : Tall S s i x) (hm : ¬ s.Marked x i) : Lnk s x :=
  w.base.lnk x h.1 (w.not_marked_zero h hm)

end Wf

/-! ### Any write -/

/-- **At level 0 the writes are those of a Harris list.** -/
theorem Act.base (a : Act t S s s') (w : Wf levelmax S s) :
    HarrisHeap.Act t (level0 '' S) s.level0 s'.level0 := by
  cases a with
  | skip => exact .skip
  | free x => exact .free x
  | own hn hi he hc => exact .own hn hi (fun x hx => by simp only [level0, he x hx]) hc
  | link hpq hp hn hi hnq h1 h2 hr h0 =>
    rw [level0_setNext_zero]
    exact .link hpq hp (w.ne_tail_of_lt h1) hn hi hnq h1 h2
  | @mark p q i hpq hp hph hpt hm =>
    by_cases hi : i = 0
    · subst hi
      rw [level0_setNext_zero]
      exact .mark hpq hp.1 hph hpt
    · rw [level0_setNext_of_ne _ _ _ _ hi]
      exact .skip
  | swing hi hm hp hr hk =>
    rw [level0_setNext_of_ne _ _ _ _ hi]
    exact .skip
  | splice hpq hp hr hl hk hm =>
    rw [level0_setNext_zero]
    exact .splice hpq hp.1 hl hk hm

/-- A write leaves the published nodes alone, or swings or marks an unmarked
pointer of one of them. -/
theorem Act.shape (a : Act t S s s') :
    ((∀ x, Pub S x → s'.mem x = s.mem x) ∧
      ∀ u i, u ≠ t → s'.mem (.node u i) = s.mem (.node u i)) ∨
    ∃ p i r, s' = s.setNext p i r ∧ Pub S p ∧ ¬ s.Marked p i := by
  cases a with
  | skip => exact Or.inl ⟨fun _ _ => rfl, fun _ _ _ => rfl⟩
  | free x => exact Or.inl ⟨fun _ _ => rfl, fun _ _ _ => rfl⟩
  | own hn hi he hc =>
    exact Or.inl ⟨fun x hx => he x fun h => hn (h ▸ hx), fun u j hu => he _ fun h =>
      hu (Ptr.node.inj h).1⟩
  | link hpq hp => exact Or.inr ⟨_, _, _, rfl, hp, not_marked_of_next hpq⟩
  | mark hpq hp => exact Or.inr ⟨_, _, _, rfl, hp.1, not_marked_of_next hpq⟩
  | swing hi hm hp => exact Or.inr ⟨_, _, _, rfl, hp.1, hm⟩
  | splice hpq hp => exact Or.inr ⟨_, _, _, rfl, hp.1, not_marked_of_next hpq⟩

theorem Act.keeps (a : Act t S s s') (w : Wf levelmax S s) : Keeps t S s s' := by
  refine ⟨(a.base w).keeps w.base, fun x hx => ?_, fun x i hx hm => ?_, fun u i hu hx => ?_⟩ <;>
    rcases a.shape with ⟨h1, h2⟩ | ⟨p, j, r, rfl, hp, hpm⟩
  · rw [toplevel, h1 x hx]
    rfl
  · exact toplevel_setNext s p x j r
  · rw [next, h1 x hx]
    rfl
  · refine next_setNext_of_ne s p x j i r ?_
    by_contra h
    rw [not_or, not_not, not_not] at h
    exact hpm (h.1 ▸ h.2 ▸ hm)
  · exact h2 u i hu
  · exact mem_setNext_of_ne s p _ j r fun h => hx (h ▸ hp)

/-- A write that publishes nothing and turns a pointer of a published node. -/
theorem Wf.setNext (w : Wf levelmax S s) {p : Ptr T} {i : ℕ} {r : Ref T}
    (ha : HarrisHeap.Act t (level0 '' S) s.level0 (s.setNext p i r).level0)
    (hpub : ∀ x, Pub (insert (s.setNext p i r) S) x ↔ Pub S x)
    (hpt : p ≠ .tail) (hr : Tall S s i r.ptr)
    (ho : r.ptr = (s.next p i).ptr ∨ s.key p < s.key r.ptr)
    (hpm : ¬ s.Marked p i)
    (hm : r.mark = false ∨ p ≠ .head ∧ ∀ j, i < j → j < s.toplevel p → s.Marked p j) :
    Wf levelmax (insert (s.setNext p i r) S) (s.setNext p i r) := by
  have htall : ∀ {x j}, Tall (insert (s.setNext p i r) S) (s.setNext p i r) j x ↔ Tall S s j x := by
    intro x j
    rw [Tall, Tall, hpub, toplevel_setNext]
  -- the mark of the pointer only goes up, and only when all above it are set
  have hmark : ∀ {x j}, (x ≠ p ∨ j ≠ i) → ((s.setNext p i r).Marked x j ↔ s.Marked x j) := by
    intro x j h
    rw [Marked, next_setNext_of_ne s p x i j r h]
    rfl
  have hself : (s.setNext p i r).Marked p i ↔ r.mark = true := by rw [Marked, next_setNext_self]
  refine ⟨Set.mem_insert _ _, by rw [image_insert]; exact ha.wf w.base,
    by rw [toplevel_setNext]; exact w.head_top, by rw [toplevel_setNext]; exact w.tail_top,
    fun j => ?_, fun j => ?_, fun {x j} hx hxt => ?_, fun {x j k} hx hj hjk hk => ?_, ?_⟩
  · by_cases h : (.head : Ptr T) = p ∧ j = i
    · obtain ⟨rfl, rfl⟩ := h
      rw [hself]
      rcases hm with h1 | ⟨h1, -⟩
      · simp [h1]
      · exact absurd rfl h1
    · rw [hmark (not_and_or.mp h)]
      exact w.head_mark j
  · rw [next_setNext_of_ne s p _ i j r (Or.inl (Ne.symm hpt))]
    exact w.tail_next j
  · rw [htall] at hx ⊢
    by_cases h : x = p ∧ j = i
    · obtain ⟨rfl, rfl⟩ := h
      rw [next_setNext_self]
      exact hr
    · rw [next_setNext_of_ne s p x i j r (not_and_or.mp h)]
      exact w.tower hx hxt
  · rw [toplevel_setNext] at hk
    rw [hpub] at hx
    by_cases h : x = p ∧ j = i
    · obtain ⟨rfl, rfl⟩ := h
      rcases hjk.lt_or_eq with hlt | rfl
      · have hr1 := hself.mp hj
        rw [hmark (Or.inr (ne_of_gt hlt))]
        rcases hm with h1 | ⟨-, h1⟩
        · rw [h1] at hr1
          cases hr1
        · exact h1 k hlt hk
      · exact hj
    · rw [hmark (not_and_or.mp h)] at hj
      have hxk := w.marks hx hj hjk hk
      rw [hmark]
      · exact hxk
      · by_contra h'
        rw [not_or, not_not, not_not] at h'
        exact hpm (h'.1 ▸ h'.2 ▸ hxk)
  · obtain ⟨d, hd⟩ := w.order
    refine ⟨d, fun {x j} hx hxt => ?_⟩
    rw [htall] at hx
    simp only [key_setNext]
    by_cases h : x = p ∧ j = i
    · obtain ⟨rfl, rfl⟩ := h
      rw [next_setNext_self]
      rcases ho with h | h
      · rw [h]
        exact hd hx hxt
      · exact Or.inl h
    · rw [next_setNext_of_ne s p x i j r (not_and_or.mp h)]
      exact hd hx hxt

theorem own_pub (w : Wf levelmax S s) (he : ∀ x, Pub S x → s'.mem x = s.mem x)
    (hc : ∀ u, s.count u ≤ s'.count u) (x : Ptr T) : Pub (insert s' S) x ↔ Pub S x := by
  have he0 : ∀ x, Pub S x → s'.level0.mem x = s.level0.mem x := fun x hx => by
    simp only [level0, he x hx]
  have hsame : (HarrisHeap.view T K V).Same (level0 '' S) s.level0 s'.level0 :=
    NodeView.same_of_mem he0 hc
  rw [Pub, image_insert]
  exact hsame.pub w.base.listed x

theorem own_lnk (w : Wf levelmax S s) (he : ∀ x, Pub S x → s'.mem x = s.mem x)
    (hc : ∀ u, s.count u ≤ s'.count u) (x : Ptr T) : Lnk s' x ↔ Lnk s x := by
  have he0 : ∀ x, Pub S x → s'.level0.mem x = s.level0.mem x := fun x hx => by
    simp only [level0, he x hx]
  have hsame : (HarrisHeap.view T K V).Same (level0 '' S) s.level0 s'.level0 :=
    NodeView.same_of_mem he0 hc
  exact hsame.lnk w.base.listed x

theorem own_absMap (w : Wf levelmax S s) (he : ∀ x, Pub S x → s'.mem x = s.mem x)
    (hc : ∀ u, s.count u ≤ s'.count u) : absMap s' = absMap s := by
  have he0 : ∀ x, Pub S x → s'.level0.mem x = s.level0.mem x := fun x hx => by
    simp only [level0, he x hx]
  exact (HarrisHeap.own_absMap w.base he0 hc).2

/-- A write that leaves the published nodes alone. -/
theorem Wf.own (w : Wf levelmax S s) (he : ∀ x, Pub S x → s'.mem x = s.mem x)
    (hc : ∀ u, s.count u ≤ s'.count u) : Wf levelmax (insert s' S) s' := by
  have he0 : ∀ x, Pub S x → s'.level0.mem x = s.level0.mem x := fun x hx => by
    simp only [level0, he x hx]
  have hpub : ∀ x, Pub (insert s' S) x ↔ Pub S x := own_pub w he hc
  have htall : ∀ {x i}, Tall (insert s' S) s' i x ↔ Tall S s i x := by
    intro x i
    rw [Tall, Tall, hpub]
    refine and_congr_right fun hx => ?_
    rw [toplevel, he x hx]
    rfl
  refine ⟨Set.mem_insert _ _, by rw [image_insert]; exact HarrisHeap.own_wf w.base he0 hc, ?_, ?_,
    fun i => ?_, fun i => ?_, fun {x i} hx hxt => ?_, fun {x i j} hx hi hij hj => ?_, ?_⟩
  · rw [toplevel, he _ w.base.pub_head]
    exact w.head_top
  · rw [toplevel, he _ w.base.pub_tail]
    exact w.tail_top
  · rw [Marked, next, he _ w.base.pub_head]
    exact w.head_mark i
  · rw [next, he _ w.base.pub_tail]
    exact w.tail_next i
  · rw [htall] at hx ⊢
    rw [next, he x hx.1]
    exact w.tower hx hxt
  · rw [hpub] at hx
    rw [Marked, next, he x hx] at hi ⊢
    rw [toplevel, he x hx] at hj
    exact w.marks hx hi hij hj
  · obtain ⟨d, hd⟩ := w.order
    refine ⟨d, fun {x i} hx hxt => ?_⟩
    rw [htall] at hx
    have hnext : s'.next x i = s.next x i := congrArg (fun n => n.next i) (he x hx.1)
    have hkx : s'.key x = s.key x := congrArg SlSimple.key (he x hx.1)
    have hky : s'.key (s.next x i).ptr = s.key (s.next x i).ptr :=
      congrArg SlSimple.key (he _ (w.tower hx hxt).1)
    rw [hnext, hkx, hky]
    exact hd hx hxt

section link

variable {p q : Ptr T} {i : ℕ} (w : Wf levelmax S s) (hpq : s.next p 0 = q.ref) (hp : Pub S p)
  (hn : ¬ Pub S (.node t i)) (hi : i < s.count t) (hnq : s.next (.node t i) 0 = q.ref)
  (h1 : s.key p < s.key (.node t i)) (h2 : s.key (.node t i) < s.key q)
  (hr : ∀ j < s.toplevel (.node t i), ∃ r, s.next (.node t i) j = r.ref ∧ Tall S s j r ∧
    s.key (.node t i) ≤ s.key r) (h0 : 0 < s.toplevel (.node t i))

include w hpq hp hn hnq h1

theorem link_pub (x : Ptr T) :
    Pub (insert (s.setNext p 0 (Ptr.node t i).ref) S) x ↔ Pub S x ∨ x = .node t i := by
  rw [Pub, image_insert, level0_setNext_zero]
  exact HarrisHeap.link_pub w.base hpq hp (w.ne_tail_of_lt h1) hn hnq x

include hi h2 hr h0

/-- The new node becomes the oldest of its key. -/
theorem link_order {d : Ptr T → ℕ} (hd : ∀ {x i}, Tall S s i x → x ≠ .tail →
      s.key x < s.key (s.next x i).ptr ∨
        s.key x = s.key (s.next x i).ptr ∧ d (s.next x i).ptr < d x) :
    ∃ d : Ptr T → ℕ, ∀ {x j}, Pub S x ∨ x = .node t i → j < s.toplevel x → x ≠ .tail →
      (x ≠ p ∨ j ≠ 0) → s.key x < s.key (s.next x j).ptr ∨
        s.key x = s.key (s.next x j).ptr ∧ d (s.next x j).ptr < d x := by
  refine ⟨Function.update d (.node t i)
    ((Finset.range (s.toplevel (.node t i))).sup (fun j => d (s.next (.node t i) j).ptr) + 1), ?_⟩
  intro x j hx hj hxt hpj
  rcases hx with hx | rfl
  · have hxn : x ≠ .node t i := fun h => hn (h ▸ hx)
    have hyn : (s.next x j).ptr ≠ .node t i := fun h => hn (h ▸ (w.tower ⟨hx, hj⟩ hxt).1)
    rw [Function.update_of_ne hxn, Function.update_of_ne hyn]
    exact hd ⟨hx, hj⟩ hxt
  · obtain ⟨r, hrj, hrt, hle⟩ := hr j hj
    rw [hrj]
    have hrn : r ≠ .node t i := fun h => hn (h ▸ hrt.1)
    rcases hle.lt_or_eq with hlt | heq
    · exact Or.inl hlt
    · refine Or.inr ⟨heq, ?_⟩
      rw [Function.update_self, show (Ptr.ref r).ptr = r from rfl, Function.update_of_ne hrn]
      refine Nat.lt_succ_of_le ?_
      have := Finset.le_sup (f := fun j => d (s.next (.node t i) j).ptr) (Finset.mem_range.mpr hj)
      rw [hrj] at this
      exact this

theorem link_wf : Wf levelmax (insert (s.setNext p 0 (Ptr.node t i).ref) S)
    (s.setNext p 0 (Ptr.node t i).ref) := by
  have hpt := w.ne_tail_of_lt h1
  have hnp : Ptr.node t i ≠ p := fun h => hn (h ▸ hp)
  have hpub := link_pub w hpq hp hn hnq h1
  have hmono : ∀ {x j}, Tall S s j x → Tall (insert (s.setNext p 0 (Ptr.node t i).ref) S)
      (s.setNext p 0 (Ptr.node t i).ref) j x := fun hx =>
    ⟨(hpub _).mpr (Or.inl hx.1), by rw [toplevel_setNext]; exact hx.2⟩
  have ha : Act t S s (s.setNext p 0 (Ptr.node t i).ref) := .link hpq hp hn hi hnq h1 h2 hr h0
  have hself : ¬ (s.setNext p 0 (Ptr.node t i).ref).Marked p 0 := by
    rw [Marked, next_setNext_self]
    exact nofun
  have hmark : ∀ {x j}, (x ≠ p ∨ j ≠ 0) →
      ((s.setNext p 0 (Ptr.node t i).ref).Marked x j ↔ s.Marked x j) := by
    intro x j h
    rw [Marked, next_setNext_of_ne s p x 0 j _ h]
    rfl
  refine ⟨Set.mem_insert _ _, by rw [image_insert]; exact (ha.base w).wf w.base,
    by rw [toplevel_setNext]; exact w.head_top, by rw [toplevel_setNext]; exact w.tail_top,
    fun j => ?_, fun j => ?_, fun {x j} hx hxt => ?_, fun {x j k} hx hj hjk hk => ?_, ?_⟩
  · by_cases h : (.head : Ptr T) = p ∧ j = 0
    · obtain ⟨rfl, rfl⟩ := h
      exact hself
    · rw [hmark (not_and_or.mp h)]
      exact w.head_mark j
  · rw [next_setNext_of_ne s p _ 0 j _ (Or.inl (Ne.symm hpt))]
    exact w.tail_next j
  · rw [Tall, toplevel_setNext, hpub] at hx
    by_cases h : x = p ∧ j = 0
    · obtain ⟨rfl, rfl⟩ := h
      rw [next_setNext_self]
      exact ⟨(hpub _).mpr (Or.inr rfl), by rw [toplevel_setNext]; exact h0⟩
    · rw [next_setNext_of_ne s p x 0 j _ (not_and_or.mp h)]
      rcases hx with ⟨hx | rfl, hj⟩
      · exact hmono (w.tower ⟨hx, hj⟩ hxt)
      · obtain ⟨r, hrj, hrt, -⟩ := hr j hj
        rw [hrj]
        exact hmono hrt
  · rw [toplevel_setNext] at hk
    rw [hpub] at hx
    have hne : x ≠ p ∨ j ≠ 0 := by
      by_contra h
      rw [not_or, not_not, not_not] at h
      obtain ⟨rfl, rfl⟩ := h
      exact hself hj
    rw [hmark hne] at hj
    rcases hx with hx | rfl
    · have hxk := w.marks hx hj hjk hk
      rw [hmark]
      · exact hxk
      · by_contra h
        rw [not_or, not_not, not_not] at h
        exact not_marked_of_next hpq (h.1 ▸ h.2 ▸ hxk)
    · obtain ⟨r, hrj, -⟩ := hr j (hjk.trans_lt hk)
      exact absurd hj (not_marked_of_next hrj)
  · obtain ⟨d, hd⟩ := w.order
    obtain ⟨d, hd⟩ := link_order w hpq hp hn hi hnq h1 h2 hr h0 hd
    refine ⟨d, fun {x j} hx hxt => ?_⟩
    rw [Tall, toplevel_setNext, hpub] at hx
    simp only [key_setNext]
    by_cases h : x = p ∧ j = 0
    · obtain ⟨rfl, rfl⟩ := h
      rw [next_setNext_self]
      exact Or.inl h1
    · rw [next_setNext_of_ne s p x 0 j _ (not_and_or.mp h)]
      exact hd hx.1 hx.2 hxt (not_and_or.mp h)

end link

/-- **Every write keeps the skip list well formed.** -/
theorem Act.wf (a : Act t S s s') (w : Wf levelmax S s) : Wf levelmax (insert s' S) s' := by
  have hb := a.base w
  -- above level 0 nothing is published
  have hup : ∀ {p i} {r : Ref T} (_ : i ≠ 0) x, Pub (insert (s.setNext p i r) S) x ↔ Pub S x := by
    intro p i r hi x
    rw [Pub, image_insert, level0_setNext_of_ne _ _ _ _ hi, Set.insert_eq_of_mem w.base.mem]
  cases a with
  | skip => exact w.own (fun _ _ => rfl) fun _ => le_rfl
  | free x => exact w.own (fun _ _ => rfl) fun _ => le_rfl
  | own hn hi he hc => exact w.own (fun x hx => he x fun h => hn (h ▸ hx)) hc
  | link hpq hp hn hi hnq h1 h2 hr h0 => exact link_wf w hpq hp hn hi hnq h1 h2 hr h0
  | @mark p q i hpq hp hph hpt hm =>
    refine w.setNext hb (fun x => ?_) hpt ?_ (Or.inl (by rw [hpq]; rfl)) (not_marked_of_next hpq)
      (Or.inr ⟨hph, hm⟩)
    · by_cases hi : i = 0
      · subst hi
        have hsame : (HarrisHeap.view T K V).Same (level0 '' S) s.level0
            (s.level0.setNext p (getMarkedRef q.ref)) := HarrisHeap.mark_same hpq
        rw [Pub, image_insert, level0_setNext_zero]
        exact hsame.pub w.base.listed x
      · exact hup hi x
    · have := w.tower hp hpt
      rwa [hpq] at this
  | swing hi hm hp hr hk =>
    exact w.setNext hb (hup hi) (w.ne_tail_of_lt hk) hr (Or.inr hk) hm (Or.inl rfl)
  | @splice p q r hpq hp hr hl hk hm =>
    refine w.setNext hb (fun x => ?_) (w.ne_tail_of_lt hk) hr (Or.inr hk) (not_marked_of_next hpq)
      (Or.inl rfl)
    rw [Pub, image_insert, level0_setNext_zero]
    exact HarrisHeap.splice_pub w.base hpq hp.1 hl hk x

/-! ### What a traversal learns

`W` are the memories of a window: `Pub W x` says that the node was linked at
some moment of it. A traversal at level `i` stands on a node with a smaller key
(`Stand`), has come to a node (`Came`), or goes past one (`Past`). Only level 0
says something about the map. -/

/-- The nodes show what they showed when they were linked. -/
abbrev Hind (W : Set (SkipHeap T K V)) (s : SkipHeap T K V) : Prop :=
  HarrisHeap.Hind (level0 '' W) s.level0

/-- The key was absent at some moment of the window. -/
def NoneSeen (W : Set (SkipHeap T K V)) (k : K) : Prop := ∃ s ∈ W, absMap s k = none

/-- The key was present with this value at some moment of the window. -/
def SomeSeen (W : Set (SkipHeap T K V)) (k : K) (v : V) : Prop := ∃ s ∈ W, absMap s k = some v

theorem noneSeen_iff {W : Set (SkipHeap T K V)} {k : K} :
    HarrisHeap.NoneSeen (level0 '' W) k ↔ NoneSeen W k := Set.exists_mem_image

theorem NoneSeen.insert {W : Set (SkipHeap T K V)} {k : K} (h : NoneSeen W k)
    (s' : SkipHeap T K V) : NoneSeen (insert s' W) k :=
  let ⟨s, hs, he⟩ := h
  ⟨s, Set.mem_insert_of_mem _ hs, he⟩

theorem SomeSeen.insert {W : Set (SkipHeap T K V)} {k : K} {v : V} (h : SomeSeen W k v)
    (s' : SkipHeap T K V) : SomeSeen (insert s' W) k v :=
  let ⟨s, hs, he⟩ := h
  ⟨s, Set.mem_insert_of_mem _ hs, he⟩

theorem Pub.mono {W : Set (SkipHeap T K V)} {x : Ptr T} (h : Pub W x) (hW : W ⊆ S) : Pub S x :=
  Met.mono h (Set.image_mono hW)

theorem Pub.insert {x : Ptr T} (h : Pub S x) (s' : SkipHeap T K V) : Pub (insert s' S) x :=
  h.mono (Set.subset_insert _ _)

def Stand (W S : Set (SkipHeap T K V)) (s : SkipHeap T K V) (k : K) (i : ℕ) (x : Ptr T) : Prop :=
  Tall S s i x ∧ s.key x < k ∧ Pub W x

def Came (W S : Set (SkipHeap T K V)) (s : SkipHeap T K V) (k : K) (i : ℕ) (x : Ptr T) : Prop :=
  Tall S s i x ∧ (i = 0 → HarrisHeap.Walked (level0 '' W) s.level0 k x)

def Past (W S : Set (SkipHeap T K V)) (s : SkipHeap T K V) (k : K) (i : ℕ) (x : Ptr T) : Prop :=
  Tall S s i x ∧ x ≠ .tail ∧ (i = 0 → HarrisHeap.Passed (level0 '' W) s.level0 k x)

theorem Act.hindsight {W : Set (SkipHeap T K V)} (a : Act t S s s') (w : Wf levelmax S s)
    (hW : W ⊆ S) (h : Hind W s) : Hind (insert s' W) s' := by
  rw [Hind, image_insert]
  exact (a.base w).hindsight w.base (Set.image_mono hW) h

section step

variable {W : Set (SkipHeap T K V)} {k : K} {i : ℕ} {x : Ptr T} (hk : Keeps t S s s')

include hk

theorem key_step (hx : Pub S x) : s'.key x = s.key x := hk.base.key x hx

theorem val_step (hx : Pub S x) : s'.val x = s.val x := hk.base.val x hx

theorem marked_step (hx : Pub S x) (hm : s.Marked x i) : s'.Marked x i := by
  rw [Marked, hk.frozen x i hx hm]
  exact hm

theorem Tall.step (h : Tall S s i x) : Tall (insert s' S) s' i x :=
  ⟨h.1.insert s', by rw [hk.top x h.1]; exact h.2⟩

theorem Stand.step (h : Stand W S s k i x) : Stand (insert s' W) (insert s' S) s' k i x :=
  ⟨h.1.step hk, by rw [key_step hk h.1.1]; exact h.2.1, h.2.2.insert s'⟩

theorem Came.step (h : Came W S s k i x) : Came (insert s' W) (insert s' S) s' k i x := by
  refine ⟨h.1.step hk, fun hi => ?_⟩
  rw [image_insert]
  exact NodeView.Walked.step (h.2 hi) (key_step hk h.1.1)

theorem Past.step (h : Past W S s k i x) : Past (insert s' W) (insert s' S) s' k i x := by
  refine ⟨h.1.step hk, h.2.1, fun hi => ?_⟩
  rw [image_insert]
  exact NodeView.Passed.step (h.2.2 hi) (key_step hk h.1.1)

end step

section learn

variable {W : Set (SkipHeap T K V)} {k : K} {i : ℕ} {x : Ptr T} (w : Wf levelmax S s)

theorem Stand.down {j : ℕ} (h : Stand W S s k i x) (hj : j ≤ i) : Stand W S s k j x :=
  ⟨⟨h.1.1, hj.trans_lt h.1.2⟩, h.2⟩

include w

theorem stand_head (hs : s ∈ W) (hk : ⊥ < k) (hi : i < levelmax) : Stand W S s k i .head :=
  ⟨w.tall_head hi, lt_of_eq_of_lt w.base.head_key hk, s.level0, Set.mem_image_of_mem _ hs,
    linked_head⟩

theorem Stand.ne_tail (h : Stand W S s k i x) : x ≠ .tail := w.ne_tail_of_lt h.2.1

/-- A node that is not marked is linked now. -/
theorem Tall.pub_now (h : Tall S s i x) (hm : ¬ s.Marked x i) (hs : s ∈ W) : Pub W x :=
  ⟨s.level0, Set.mem_image_of_mem _ hs, w.lnk h hm⟩

/-- And if it is the key's node, the key is present now. -/
theorem Tall.someSeen (h : Tall S s i x) (hm : ¬ s.Marked x i) (hs : s ∈ W) (he : s.key x = k)
    (hb : ⊥ < k) (ht : k < ⊤) : SomeSeen W k (s.val x) := by
  refine ⟨s, hs, ?_⟩
  rw [← he]
  exact w.base.absMap_of_unmarked h.1 (w.not_marked_zero h hm)
    (w.ne_head_of_lt (k := ⊥) (by rw [he]; exact hb))
    (w.ne_tail_of_lt (k := ⊤) (by rw [he]; exact ht))

variable (hW : W ⊆ S) (hh : Hind W s)

include hW hh

theorem Past.next (h : Past W S s k i x) : Came W S s k i (s.next x i).ptr := by
  refine ⟨w.tower h.1 h.2.1, ?_⟩
  rintro rfl
  exact HarrisHeap.passed_next w.base (Set.image_mono hW) hh (h.2.2 rfl) h.2.1

theorem Stand.next (h : Stand W S s k i x) : Came W S s k i (s.next x i).ptr :=
  Past.next w hW hh ⟨h.1, h.ne_tail w, fun _ => ⟨h.2.2, Or.inl h.2.1⟩⟩

/-- Past a marked node. -/
theorem Came.marked (h : Came W S s k i x) (hm : s.Marked x i) : Past W S s k i x := by
  refine ⟨h.1, fun he => w.tail_mark i (he ▸ hm), ?_⟩
  rintro rfl
  exact HarrisHeap.walked_marked w.base (Set.image_mono hW) hh (h.2 rfl) hm

/-- A marked node of the window: its key was absent at some moment. -/
theorem noneSeen_of_marked (hx : Pub W x) (hm : s.Marked x 0) : NoneSeen W (s.key x) :=
  noneSeen_iff.mp (w.base.noneSeen_of_marked (Set.image_mono hW) hh hx hm)

omit w hW hh in
/-- At the end of level 0, on a node with a larger key. -/
theorem Came.noneSeen (h : Came W S s k 0 x) (hlt : k < s.key x) : NoneSeen W k :=
  noneSeen_iff.mp ((h.2 rfl).2.resolve_left (not_le.mpr hlt))

end learn

/-! ### Nodes of one thread -/

/-- A node that thread `t` has allocated and not linked yet, whose `next` words
are set at the levels below `m`. -/
structure Private (t : T) (S : Set (SkipHeap T K V)) (s : SkipHeap T K V) (k : K) (v : V)
    (toplevel : ℕ) (succs : ℕ → Ptr T) (m : ℕ) (x : Ptr T) : Prop where
  not_pub : ¬ Pub S x
  node : ∃ i, x = .node t i ∧ i < s.count t
  key : s.key x = k
  val : s.val x = v
  top : s.toplevel x = toplevel
  next : ∀ j < m, s.next x j = (succs j).ref

section own

variable {u : T} {k : K} {v : V} {toplevel m : ℕ} {succs : ℕ → Ptr T} {x : Ptr T}

theorem Private.step (h : Private u S s k v toplevel succs m x) (hu : u ≠ t) (hk : Keeps t S s s') :
    Private u (insert s' S) s' k v toplevel succs m x := by
  obtain ⟨i, rfl, hi⟩ := h.node
  have hm := hk.others u i hu h.not_pub
  refine ⟨?_, ⟨i, rfl, hi.trans_le (hk.base.others.2 u)⟩, ?_, ?_, ?_, fun j hj => ?_⟩
  · rw [Pub, image_insert]
    exact (hk.base.others.1 u i hu h.not_pub).2
  · rw [SkipHeap.key, hm]; exact h.key
  · rw [SkipHeap.val, hm]; exact h.val
  · rw [SkipHeap.toplevel, hm]; exact h.top
  · rw [SkipHeap.next, hm]; exact h.next j hj

variable (w : Wf levelmax S s)

include w

omit w in
/-- Above level 0 the map does not change. -/
theorem absMap_setNext_of_ne {p : Ptr T} {i : ℕ} (r : Ref T) (hi : i ≠ 0) :
    absMap (s.setNext p i r) = absMap s := by
  rw [absMap, level0_setNext_of_ne _ _ _ _ hi]
  rfl

theorem mem_allocate_of_pub (t : T) (k : K) (v : V) (toplevel : ℕ) (hx : Pub S x) :
    (s.allocateSlSimpleUnlinked t k v toplevel).1.mem x = s.mem x :=
  Memory.mem_allocate_of_ne s x _ t fun h => w.base.listed.not_pub_next t (h ▸ hx)

omit w in
theorem Private.mem_setNext (h : Private t S s k v toplevel succs m x) {y : Ptr T} (hy : Pub S y)
    (i : ℕ) (r : Ref T) : (s.setNext x i r).mem y = s.mem y :=
  mem_setNext_of_ne s x y i r fun he => h.not_pub (he ▸ hy)

/-- A thread allocates a node. -/
theorem allocate_act (t : T) (k : K) (v : V) (toplevel : ℕ) (succs : ℕ → Ptr T) :
    Act t S s (s.allocateSlSimpleUnlinked t k v toplevel).1 ∧
      absMap (s.allocateSlSimpleUnlinked t k v toplevel).1 = absMap s ∧
      Private t (insert (s.allocateSlSimpleUnlinked t k v toplevel).1 S)
        (s.allocateSlSimpleUnlinked t k v toplevel).1 k v toplevel succs 0
        (s.allocateSlSimpleUnlinked t k v toplevel).2 := by
  have hn : ¬ Pub S (.node t (s.count t)) := w.base.listed.not_pub_next t
  have hm : ∀ x, x ≠ .node t (s.count t) →
      (s.allocateSlSimpleUnlinked t k v toplevel).1.mem x = s.mem x := fun x hx =>
    Memory.mem_allocate_of_ne s x _ t hx
  have hc := Memory.count_le_allocate s ⟨k, v, toplevel, fun _ => Ptr.null.ref⟩ t
  have hp : ∀ x, Pub S x → (s.allocateSlSimpleUnlinked t k v toplevel).1.mem x = s.mem x :=
    fun x hx => mem_allocate_of_pub w t k v toplevel hx
  have hself : (s.allocateSlSimpleUnlinked t k v toplevel).1.mem (.node t (s.count t)) =
      ⟨k, v, toplevel, fun _ => Ptr.null.ref⟩ := Memory.mem_allocate_self s _ t
  refine ⟨.own hn (Memory.count_allocate_self s _ t) hm hc, ?_, ?_, ⟨_, rfl,
    Memory.count_allocate_self s _ t⟩, congrArg SlSimple.key hself, congrArg SlSimple.val hself,
    congrArg SlSimple.toplevel hself, nofun⟩
  · exact own_absMap w hp hc
  · rw [own_pub w hp hc]
    exact hn

/-- A thread sets the next `next` word of a node of its own. -/
theorem Private.fill (h : Private t S s k v toplevel succs m x) :
    Act t S s (s.setNext x m (succs m).ref) ∧ absMap (s.setNext x m (succs m).ref) = absMap s ∧
      Private t (insert (s.setNext x m (succs m).ref) S) (s.setNext x m (succs m).ref) k v toplevel
        succs (m + 1) x := by
  have hp : ∀ y, Pub S y → (s.setNext x m (succs m).ref).mem y = s.mem y :=
    fun y hy => h.mem_setNext hy m _
  obtain ⟨hn, ⟨i, rfl, hi⟩, h1, h2, h3, h4⟩ := h
  have hm : ∀ y, y ≠ .node t i → (s.setNext (.node t i) m (succs m).ref).mem y = s.mem y :=
    fun y hy => mem_setNext_of_ne s _ y m _ hy
  refine ⟨.own hn hi hm fun _ => le_rfl, ?_, ?_, ⟨i, rfl, hi⟩, by simpa using h1, by simpa using h2,
    by simpa using h3, fun j hj => ?_⟩
  · exact own_absMap w hp fun _ => le_rfl
  · rw [own_pub w hp fun _ => le_rfl]
    exact hn
  · rcases Nat.lt_succ_iff_lt_or_eq.mp hj with hj | rfl
    · rw [next_setNext_of_ne s _ _ m j _ (Or.inr hj.ne)]
      exact h4 j hj
    · exact next_setNext_self s _ j _

/-- A node linked at level 0 between its neighbours: the insert takes effect. -/
theorem Private.link [Zero V] (h : Private t S s k v toplevel succs toplevel x) {p : Ptr T}
    (h0 : 0 < toplevel) (hp : Tall S s 0 p) (hlt : s.key p < k)
    (hs : ∀ j < toplevel, Tall S s j (succs j) ∧ k ≤ s.key (succs j)) (hk : k < s.key (succs 0))
    (hc : s.next p 0 = (succs 0).ref) : Act t S s (s.setNext p 0 x.ref) ∧
      Pub (insert (s.setNext p 0 x.ref) S) x ∧ (mapObject K V).apply (.insert k v) (absMap s) =
        (absMap (s.setNext p 0 x.ref), .flag true) := by
  have hx : s.level0.mem x = ⟨k, v, (succs 0).ref⟩ := by
    have h1 := h.key
    have h2 := h.val
    have h3 := h.next 0 h0
    simp only [SkipHeap.key, SkipHeap.val, SkipHeap.next] at h1 h2 h3
    simp only [level0, h1, h2, h3]
  have hpriv : HarrisHeap.Private t (level0 '' S) s.level0 k v (succs 0) x :=
    ⟨h.not_pub, hx, h.node⟩
  obtain ⟨-, hap⟩ := HarrisHeap.private_link w.base hpriv ⟨hp.1, hlt⟩ hk hc
  obtain ⟨i, rfl, hi⟩ := h.node
  have hlt' : s.key p < s.key (.node t i) := by rw [h.key]; exact hlt
  refine ⟨.link hc hp.1 h.not_pub hi (h.next 0 h0) hlt' (by rw [h.key]; exact hk)
    (fun j hj => ?_) (by rw [h.top]; exact h0),
    (link_pub w hc hp.1 h.not_pub (h.next 0 h0) hlt' _).mpr (Or.inr rfl), ?_⟩
  · rw [h.top] at hj
    exact ⟨_, h.next j hj, (hs j hj).1, by rw [h.key]; exact (hs j hj).2⟩
  · rw [absMap, absMap, level0_setNext_zero]
    exact hap

/-- The key's node marked at level 0: the remove takes effect. -/
theorem Wf.mark_act [Zero V] {q : Ptr T} (hx : Pub S x) (hl : 0 < s.toplevel x) (he : s.key x = k)
    (hb : ⊥ < k) (ht : k < ⊤) (hm : ∀ j, 0 < j → j < s.toplevel x → s.Marked x j)
    (hc : s.next x 0 = q.ref) : Act t S s (s.setNext x 0 (setMark q.ref)) ∧
      (mapObject K V).apply (.remove k) (absMap s) =
        (absMap (s.setNext x 0 (setMark q.ref)), .val (s.val x)) := by
  obtain ⟨-, hap⟩ := w.base.mark_act (t := t) (q := q) hx he hb ht hc
  refine ⟨.mark hc ⟨hx, hl⟩ (w.ne_head_of_lt (k := ⊥) (by rw [he]; exact hb))
    (w.ne_tail_of_lt (k := ⊤) (by rw [he]; exact ht)) hm, ?_⟩
  rw [absMap, absMap, level0_setNext_zero]
  exact hap

end own

/-! ### The empty skip list -/

theorem Wf.initial [Nontrivial K] [Zero V] (levelmax : ℕ) :
    Wf levelmax {(empty levelmax : SkipHeap T K V)} (empty levelmax) := by
  have h0 : (empty levelmax : SkipHeap T K V).level0 = Heap.empty := by
    have hm : (empty levelmax : SkipHeap T K V).level0.mem = (Heap.empty : Heap T K V).mem := by
      funext x
      cases x <;> rfl
    exact congrArg (fun m => (⟨m, fun _ => 0, []⟩ : Heap T K V)) hm
  have hpub : ∀ x, Pub {(empty levelmax : SkipHeap T K V)} x ↔ x = .head ∨ x = .tail := fun x => by
    rw [Pub, Set.image_singleton, h0]
    exact NodeView.pub_empty (D := HarrisHeap.view T K V) rfl x
  refine ⟨rfl, by rw [Set.image_singleton, h0]; exact HarrisHeap.Wf.initial, rfl, rfl, fun _ => nofun,
    fun _ => rfl, fun {x i} hx hxt => ?_, fun {x i j} hx hi _ _ => ?_, fun _ => 0, fun {x i} hx hxt => ?_⟩
  · rcases (hpub x).mp hx.1 with rfl | rfl
    · exact ⟨(hpub _).mpr (Or.inr rfl), hx.2⟩
    · exact absurd rfl hxt
  · rcases (hpub x).mp hx with rfl | rfl <;> exact absurd hi nofun
  · rcases (hpub x).mp hx.1 with rfl | rfl
    · exact Or.inl (bot_lt_top : (⊥ : K) < ⊤)
    · exact absurd rfl hxt

theorem empty_absMap [Nontrivial K] [Zero V] (levelmax : ℕ) :
    absMap (empty levelmax : SkipHeap T K V) = fun _ => none :=
  NodeView.absMap_empty rfl

end SkipHeap

end Ascylib
