/-
# Sorted lists of marked and locked nodes

`src/aux/ll_marked.h`: a node has a key, a value, a `next` pointer, a mark and
a lock. A lock is a mutex that knows its holder.

`Act` lists the writes of a thread: a pointer changes only under the lock of
an unmarked node, and a mark under the lock of its node. So the unmarked nodes
that have been linked are linked still (`Wf.lnk`), and a marked node is left
alone once it is unlinked (`Act.hindsight`).
-/
import Ascylib.ListHeap

set_option linter.unusedSectionVars false

namespace Ascylib

open Concur Chain

structure LlMarked (T K V : Type*) where
  key : K
  val : V
  next : Ptr T
  marked : Bool
  lock : Option T

abbrev MarkedHeap (T K V : Type*) := Memory T (LlMarked T K V)

namespace MarkedHeap

variable {T K V : Type*} [DecidableEq T]

def key (s : MarkedHeap T K V) (x : Ptr T) : K := (s.mem x).key
def val (s : MarkedHeap T K V) (x : Ptr T) : V := (s.mem x).val
def next (s : MarkedHeap T K V) (x : Ptr T) : Ptr T := (s.mem x).next
def marked (s : MarkedHeap T K V) (x : Ptr T) : Bool := (s.mem x).marked
def lock (s : MarkedHeap T K V) (x : Ptr T) : Option T := (s.mem x).lock

/-- `x->next = q`. -/
def setNext (s : MarkedHeap T K V) (x q : Ptr T) : MarkedHeap T K V :=
  s.modify x fun n => { n with next := q }

/-- `x->marked = 1`. -/
def setMarked (s : MarkedHeap T K V) (x : Ptr T) : MarkedHeap T K V :=
  s.modify x fun n => { n with marked := true }

/-- `LOCK(x)` by thread `t`, which waits while the lock is taken. -/
def acquire (s : MarkedHeap T K V) (t : T) (x : Ptr T) : Option (MarkedHeap T K V) :=
  if s.lock x = none then some (s.modify x fun n => { n with lock := some t }) else none

/-- `UNLOCK(x)`. -/
def release (s : MarkedHeap T K V) (x : Ptr T) : MarkedHeap T K V :=
  s.modify x fun n => { n with lock := none }

/-- `allocate_ll_marked(key, value, next)` by thread `t`: the memory, and the
address. -/
def allocateLlMarked (s : MarkedHeap T K V) (t : T) (key : K) (value : V) (next : Ptr T) :
    MarkedHeap T K V × Ptr T :=
  s.allocate t ⟨key, value, next, false, none⟩

/-- The list constructor: the two sentinels, linked. -/
def empty [Bot K] [Top K] [Zero V] : MarkedHeap T K V where
  mem
    | .head => ⟨⊥, 0, .tail, false, none⟩
    | .tail => ⟨⊤, 0, .null, false, none⟩
    | _ => ⟨⊥, 0, .null, false, none⟩
  count := fun _ => 0
  freed := []

theorem acquire_eq_some {s s' : MarkedHeap T K V} {t : T} {x : Ptr T}
    (h : s.acquire t x = some s') :
    s.lock x = none ∧ s' = s.modify x fun n => { n with lock := some t } := by
  unfold acquire at h
  split at h
  · cases h; exact ⟨‹_›, rfl⟩
  · cases h

section

variable (s : MarkedHeap T K V) (x y q : Ptr T)

theorem mem_setNext_of_ne (h : y ≠ x) : (s.setNext x q).mem y = s.mem y := s.mem_modify_of_ne x y _ h

@[simp] theorem key_setNext : (s.setNext x q).key y = s.key y :=
  s.field_modify x y LlMarked.key fun _ => rfl

@[simp] theorem val_setNext : (s.setNext x q).val y = s.val y :=
  s.field_modify x y LlMarked.val fun _ => rfl

@[simp] theorem marked_setNext : (s.setNext x q).marked y = s.marked y :=
  s.field_modify x y LlMarked.marked fun _ => rfl

@[simp] theorem lock_setNext : (s.setNext x q).lock y = s.lock y :=
  s.field_modify x y LlMarked.lock fun _ => rfl

@[simp] theorem next_setNext_self : (s.setNext x q).next x = q := by simp [setNext, next]

theorem next_setNext_of_ne (h : y ≠ x) : (s.setNext x q).next y = s.next y :=
  congrArg LlMarked.next (mem_setNext_of_ne s x y q h)

@[simp] theorem key_setMarked : (s.setMarked x).key y = s.key y :=
  s.field_modify x y LlMarked.key fun _ => rfl

@[simp] theorem val_setMarked : (s.setMarked x).val y = s.val y :=
  s.field_modify x y LlMarked.val fun _ => rfl

@[simp] theorem next_setMarked : (s.setMarked x).next y = s.next y :=
  s.field_modify x y LlMarked.next fun _ => rfl

@[simp] theorem lock_setMarked : (s.setMarked x).lock y = s.lock y :=
  s.field_modify x y LlMarked.lock fun _ => rfl

@[simp] theorem marked_setMarked_self : (s.setMarked x).marked x = true := by
  simp [setMarked, marked]

theorem marked_setMarked_of_ne (h : y ≠ x) : (s.setMarked x).marked y = s.marked y :=
  congrArg LlMarked.marked (s.mem_modify_of_ne x y _ h)

end

end MarkedHeap

namespace MarkedList

variable {T K V : Type*} [DecidableEq T]

/-- The list of `ll_marked` nodes. -/
abbrev view (T K V : Type*) : NodeView (LlMarked T K V) T K V where
  key := LlMarked.key
  val := LlMarked.val
  next := LlMarked.next
  dead n := n.marked = true

/-- The node is linked from the head. -/
abbrev Lnk (s : MarkedHeap T K V) (x : Ptr T) : Prop := (view T K V).Lnk s x

/-- The node has been linked. -/
abbrev Pub (S : Set (MarkedHeap T K V)) (x : Ptr T) : Prop := Met Lnk S x

/-- The map the list stands for. -/
noncomputable abbrev absMap (s : MarkedHeap T K V) : K → Option V := (view T K V).absMap s

/-- Nodes that were met and are unlinked show what they showed. -/
abbrev Hind (W : Set (MarkedHeap T K V)) (s : MarkedHeap T K V) : Prop := (view T K V).HindDead W s

variable [LinearOrder K]

/-- A new node with key `k` and value `v`, in front of `q`. -/
abbrev Private (t : T) (S : Set (MarkedHeap T K V)) (s : MarkedHeap T K V) (k : K) (v : V)
    (q n : Ptr T) : Prop :=
  (view T K V).Private t S s ⟨k, v, q, false, none⟩ n

/-- A well-formed list, in a run that went through the memories `S`. -/
structure Wf [BoundedOrder K] (S : Set (MarkedHeap T K V)) (s : MarkedHeap T K V) : Prop where
  listed : (view T K V).Listed S s
  lnk : ∀ x, Pub S x → s.marked x = false → Lnk s x
  tail_next : s.next .tail = .null

/-- The writes of thread `t`. The nodes it has marked and not yet unlinked are
`M` before and `M'` after. -/
inductive Act (t : T) (S : Set (MarkedHeap T K V)) (s : MarkedHeap T K V) (M M' : Set (Ptr T)) :
    MarkedHeap T K V → Prop
  | skip : M' = M → Act t S s M M' s
  | free (x : Ptr T) : M' = M → Act t S s M M' (s.ssmemFree x)
  | alloc (k : K) (v : V) (q : Ptr T) : M' = M → Act t S s M M' (s.allocateLlMarked t k v q).1
  | lock {x : Ptr T} {o : Option T} : Pub S x → s.lock x = none ∨ s.lock x = some t → M' = M →
      Act t S s M M' (s.modify x fun n => { n with lock := o })
  | link {p n : Ptr T} {k : K} {v : V} : s.lock p = some t → Lnk s p → s.marked p = false →
      Private t S s k v (s.next p) n → s.key p < k → k < s.key (s.next p) → M' = M →
      Act t S s M M' (s.setNext p n)
  | mark {c : Ptr T} : s.lock c = some t → Lnk s c → s.marked c = false → c ≠ .head → c ≠ .tail →
      M' = insert c M → Act t S s M M' (s.setMarked c)
  | unlink {p c : Ptr T} : s.lock p = some t → s.lock c = some t → Lnk s p → s.marked p = false →
      s.next p = c → s.marked c = true → p ≠ .tail → c ≠ .tail → M' = M \ {c} →
      Act t S s M M' (s.setNext p (s.next c))

/-- What a step of thread `t` leaves alone. -/
structure Keeps (t : T) (S : Set (MarkedHeap T K V)) (s s' : MarkedHeap T K V) : Prop where
  key : ∀ x, Pub S x → s'.key x = s.key x
  val : ∀ x, Pub S x → s'.val x = s.val x
  locked : ∀ u, u ≠ t → ∀ x, Pub S x → s.lock x = some u → s'.mem x = s.mem x ∧ (Lnk s x → Lnk s' x)
  others : (view T K V).Others t S s s'

variable [BoundedOrder K] {t : T} {S W : Set (MarkedHeap T K V)} {s s' : MarkedHeap T K V}
  {M M' : Set (Ptr T)}

/-! ### The writes -/

theorem setNext_swing (s : MarkedHeap T K V) (p q : Ptr T) :
    (view T K V).Swing s (s.setNext p q) p q where
  other x hx := MarkedHeap.mem_setNext_of_ne s p x q hx
  key := MarkedHeap.key_setNext s p p q
  val := MarkedHeap.val_setNext s p p q
  dead := by
    show (s.setNext p q).marked p = true ↔ s.marked p = true
    rw [MarkedHeap.marked_setNext]
  next := MarkedHeap.next_setNext_self s p q
  count := rfl

/-- A write to a node that leaves key, value and pointer alone. -/
theorem modify_same (S : Set (MarkedHeap T K V)) (s : MarkedHeap T K V) (x : Ptr T)
    {f : LlMarked T K V → LlMarked T K V} (hk : ∀ n, (f n).key = n.key) (hv : ∀ n, (f n).val = n.val)
    (hn : ∀ n, (f n).next = n.next) : (view T K V).Same S s (s.modify x f) :=
  ⟨fun y _ => s.field_modify x y LlMarked.key hk, fun y _ => s.field_modify x y LlMarked.val hv,
    fun y _ _ => s.field_modify x y LlMarked.next hn, fun _ => le_rfl⟩

theorem lock_same (S : Set (MarkedHeap T K V)) (s : MarkedHeap T K V) (x : Ptr T) (o : Option T) :
    (view T K V).Same S s (s.modify x fun n => { n with lock := o }) :=
  modify_same S s x (fun _ => rfl) (fun _ => rfl) fun _ => rfl

theorem mark_same (S : Set (MarkedHeap T K V)) (s : MarkedHeap T K V) (c : Ptr T) :
    (view T K V).Same S s (s.setMarked c) :=
  modify_same S s c (fun _ => rfl) (fun _ => rfl) fun _ => rfl

theorem lock_marked (s : MarkedHeap T K V) (x y : Ptr T) (o : Option T) :
    MarkedHeap.marked (s.modify x fun n => { n with lock := o }) y = s.marked y :=
  s.field_modify x y LlMarked.marked fun _ => rfl

theorem lock_absMap (w : Wf S s) (x : Ptr T) (o : Option T) :
    absMap (s.modify x fun n => { n with lock := o }) = absMap s :=
  (lock_same S s x o).absMap w.listed fun y _ => iff_of_eq (congrArg (· = true) (lock_marked s x y o))

section link

variable {p n : Ptr T} {k : K} {v : V} (w : Wf S s) (hp : Lnk s p)
  (hn : Private t S s k v (s.next p) n) (h1 : s.key p < k) (h2 : k < s.key (s.next p))

include w hp hn h1 h2

theorem link_lnk (x : Ptr T) : Lnk (s.setNext p n) x ↔ Lnk s x ∨ x = n :=
  (setNext_swing s p n).link_lnk w.listed hp (w.listed.ne_tail_of_lt h1) hn.1
    (by rw [hn.2.1]; rfl) x

theorem link_pub (x : Ptr T) : Pub (insert (s.setNext p n) S) x ↔ Pub S x ∨ x = n :=
  (setNext_swing s p n).link_pub w.listed hp (w.listed.ne_tail_of_lt h1) hn.1
    (by rw [hn.2.1]; rfl) x

theorem link_listed : (view T K V).Listed (insert (s.setNext p n) S) (s.setNext p n) := by
  obtain ⟨hn1, hn2, i, hi, hc⟩ := hn
  exact (setNext_swing s p n).link_listed w.listed hp (w.listed.ne_tail_of_lt h1) hn1
    (by rw [hn2]; rfl) (by rw [hn2]; exact h1) (by rw [hn2]; exact h2) ⟨t, i, hi, hc⟩

/-- Linking a node adds its key to the map. -/
theorem link_absMap : absMap s k = none ∧
    absMap (s.setNext p n) = Function.update (absMap s) k (some v) := by
  obtain ⟨hn1, hn2, i, hi, -⟩ := hn
  have := (setNext_swing s p n).link_absMap w.listed hp (w.listed.ne_tail_of_lt h1) hn1
    (by rw [hn2]; rfl) (by rw [hn2]; exact h1) (by rw [hn2]; exact h2) (by rw [hn2]; nofun)
    (by rw [hi]; exact ⟨nofun, nofun⟩)
  rwa [hn2] at this

end link

/-- Marking a node removes its key from the map. -/
theorem mark_absMap {c : Ptr T} (w : Wf S s) (hc : Lnk s c) (hm : s.marked c = false)
    (hch : c ≠ .head) (hct : c ≠ .tail) : absMap s (s.key c) = some (s.val c) ∧
      absMap (s.setMarked c) = Function.update (absMap s) (s.key c) none := by
  have hl : (view T K V).Live s c := ⟨hc, fun h => Bool.noConfusion (hm.symm.trans h), hch, hct⟩
  refine ⟨w.listed.absMap_past w.listed.mem hl, (mark_same S s c).kill w.listed hl
    (MarkedHeap.marked_setMarked_self s c) fun x _ hx => ?_⟩
  exact iff_of_eq (congrArg (· = true) (MarkedHeap.marked_setMarked_of_ne s c x hx))

section unlink

variable {p c : Ptr T} (w : Wf S s) (hp : Lnk s p) (hpc : s.next p = c) (hpt : p ≠ .tail)
  (hct : c ≠ .tail)

include w hp hpc hpt hct

theorem unlink_lnk (x : Ptr T) : Lnk (s.setNext p (s.next c)) x ↔ Lnk s x ∧ x ≠ c :=
  (setNext_swing s p (s.next c)).unlink_lnk w.listed hp hpt hpc hct x

theorem unlink_pub (x : Ptr T) : Pub (insert (s.setNext p (s.next c)) S) x ↔ Pub S x :=
  (setNext_swing s p (s.next c)).unlink_pub w.listed hp hpt hpc hct x

theorem unlink_ne : p ≠ c := by
  obtain ⟨-, -, h, -⟩ := NodeView.Swing.unlink_chain w.listed hp hpt hpc hct
  rintro rfl
  exact lt_irrefl _ h

/-- Unlinking a marked node does not change the map. -/
theorem unlink_absMap (hm : s.marked c = true) : absMap (s.setNext p (s.next c)) = absMap s :=
  (setNext_swing s p (s.next c)).unlink_dead_absMap w.listed hp hpt hpc hct hm

end unlink

namespace Act

variable (w : Wf S s) (h : Act t S s M M' s')

include w h

theorem count (u : T) : s.count u ≤ s'.count u := by
  cases h
  case alloc k v q => exact s.count_le_allocate _ t u
  all_goals exact le_rfl

theorem listed : (view T K V).Listed (insert s' S) s' := by
  cases h with
  | skip => rw [Set.insert_eq_of_mem w.listed.mem]; exact w.listed
  | free x => exact (NodeView.same_free S s x).listed w.listed
  | alloc => exact (w.listed.allocate t _).1.listed w.listed
  | lock => exact (lock_same S s _ _).listed w.listed
  | link _ hp _ hn h1 h2 => exact link_listed w hp hn h1 h2
  | mark => exact (mark_same S s _).listed w.listed
  | unlink _ _ hp _ hpc _ hpt hct =>
    exact (setNext_swing s _ _).unlink_listed w.listed hp hpt hpc hct

/-- Which nodes are linked after it. -/
theorem lnk (x : Ptr T) : (Lnk s' x → Lnk s x ∨ ¬ Pub S x ∧ s'.marked x = false) ∧
    (Lnk s x → Lnk s' x ∨ s.lock x = some t ∧ s'.marked x = true) := by
  cases h with
  | skip => exact ⟨Or.inl, Or.inl⟩
  | free => exact ⟨Or.inl, Or.inl⟩
  | alloc k v q =>
    have := (w.listed.allocate t ⟨k, v, q, false, none⟩).1.lnk w.listed x
    exact ⟨fun h => Or.inl (this.mp h), fun h => Or.inl (this.mpr h)⟩
  | @lock y o =>
    have := (lock_same S s y o).lnk w.listed x
    exact ⟨fun h => Or.inl (this.mp h), fun h => Or.inl (this.mpr h)⟩
  | @mark c =>
    have := (mark_same S s c).lnk w.listed x
    exact ⟨fun h => Or.inl (this.mp h), fun h => Or.inl (this.mpr h)⟩
  | link _ hp _ hn h1 h2 =>
    rw [link_lnk w hp hn h1 h2]
    refine ⟨fun h => h.imp_right ?_, fun h => Or.inl (Or.inl h)⟩
    rintro rfl
    refine ⟨hn.1, ?_⟩
    rw [MarkedHeap.marked_setNext, MarkedHeap.marked, hn.2.1]
  | @unlink p c _ hlk hp _ hpc hm hpt hct =>
    rw [unlink_lnk w hp hpc hpt hct]
    refine ⟨fun h => Or.inl h.1, fun h => ?_⟩
    by_cases hx : x = c
    · subst hx
      exact Or.inr ⟨hlk, by rw [MarkedHeap.marked_setNext]; exact hm⟩
    · exact Or.inl ⟨h, hx⟩

theorem pub (x : Ptr T) (hx : Pub (insert s' S) x) : Pub S x ∨ Lnk s' x ∧ ∃ i, x = .node t i := by
  cases h with
  | skip => rw [Set.insert_eq_of_mem w.listed.mem] at hx; exact Or.inl hx
  | free y => exact Or.inl (((NodeView.same_free S s y).pub w.listed x).mp hx)
  | alloc k v q =>
    exact Or.inl (((w.listed.allocate t ⟨k, v, q, false, none⟩).1.pub w.listed x).mp hx)
  | lock => exact Or.inl (((lock_same S s _ _).pub w.listed x).mp hx)
  | mark => exact Or.inl (((mark_same S s _).pub w.listed x).mp hx)
  | link _ hp _ hn h1 h2 =>
    refine ((link_pub w hp hn h1 h2 x).mp hx).imp_right ?_
    rintro rfl
    obtain ⟨-, -, i, rfl, -⟩ := id hn
    exact ⟨(link_lnk w hp hn h1 h2 _).mpr (Or.inr rfl), i, rfl⟩
  | unlink _ _ hp _ hpc _ hpt hct => exact Or.inl ((unlink_pub w hp hpc hpt hct x).mp hx)

/-- What it does to one node. -/
theorem node (x : Ptr T) (ha : x ≠ .node t (s.count t)) : s'.key x = s.key x ∧ s'.val x = s.val x ∧
    (s.marked x = true → s'.marked x = true) ∧
    (s'.mem x = s.mem x ∨ Pub S x ∧ (s.lock x = none ∨ s.lock x = some t)) := by
  cases h with
  | skip => exact ⟨rfl, rfl, id, Or.inl rfl⟩
  | free => exact ⟨rfl, rfl, id, Or.inl rfl⟩
  | alloc k v q =>
    have hm := s.mem_allocate_of_ne x ⟨k, v, q, false, none⟩ t ha
    exact ⟨congrArg LlMarked.key hm, congrArg LlMarked.val hm,
      fun h => (congrArg LlMarked.marked hm).trans h, Or.inl hm⟩
  | @lock y o hy hl =>
    refine ⟨s.field_modify y x LlMarked.key fun _ => rfl, s.field_modify y x LlMarked.val fun _ => rfl,
      (lock_marked s y x o).trans, ?_⟩
    by_cases hx : x = y
    · subst hx; exact Or.inr ⟨hy, hl⟩
    · exact Or.inl (s.mem_modify_of_ne y x _ hx)
  | @link p n _ _ hl hp =>
    refine ⟨s.key_setNext p x n, s.val_setNext p x n, (s.marked_setNext p x n).trans, ?_⟩
    by_cases hx : x = p
    · subst hx; exact Or.inr ⟨w.listed.pub_lnk hp, Or.inr hl⟩
    · exact Or.inl (s.mem_setNext_of_ne p x n hx)
  | @mark c hl hc =>
    refine ⟨s.key_setMarked c x, s.val_setMarked c x, fun hm => ?_, ?_⟩ <;> by_cases hx : x = c
    · subst hx; exact s.marked_setMarked_self x
    · exact (s.marked_setMarked_of_ne c x hx).trans hm
    · subst hx; exact Or.inr ⟨w.listed.pub_lnk hc, Or.inr hl⟩
    · exact Or.inl (s.mem_modify_of_ne c x _ hx)
  | @unlink p c hl _ hp =>
    refine ⟨s.key_setNext p x _, s.val_setNext p x _, (s.marked_setNext p x _).trans, ?_⟩
    by_cases hx : x = p
    · subst hx; exact Or.inr ⟨w.listed.pub_lnk hp, Or.inr hl⟩
    · exact Or.inl (s.mem_setNext_of_ne p x _ hx)

/-- A published node that is not linked after it keeps its successor and its
mark. -/
theorem unlinked (x : Ptr T) (hx : Pub S x) (hl : ¬ Lnk s' x) :
    s'.next x = s.next x ∧ s'.marked x = s.marked x := by
  cases h with
  | skip => exact ⟨rfl, rfl⟩
  | free => exact ⟨rfl, rfl⟩
  | alloc k v q =>
    have hm := (w.listed.allocate t ⟨k, v, q, false, none⟩).2.1 x hx
    exact ⟨congrArg LlMarked.next hm, congrArg LlMarked.marked hm⟩
  | @lock y o => exact ⟨s.field_modify y x LlMarked.next fun _ => rfl, lock_marked s y x o⟩
  | @link p n _ _ _ hp _ hn h1 h2 =>
    refine ⟨s.next_setNext_of_ne p x n fun he => hl ?_, s.marked_setNext p x n⟩
    rw [link_lnk w hp hn h1 h2, he]
    exact Or.inl hp
  | @mark c _ hc =>
    refine ⟨s.next_setMarked c x, s.marked_setMarked_of_ne c x fun he => hl ?_⟩
    exact he ▸ ((mark_same S s c).lnk w.listed c).mpr hc
  | @unlink p c _ _ hp _ hpc _ hpt hct =>
    refine ⟨s.next_setNext_of_ne p x _ fun he => hl ?_, s.marked_setNext p x _⟩
    rw [unlink_lnk w hp hpc hpt hct, he]
    exact ⟨hp, unlink_ne w hp hpc hpt hct⟩

theorem tail_next : s'.next .tail = .null := by
  rw [← w.tail_next]
  cases h with
  | skip => rfl
  | free => rfl
  | alloc k v q => exact congrArg LlMarked.next (s.mem_allocate_of_ne .tail _ t nofun)
  | @lock y o => exact s.field_modify y _ LlMarked.next fun _ => rfl
  | link _ _ _ _ h1 => exact s.next_setNext_of_ne _ _ _ (Ne.symm (w.listed.ne_tail_of_lt h1))
  | mark => exact s.next_setMarked _ _
  | unlink _ _ _ _ _ _ hpt => exact s.next_setNext_of_ne _ _ _ (Ne.symm hpt)

theorem wf : Wf (insert s' S) s' where
  listed := h.listed w
  tail_next := h.tail_next w
  lnk x hx hm := by
    rcases h.pub w x hx with hx | hx
    · have hs : s.marked x = false := by
        by_contra hc
        have := (h.node w x fun he => w.listed.not_pub_next t (he ▸ hx)).2.2.1 (by simpa using hc)
        rw [hm] at this
        cases this
      refine ((h.lnk w x).2 (w.lnk x hx hs)).resolve_right fun h => ?_
      rw [hm] at h
      cases h.2
    · exact hx.1

theorem keeps : Keeps t S s s' where
  key x hx := (h.node w x fun he => w.listed.not_pub_next t (he ▸ hx)).1
  val x hx := (h.node w x fun he => w.listed.not_pub_next t (he ▸ hx)).2.1
  locked u hu x hx hl := by
    refine ⟨?_, fun hlk => ((h.lnk w x).2 hlk).resolve_right fun h => ?_⟩
    · refine (h.node w x fun he => w.listed.not_pub_next t (he ▸ hx)).2.2.2.resolve_right ?_
      rintro ⟨-, h | h⟩ <;> rw [hl] at h <;> cases h
      exact hu rfl
    · rw [hl] at h
      exact hu (Option.some.inj h.1)
  others := by
    refine ⟨fun u i hu hp => ⟨?_, fun hp' => ?_⟩, h.count w⟩
    · refine (h.node w _ ?_).2.2.2.resolve_right fun h => hp h.1
      rintro ⟨⟩; exact hu rfl
    · rcases h.pub w _ hp' with h1 | ⟨-, j, h1⟩
      · exact hp h1
      · cases h1; exact hu rfl

theorem hindsight (hW : W ⊆ S) (hh : Hind W s) : Hind (insert s' W) s' :=
  hh.step fun x hx hl => by
    obtain ⟨h1, h2⟩ := h.unlinked w x (hx.mono hW) hl
    exact Prod.ext h1 (congrArg (· = true) h2)

/-- A linked marked node is one that this thread, or another one, has marked
and not yet unlinked. -/
theorem removing (x : Ptr T) (hx : Lnk s' x) (hm : s'.marked x = true) :
    x ∈ M' ∨ x ∉ M ∧ Lnk s x ∧ s.marked x = true := by
  have hx' : Lnk s x := ((h.lnk w x).1 hx).resolve_right fun h => by rw [h.2] at hm; cases hm
  have hsame : M' = M → s'.marked x = s.marked x → x ∈ M' ∨ x ∉ M ∧ Lnk s x ∧ s.marked x = true := by
    intro he hmk
    rw [he, ← hmk]
    exact (em _).imp_right fun h => ⟨h, hx', hm⟩
  cases h with
  | skip he => exact hsame he rfl
  | free _ he => exact hsame he rfl
  | alloc k v q he =>
    exact hsame he (congrArg LlMarked.marked ((w.listed.allocate t _).2.1 x (w.listed.pub_lnk hx')))
  | @lock y o _ _ he => exact hsame he (lock_marked s y x o)
  | link _ _ _ _ _ _ he => exact hsame he (s.marked_setNext _ x _)
  | @mark c _ _ _ _ _ he =>
    by_cases hc : x = c
    · exact Or.inl (by simp [he, hc])
    · rw [s.marked_setMarked_of_ne c x hc] at hm
      exact (em (x ∈ M)).imp (fun h => by simp [he, h]) fun h => ⟨h, hx', hm⟩
  | unlink _ _ hp _ hpc _ hpt hct he =>
    have hxc := ((unlink_lnk w hp hpc hpt hct x).mp hx).2
    rw [MarkedHeap.marked_setNext] at hm
    exact (em (x ∈ M)).imp (fun h => by simp [he, h, hxc]) fun h => ⟨h, hx', hm⟩

end Act

/-! ### The empty list -/

theorem Wf.initial [Nontrivial K] [Zero V] : Wf {(MarkedHeap.empty : MarkedHeap T K V)} MarkedHeap.empty where
  listed := NodeView.Listed.initial rfl rfl rfl
  tail_next := rfl
  lnk x hx _ := by
    obtain ⟨s, rfl, hx⟩ := hx
    exact hx

theorem empty_absMap [Zero V] : absMap (MarkedHeap.empty : MarkedHeap T K V) = fun _ => none :=
  NodeView.absMap_empty rfl

end MarkedList

end Ascylib
