/-
# Sorted lists of locked nodes

`src/aux/ll_locked.h`: a node has a key, a value, a `next` pointer and a lock.
Nodes have no mark. The pointer of a removed node is turned back to a node
with a smaller key before its lock is given up, and that is how a thread that
gets the lock later finds out (`Sound`).

A traversal may so be sent back, to a node that is linked (`Hind`).
-/
import Ascylib.ListHeap

set_option linter.unusedSectionVars false

namespace Ascylib

open Concur Chain

structure LlLocked (T K V : Type*) where
  key : K
  val : V
  next : Ptr T
  lock : Option T

abbrev LockedHeap (T K V : Type*) := Memory T (LlLocked T K V)

namespace LockedHeap

variable {T K V : Type*} [DecidableEq T]

def key (s : LockedHeap T K V) (x : Ptr T) : K := (s.mem x).key
def val (s : LockedHeap T K V) (x : Ptr T) : V := (s.mem x).val
def next (s : LockedHeap T K V) (x : Ptr T) : Ptr T := (s.mem x).next
def lock (s : LockedHeap T K V) (x : Ptr T) : Option T := (s.mem x).lock

/-- `x->next = q`. -/
def setNext (s : LockedHeap T K V) (x q : Ptr T) : LockedHeap T K V :=
  s.modify x fun n => { n with next := q }

/-- `LOCK(x)` by thread `t`, which waits while the lock is taken. -/
def acquire (s : LockedHeap T K V) (t : T) (x : Ptr T) : Option (LockedHeap T K V) :=
  if s.lock x = none then some (s.modify x fun n => { n with lock := some t }) else none

/-- `UNLOCK(x)`. -/
def release (s : LockedHeap T K V) (x : Ptr T) : LockedHeap T K V :=
  s.modify x fun n => { n with lock := none }

/-- `allocate_ll_locked(key, value, next)` by thread `t`: the memory, and the
address. -/
def allocateLlLocked (s : LockedHeap T K V) (t : T) (key : K) (value : V) (next : Ptr T) :
    LockedHeap T K V × Ptr T :=
  s.allocate t ⟨key, value, next, none⟩

/-- The list constructor: the two sentinels, linked. -/
def empty [Bot K] [Top K] [Zero V] : LockedHeap T K V where
  mem
    | .head => ⟨⊥, 0, .tail, none⟩
    | .tail => ⟨⊤, 0, .null, none⟩
    | _ => ⟨⊥, 0, .null, none⟩
  count := fun _ => 0
  freed := []

theorem acquire_eq_some {s s' : LockedHeap T K V} {t : T} {x : Ptr T}
    (h : s.acquire t x = some s') :
    s.lock x = none ∧ s' = s.modify x fun n => { n with lock := some t } := by
  unfold acquire at h
  split at h
  · cases h; exact ⟨‹_›, rfl⟩
  · cases h

section

variable (s : LockedHeap T K V) (x y q : Ptr T) (o : Option T)

theorem mem_setNext_of_ne (h : y ≠ x) : (s.setNext x q).mem y = s.mem y := s.mem_modify_of_ne x y _ h

@[simp] theorem key_setNext : (s.setNext x q).key y = s.key y :=
  s.field_modify x y LlLocked.key fun _ => rfl

@[simp] theorem val_setNext : (s.setNext x q).val y = s.val y :=
  s.field_modify x y LlLocked.val fun _ => rfl

@[simp] theorem lock_setNext : (s.setNext x q).lock y = s.lock y :=
  s.field_modify x y LlLocked.lock fun _ => rfl

@[simp] theorem next_setNext_self : (s.setNext x q).next x = q := by simp [setNext, next]

theorem next_setNext_of_ne (h : y ≠ x) : (s.setNext x q).next y = s.next y :=
  congrArg LlLocked.next (mem_setNext_of_ne s x y q h)

end

end LockedHeap

namespace LockedList

variable {T K V : Type*} [DecidableEq T]

/-- The list of `ll_locked` nodes; no linked node is dead. -/
abbrev view (T K V : Type*) : NodeView (LlLocked T K V) T K V where
  key := LlLocked.key
  val := LlLocked.val
  next := LlLocked.next
  dead _ := False

/-- The node is linked from the head. -/
abbrev Lnk (s : LockedHeap T K V) (x : Ptr T) : Prop := (view T K V).Lnk s x

/-- The node has been linked. -/
abbrev Pub (S : Set (LockedHeap T K V)) (x : Ptr T) : Prop := Met Lnk S x

/-- The map the list stands for. -/
noncomputable abbrev absMap (s : LockedHeap T K V) : K → Option V := (view T K V).absMap s

variable [LinearOrder K]

/-- A new node with key `k` and value `v`, in front of `q`. -/
abbrev Private (t : T) (S : Set (LockedHeap T K V)) (s : LockedHeap T K V) (k : K) (v : V)
    (q n : Ptr T) : Prop :=
  (view T K V).Private t S s ⟨k, v, q, none⟩ n

/-- The node is linked, or its pointer has been turned back. -/
def Sound (S : Set (LockedHeap T K V)) (s : LockedHeap T K V) (x : Ptr T) : Prop :=
  Lnk s x ∨ Pub S (s.next x) ∧ s.key (s.next x) < s.key x

/-- A well-formed list, in a run that went through the memories `S`. -/
structure Wf [BoundedOrder K] (S : Set (LockedHeap T K V)) (s : LockedHeap T K V) : Prop where
  listed : (view T K V).Listed S s
  sound : ∀ x, Pub S x → s.lock x = none → Sound S s x

/-- The writes of thread `t`. -/
inductive Act (t : T) (S : Set (LockedHeap T K V)) (s : LockedHeap T K V) : LockedHeap T K V → Prop
  | skip : Act t S s s
  | free (x : Ptr T) : Act t S s (s.ssmemFree x)
  | alloc (k : K) (v : V) (q : Ptr T) : Act t S s (s.allocateLlLocked t k v q).1
  | acquire {x : Ptr T} : Pub S x → s.lock x = none →
      Act t S s (s.modify x fun n => { n with lock := some t })
  | release {x : Ptr T} : Pub S x → s.lock x = some t → Sound S s x → Act t S s (s.release x)
  | link {p n : Ptr T} {k : K} {v : V} : s.lock p = some t → Lnk s p →
      Private t S s k v (s.next p) n → s.key p < k → k < s.key (s.next p) → Act t S s (s.setNext p n)
  | unlink {p c : Ptr T} : s.lock p = some t → s.lock c = some t → Lnk s p → s.next p = c →
      p ≠ .tail → c ≠ .tail → Act t S s (s.setNext p (s.next c))
  | back {p c : Ptr T} : s.lock c = some t → Pub S c → ¬ Lnk s c → Lnk s p → s.key p < s.key c →
      Act t S s (s.setNext c p)

/-- What a step of thread `t` leaves alone. -/
structure Keeps (t : T) (S : Set (LockedHeap T K V)) (s s' : LockedHeap T K V) : Prop where
  key : ∀ x, Pub S x → s'.key x = s.key x
  val : ∀ x, Pub S x → s'.val x = s.val x
  locked : ∀ u, u ≠ t → ∀ x, Pub S x → s.lock x = some u → s'.mem x = s.mem x ∧ (Lnk s' x ↔ Lnk s x)
  others : (view T K V).Others t S s s'

/-- Nodes that were met show the successor they had when they were linked, or
one that was met as well and has a smaller key. -/
def Hind (W : Set (LockedHeap T K V)) (s : LockedHeap T K V) : Prop :=
  ∀ x, Met Lnk W x → (∃ s₀ ∈ W, Lnk s₀ x ∧ s₀.next x = s.next x) ∨
    Met Lnk W (s.next x) ∧ s.key (s.next x) < s.key x

variable [BoundedOrder K] {t : T} {S W : Set (LockedHeap T K V)} {s s' : LockedHeap T K V}

theorem Hind.singleton (s : LockedHeap T K V) : Hind {s} s := by
  rintro x ⟨s₀, rfl, hx⟩
  exact Or.inl ⟨s₀, rfl, hx, rfl⟩

/-! ### The writes -/

theorem setNext_swing (s : LockedHeap T K V) (p q : Ptr T) :
    (view T K V).Swing s (s.setNext p q) p q where
  other x hx := s.mem_setNext_of_ne p x q hx
  key := s.key_setNext p p q
  val := s.val_setNext p p q
  dead := Iff.rfl
  next := s.next_setNext_self p q
  count := rfl

theorem lock_same (S : Set (LockedHeap T K V)) (s : LockedHeap T K V) (x : Ptr T) (o : Option T) :
    (view T K V).Same S s (s.modify x fun n => { n with lock := o }) :=
  ⟨fun y _ => s.field_modify x y LlLocked.key fun _ => rfl,
    fun y _ => s.field_modify x y LlLocked.val fun _ => rfl,
    fun y _ _ => s.field_modify x y LlLocked.next fun _ => rfl, fun _ => le_rfl⟩

theorem lock_absMap (w : Wf S s) (x : Ptr T) (o : Option T) :
    absMap (s.modify x fun n => { n with lock := o }) = absMap s :=
  (lock_same S s x o).absMap w.listed fun _ _ => Iff.rfl

theorem lock_lnk (w : Wf S s) (x y : Ptr T) (o : Option T) :
    Lnk (s.modify x fun n => { n with lock := o }) y ↔ Lnk s y :=
  (lock_same S s x o).lnk w.listed y

theorem lock_sound (w : Wf S s) (x : Ptr T) {y : Ptr T} (o : Option T) (h : Sound S s y) :
    Sound (insert (s.modify x fun n => { n with lock := o }) S)
      (s.modify x fun n => { n with lock := o }) y := by
  have hkey : ∀ z, LockedHeap.key (s.modify x fun n => { n with lock := o }) z = s.key z := fun z =>
    s.field_modify x z LlLocked.key fun _ => rfl
  have hnext : LockedHeap.next (s.modify x fun n => { n with lock := o }) y = s.next y :=
    s.field_modify x y LlLocked.next fun _ => rfl
  rcases h with hl | ⟨h1, h2⟩
  · exact Or.inl ((lock_lnk w x y o).mpr hl)
  · refine Or.inr ⟨?_, ?_⟩
    · rw [hnext]
      exact h1.insert _
    · rw [hnext, hkey, hkey]
      exact h2

/-- Turning the pointer of a removed node. -/
theorem back_same {c : Ptr T} (hc : ¬ Lnk s c) (p : Ptr T) :
    (view T K V).Same S s (s.setNext c p) :=
  ⟨fun y _ => s.key_setNext c y p, fun y _ => s.val_setNext c y p,
    fun y _ hy => s.next_setNext_of_ne c y p fun he => hc (he ▸ hy), fun _ => le_rfl⟩

section link

variable {p n : Ptr T} {k : K} {v : V} (w : Wf S s) (hp : Lnk s p)
  (hn : Private t S s k v (s.next p) n) (h1 : s.key p < k) (h2 : k < s.key (s.next p))

include w hp hn h1 h2

theorem link_lnk (x : Ptr T) : Lnk (s.setNext p n) x ↔ Lnk s x ∨ x = n :=
  (setNext_swing s p n).link_lnk w.listed hp (w.listed.ne_tail_of_lt h1) hn.1
    (by rw [hn.2.1]; rfl) x

theorem link_pub (x : Ptr T) : Pub (insert (s.setNext p n) S) x ↔ Pub S x ∨ x = n :=
  (setNext_swing s p n).link_pub w.listed hp (w.listed.ne_tail_of_lt h1) hn.1
    (by rw [hn.2.1]; rfl) x

theorem link_listed : (view T K V).Listed (insert (s.setNext p n) S) (s.setNext p n) := by
  obtain ⟨hn1, hn2, i, hi, hc⟩ := hn
  exact (setNext_swing s p n).link_listed w.listed hp (w.listed.ne_tail_of_lt h1) hn1
    (by rw [hn2]; rfl) (by rw [hn2]; exact h1) (by rw [hn2]; exact h2) ⟨t, i, hi, hc⟩

/-- Linking a node adds its key to the map. -/
theorem link_absMap : absMap s k = none ∧
    absMap (s.setNext p n) = Function.update (absMap s) k (some v) := by
  obtain ⟨hn1, hn2, i, hi, -⟩ := hn
  have := (setNext_swing s p n).link_absMap w.listed hp (w.listed.ne_tail_of_lt h1) hn1
    (by rw [hn2]; rfl) (by rw [hn2]; exact h1) (by rw [hn2]; exact h2) id
    (by rw [hi]; exact ⟨nofun, nofun⟩)
  rwa [hn2] at this

end link

section unlink

variable {p c : Ptr T} (w : Wf S s) (hp : Lnk s p) (hpc : s.next p = c) (hpt : p ≠ .tail)
  (hct : c ≠ .tail)

include w hp hpc hpt hct

theorem unlink_lnk (x : Ptr T) : Lnk (s.setNext p (s.next c)) x ↔ Lnk s x ∧ x ≠ c :=
  (setNext_swing s p (s.next c)).unlink_lnk w.listed hp hpt hpc hct x

theorem unlink_pub (x : Ptr T) : Pub (insert (s.setNext p (s.next c)) S) x ↔ Pub S x :=
  (setNext_swing s p (s.next c)).unlink_pub w.listed hp hpt hpc hct x

theorem unlink_ne : p ≠ c := by
  obtain ⟨-, -, h, -⟩ := NodeView.Swing.unlink_chain w.listed hp hpt hpc hct
  rintro rfl
  exact lt_irrefl _ h

/-- Unlinking a node removes its key from the map. -/
theorem unlink_absMap (hch : c ≠ .head) : absMap s (s.key c) = some (s.val c) ∧
    absMap (s.setNext p (s.next c)) = Function.update (absMap s) (s.key c) none := by
  have hl : (view T K V).Live s c := ⟨hpc ▸ hp.next hpt, id, hch, hct⟩
  exact ⟨w.listed.absMap_past w.listed.mem hl,
    (setNext_swing s p (s.next c)).unlink_absMap w.listed hp hpt hpc hct hl⟩

end unlink

namespace Act

variable (w : Wf S s) (h : Act t S s s')

include w h

theorem count (u : T) : s.count u ≤ s'.count u := by
  cases h
  case alloc k v q => exact s.count_le_allocate _ t u
  all_goals exact le_rfl

theorem listed : (view T K V).Listed (insert s' S) s' := by
  cases h with
  | skip => rw [Set.insert_eq_of_mem w.listed.mem]; exact w.listed
  | free x => exact (NodeView.same_free S s x).listed w.listed
  | alloc => exact (w.listed.allocate t _).1.listed w.listed
  | acquire => exact (lock_same S s _ _).listed w.listed
  | release => exact (lock_same S s _ _).listed w.listed
  | link _ hp hn h1 h2 => exact link_listed w hp hn h1 h2
  | unlink _ _ hp hpc hpt hct => exact (setNext_swing s _ _).unlink_listed w.listed hp hpt hpc hct
  | back _ _ hc => exact (back_same hc _).listed w.listed

/-- Which nodes are linked after it. -/
theorem lnk (x : Ptr T) : (Lnk s' x → Lnk s x ∨ ¬ Pub S x) ∧
    (Lnk s x → Lnk s' x ∨ s.lock x = some t ∧ s'.lock x = some t) := by
  cases h with
  | skip => exact ⟨Or.inl, Or.inl⟩
  | free => exact ⟨Or.inl, Or.inl⟩
  | alloc k v q =>
    have := (w.listed.allocate t ⟨k, v, q, none⟩).1.lnk w.listed x
    exact ⟨fun h => Or.inl (this.mp h), fun h => Or.inl (this.mpr h)⟩
  | @acquire y =>
    have := (lock_same S s y (some t)).lnk w.listed x
    exact ⟨fun h => Or.inl (this.mp h), fun h => Or.inl (this.mpr h)⟩
  | @release y =>
    have := (lock_same S s y none).lnk w.listed x
    exact ⟨fun h => Or.inl (this.mp h), fun h => Or.inl (this.mpr h)⟩
  | @back p c _ _ hc =>
    have := (back_same hc p).lnk w.listed x
    exact ⟨fun h => Or.inl (this.mp h), fun h => Or.inl (this.mpr h)⟩
  | link _ hp hn h1 h2 =>
    rw [link_lnk w hp hn h1 h2]
    refine ⟨fun h => h.imp_right ?_, fun h => Or.inl (Or.inl h)⟩
    rintro rfl
    exact hn.1
  | @unlink p c _ hlk hp hpc hpt hct =>
    rw [unlink_lnk w hp hpc hpt hct]
    refine ⟨fun h => Or.inl h.1, fun h => ?_⟩
    by_cases hx : x = c
    · subst hx
      exact Or.inr ⟨hlk, by rw [LockedHeap.lock_setNext]; exact hlk⟩
    · exact Or.inl ⟨h, hx⟩

theorem pub (x : Ptr T) (hx : Pub (insert s' S) x) : Pub S x ∨ Lnk s' x ∧ ∃ i, x = .node t i := by
  cases h with
  | skip => rw [Set.insert_eq_of_mem w.listed.mem] at hx; exact Or.inl hx
  | free y => exact Or.inl (((NodeView.same_free S s y).pub w.listed x).mp hx)
  | alloc k v q => exact Or.inl (((w.listed.allocate t ⟨k, v, q, none⟩).1.pub w.listed x).mp hx)
  | acquire => exact Or.inl (((lock_same S s _ _).pub w.listed x).mp hx)
  | release => exact Or.inl (((lock_same S s _ _).pub w.listed x).mp hx)
  | back _ _ hc => exact Or.inl (((back_same hc _).pub w.listed x).mp hx)
  | link _ hp hn h1 h2 =>
    refine ((link_pub w hp hn h1 h2 x).mp hx).imp_right ?_
    rintro rfl
    obtain ⟨-, -, i, rfl, -⟩ := id hn
    exact ⟨(link_lnk w hp hn h1 h2 _).mpr (Or.inr rfl), i, rfl⟩
  | unlink _ _ hp hpc hpt hct => exact Or.inl ((unlink_pub w hp hpc hpt hct x).mp hx)

/-- What it does to one node. -/
theorem node (x : Ptr T) (ha : x ≠ .node t (s.count t)) : s'.key x = s.key x ∧ s'.val x = s.val x ∧
    (s'.mem x = s.mem x ∨ Pub S x ∧ (s.lock x = none ∨ s.lock x = some t)) := by
  cases h with
  | skip => exact ⟨rfl, rfl, Or.inl rfl⟩
  | free => exact ⟨rfl, rfl, Or.inl rfl⟩
  | alloc k v q =>
    have hm := s.mem_allocate_of_ne x ⟨k, v, q, none⟩ t ha
    exact ⟨congrArg LlLocked.key hm, congrArg LlLocked.val hm, Or.inl hm⟩
  | @acquire y hy hl =>
    refine ⟨s.field_modify y x LlLocked.key fun _ => rfl, s.field_modify y x LlLocked.val fun _ => rfl, ?_⟩
    by_cases hx : x = y
    · subst hx; exact Or.inr ⟨hy, Or.inl hl⟩
    · exact Or.inl (s.mem_modify_of_ne y x _ hx)
  | @release y hy hl =>
    refine ⟨s.field_modify y x LlLocked.key fun _ => rfl, s.field_modify y x LlLocked.val fun _ => rfl, ?_⟩
    by_cases hx : x = y
    · subst hx; exact Or.inr ⟨hy, Or.inr hl⟩
    · exact Or.inl (s.mem_modify_of_ne y x _ hx)
  | @link p n _ _ hl hp =>
    refine ⟨s.key_setNext p x n, s.val_setNext p x n, ?_⟩
    by_cases hx : x = p
    · subst hx; exact Or.inr ⟨w.listed.pub_lnk hp, Or.inr hl⟩
    · exact Or.inl (s.mem_setNext_of_ne p x n hx)
  | @unlink p c hl _ hp =>
    refine ⟨s.key_setNext p x _, s.val_setNext p x _, ?_⟩
    by_cases hx : x = p
    · subst hx; exact Or.inr ⟨w.listed.pub_lnk hp, Or.inr hl⟩
    · exact Or.inl (s.mem_setNext_of_ne p x _ hx)
  | @back p c hl hc =>
    refine ⟨s.key_setNext c x p, s.val_setNext c x p, ?_⟩
    by_cases hx : x = c
    · subst hx; exact Or.inr ⟨hc, Or.inr hl⟩
    · exact Or.inl (s.mem_setNext_of_ne c x p hx)

/-- A published node that is not linked after it keeps its successor, or is
turned back to a linked node with a smaller key, under its lock. -/
theorem unlinked (x : Ptr T) (hx : Pub S x) (hl : ¬ Lnk s' x) : s'.next x = s.next x ∨
    Lnk s' (s'.next x) ∧ s'.key (s'.next x) < s'.key x ∧ s'.lock x = some t := by
  cases h with
  | skip => exact Or.inl rfl
  | free => exact Or.inl rfl
  | alloc k v q =>
    exact Or.inl (congrArg LlLocked.next ((w.listed.allocate t ⟨k, v, q, none⟩).2.1 x hx))
  | @acquire y => exact Or.inl (s.field_modify y x LlLocked.next fun _ => rfl)
  | @release y => exact Or.inl (s.field_modify y x LlLocked.next fun _ => rfl)
  | @link p n _ _ _ hp hn h1 h2 =>
    refine Or.inl (s.next_setNext_of_ne p x n fun he => hl ?_)
    rw [link_lnk w hp hn h1 h2, he]
    exact Or.inl hp
  | @unlink p c _ _ hp hpc hpt hct =>
    refine Or.inl (s.next_setNext_of_ne p x _ fun he => hl ?_)
    rw [unlink_lnk w hp hpc hpt hct, he]
    exact ⟨hp, unlink_ne w hp hpc hpt hct⟩
  | @back p c hlk _ hc hp hlt =>
    by_cases he : x = c
    · subst he
      rw [s.next_setNext_self, s.key_setNext, s.key_setNext, s.lock_setNext]
      exact Or.inr ⟨((back_same hc p).lnk w.listed p).mpr hp, hlt, hlk⟩
    · exact Or.inl (s.next_setNext_of_ne c x p he)

theorem tail_next : s'.next .tail = s.next .tail := by
  cases h with
  | skip => rfl
  | free => rfl
  | alloc k v q =>
    exact congrArg LlLocked.next ((w.listed.allocate t ⟨k, v, q, none⟩).2.1 _ w.listed.pub_tail)
  | @acquire y => exact s.field_modify y .tail LlLocked.next fun _ => rfl
  | @release y => exact s.field_modify y .tail LlLocked.next fun _ => rfl
  | link _ _ _ h1 => exact s.next_setNext_of_ne _ _ _ (w.listed.ne_tail_of_lt h1).symm
  | unlink _ _ _ _ hpt => exact s.next_setNext_of_ne _ _ _ hpt.symm
  | back _ _ hc =>
    exact s.next_setNext_of_ne _ _ _ fun he => hc (he ▸ w.listed.sorted.tail)

/-- A lock is given back on a sound node only. -/
theorem released (x : Ptr T) (hx : Pub S x) (h0 : s.lock x ≠ none) (h1 : s'.lock x = none) :
    Sound S s x := by
  cases h with
  | skip => exact absurd h1 h0
  | free => exact absurd h1 h0
  | alloc k v q =>
    exact absurd ((congrArg LlLocked.lock ((w.listed.allocate t ⟨k, v, q, none⟩).2.1 x hx)).symm.trans h1)
      h0
  | @acquire y =>
    by_cases he : x = y
    · subst he
      have : LockedHeap.lock (s.modify x fun n => { n with lock := some t }) x = some t := by
        simp [LockedHeap.lock]
      rw [this] at h1
      cases h1
    · exact absurd ((congrArg LlLocked.lock (s.mem_modify_of_ne y x _ he)).symm.trans h1) h0
  | @release y _ _ hs =>
    by_cases he : x = y
    · exact he ▸ hs
    · exact absurd ((congrArg LlLocked.lock (s.mem_modify_of_ne y x _ he)).symm.trans h1) h0
  | link => exact absurd ((s.lock_setNext _ x _).symm.trans h1) h0
  | unlink => exact absurd ((s.lock_setNext _ x _).symm.trans h1) h0
  | back => exact absurd ((s.lock_setNext _ x _).symm.trans h1) h0

theorem wf : Wf (insert s' S) s' where
  listed := h.listed w
  sound x hx hl := by
    by_cases hs' : Lnk s' x
    · exact Or.inl hs'
    have hx := (h.pub w x hx).resolve_right fun h => hs' h.1
    have hne : ∀ {y}, Pub S y → y ≠ .node t (s.count t) := fun hy he => w.listed.not_pub_next t (he ▸ hy)
    have hs : Sound S s x := by
      by_cases h0 : s.lock x = none
      · exact w.sound x hx h0
      · exact h.released w x hx h0 hl
    rcases hs with hs | ⟨h1, h2⟩
    · have := (((h.lnk w x).2 hs).resolve_left hs').2
      rw [hl] at this
      cases this
    · rcases h.unlinked w x hx hs' with hn | ⟨-, -, hlk⟩
      · refine Or.inr ⟨?_, ?_⟩
        · rw [hn]; exact h1.insert s'
        · rw [hn, (h.node w _ (hne h1)).1, (h.node w x (hne hx)).1]; exact h2
      · rw [hl] at hlk
        cases hlk

theorem keeps : Keeps t S s s' where
  key x hx := (h.node w x fun he => w.listed.not_pub_next t (he ▸ hx)).1
  val x hx := (h.node w x fun he => w.listed.not_pub_next t (he ▸ hx)).2.1
  locked u hu x hx hl := by
    refine ⟨?_, fun h' => ((h.lnk w x).1 h').resolve_right fun h => h hx,
      fun h' => ((h.lnk w x).2 h').resolve_right fun h => ?_⟩
    · refine (h.node w x fun he => w.listed.not_pub_next t (he ▸ hx)).2.2.resolve_right ?_
      rintro ⟨-, h | h⟩ <;> rw [hl] at h <;> cases h
      exact hu rfl
    · rw [hl] at h
      exact hu (Option.some.inj h.1)
  others := by
    refine ⟨fun u i hu hp => ⟨?_, fun hp' => ?_⟩, h.count w⟩
    · refine (h.node w _ ?_).2.2.resolve_right fun h => hp h.1
      rintro ⟨⟩; exact hu rfl
    · rcases h.pub w _ hp' with h1 | ⟨-, j, h1⟩
      · exact hp h1
      · cases h1; exact hu rfl

/-- **A removed node keeps its successor until it is turned back to a linked
node.** -/
theorem hindsight (hW : W ⊆ S) (hh : Hind W s) : Hind (insert s' W) s' := by
  rintro x ⟨s₁, h1, hx⟩
  by_cases hs' : Lnk s' x
  · exact Or.inl ⟨s', Set.mem_insert _ _, hs', rfl⟩
  rcases Set.mem_insert_iff.mp h1 with rfl | h1
  · exact absurd hx hs'
  have hm : Met Lnk W x := ⟨s₁, h1, hx⟩
  have hne : ∀ {y}, Met Lnk W y → y ≠ .node t (s.count t) := fun hy he =>
    w.listed.not_pub_next t (he ▸ hy.mono hW)
  rcases h.unlinked w x (hm.mono hW) hs' with hn | ⟨hl, hlt, -⟩
  · rw [hn]
    rcases hh x hm with ⟨s₀, h0, hl, he⟩ | ⟨hy, hlt⟩
    · exact Or.inl ⟨s₀, Set.mem_insert_of_mem _ h0, hl, he⟩
    · refine Or.inr ⟨hy.insert s', ?_⟩
      rw [(h.node w _ (hne hy)).1, (h.node w x (hne hm)).1]
      exact hlt
  · exact Or.inr ⟨⟨s', Set.mem_insert _ _, hl⟩, hlt⟩

end Act

/-- One step on along the list or back, from a node with a smaller key. -/
theorem walked_next {k : K} {x : Ptr T} (w : Wf S s) (hW : W ⊆ S) (hh : Hind W s)
    (hx : Met Lnk W x) (hk : s.key x < k) : (view T K V).Walked W s k (s.next x) := by
  rcases hh x hx with ⟨s₀, h0, hl, he⟩ | ⟨hy, hlt⟩
  · refine ⟨⟨s₀, h0, he ▸ hl.next (w.listed.ne_tail_of_lt hk)⟩, ?_⟩
    rcases le_or_gt (s.key (s.next x)) k with h1 | h1
    · exact Or.inl h1
    · exact Or.inr (w.listed.noneSeen_of_next hW h0 hl hk
        (by rw [show (view T K V).succ s₀ x = s.next x from he]; exact h1))
  · exact ⟨hy, Or.inl (hlt.trans hk).le⟩

/-! ### The empty list -/

theorem Wf.initial [Nontrivial K] [Zero V] : Wf {(LockedHeap.empty : LockedHeap T K V)} LockedHeap.empty where
  listed := NodeView.Listed.initial rfl rfl rfl
  sound x hx _ := by
    obtain ⟨s, rfl, hx⟩ := hx
    exact Or.inl hx

theorem empty_absMap [Zero V] : absMap (LockedHeap.empty : LockedHeap T K V) = fun _ => none :=
  NodeView.absMap_empty rfl

end LockedList

end Ascylib
