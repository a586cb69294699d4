/-
# Nodes of the skip list with optimistic locks

`src/aux/sl_marked.h`: a node has a key, a value, its height `toplevel`, a
mark, a flag that says whether it is linked at all its levels, a lock, and one
`next` pointer a level. A lock is a mutex that knows its holder.

Each level is a sorted list. A node holds its key while it is fully linked and
not marked. `Act` lists the writes of a thread: a pointer changes only under the
lock of a node that is linked at its level, and a mark under the lock of its
node. So a node without a mark is linked wherever it has been linked
(`Wf.lnk`), and what is linked at a level is linked at all below (`Wf.down`).
-/
import Ascylib.Levels

set_option linter.unusedSectionVars false

namespace Ascylib

open Concur Chain

structure SlMarked (T K V : Type*) where
  key : K
  val : V
  toplevel : ℕ
  marked : Bool
  fullylinked : Bool
  lock : Option T
  next : ℕ → Ptr T

abbrev MarkedSkipHeap (T K V : Type*) := Memory T (SlMarked T K V)

namespace MarkedSkipHeap

variable {T K V : Type*} [DecidableEq T]

def key (s : MarkedSkipHeap T K V) (x : Ptr T) : K := (s.mem x).key
def val (s : MarkedSkipHeap T K V) (x : Ptr T) : V := (s.mem x).val
def toplevel (s : MarkedSkipHeap T K V) (x : Ptr T) : ℕ := (s.mem x).toplevel
def marked (s : MarkedSkipHeap T K V) (x : Ptr T) : Bool := (s.mem x).marked
def fullylinked (s : MarkedSkipHeap T K V) (x : Ptr T) : Bool := (s.mem x).fullylinked
def lock (s : MarkedSkipHeap T K V) (x : Ptr T) : Option T := (s.mem x).lock

/-- `x->next[i]`. -/
def next (s : MarkedSkipHeap T K V) (x : Ptr T) (i : ℕ) : Ptr T := (s.mem x).next i

/-- `x->next[i] = q`. -/
def setNext (s : MarkedSkipHeap T K V) (x : Ptr T) (i : ℕ) (q : Ptr T) : MarkedSkipHeap T K V :=
  s.modify x fun n => { n with next := Function.update n.next i q }

/-- `x->marked = 1`. -/
def setMarked (s : MarkedSkipHeap T K V) (x : Ptr T) : MarkedSkipHeap T K V :=
  s.modify x fun n => { n with marked := true }

/-- `x->fullylinked = 1`. -/
def setFullylinked (s : MarkedSkipHeap T K V) (x : Ptr T) : MarkedSkipHeap T K V :=
  s.modify x fun n => { n with fullylinked := true }

def setLock (s : MarkedSkipHeap T K V) (x : Ptr T) (o : Option T) : MarkedSkipHeap T K V :=
  s.modify x fun n => { n with lock := o }

/-- `LOCK(x)` by thread `t`, which waits while the lock is taken. -/
def acquire (s : MarkedSkipHeap T K V) (t : T) (x : Ptr T) : Option (MarkedSkipHeap T K V) :=
  if s.lock x = none then some (s.setLock x (some t)) else none

/-- `UNLOCK(x)`. -/
def release (s : MarkedSkipHeap T K V) (x : Ptr T) : MarkedSkipHeap T K V := s.setLock x none

/-- `allocate_sl_marked_unlinked(key, val, .., toplevel)` by thread `t`. It
leaves the `next` pointers as they are; what they hold does not matter. -/
def allocateSlMarkedUnlinked (s : MarkedSkipHeap T K V) (t : T) (key : K) (val : V)
    (toplevel : ℕ) : MarkedSkipHeap T K V × Ptr T :=
  s.allocate t ⟨key, val, toplevel, false, false, none, fun _ => .null⟩

/-- The constructor: the two sentinels, of all levels, linked at each. -/
def empty [Bot K] [Top K] [Zero V] (levelmax : ℕ) : MarkedSkipHeap T K V where
  mem
    | .head => ⟨⊥, 0, levelmax, false, true, none, fun _ => .tail⟩
    | .tail => ⟨⊤, 0, levelmax, false, true, none, fun _ => .null⟩
    | _ => ⟨⊥, 0, 0, false, false, none, fun _ => .null⟩
  count := fun _ => 0
  freed := []

theorem acquire_eq_some {s s' : MarkedSkipHeap T K V} {t : T} {x : Ptr T}
    (h : s.acquire t x = some s') : s.lock x = none ∧ s' = s.setLock x (some t) := by
  unfold acquire at h
  split at h
  · cases h
    exact ⟨‹_›, rfl⟩
  · cases h

/-! ### Reading a memory after a write -/

section

variable (s : MarkedSkipHeap T K V) (x y q : Ptr T) (i j : ℕ) (o : Option T)

theorem mem_setNext_of_ne (h : y ≠ x) : (s.setNext x i q).mem y = s.mem y :=
  s.mem_modify_of_ne x y _ h

@[simp] theorem key_setNext : (s.setNext x i q).key y = s.key y :=
  s.field_modify x y SlMarked.key fun _ => rfl

@[simp] theorem val_setNext : (s.setNext x i q).val y = s.val y :=
  s.field_modify x y SlMarked.val fun _ => rfl

@[simp] theorem toplevel_setNext : (s.setNext x i q).toplevel y = s.toplevel y :=
  s.field_modify x y SlMarked.toplevel fun _ => rfl

@[simp] theorem marked_setNext : (s.setNext x i q).marked y = s.marked y :=
  s.field_modify x y SlMarked.marked fun _ => rfl

@[simp] theorem fullylinked_setNext : (s.setNext x i q).fullylinked y = s.fullylinked y :=
  s.field_modify x y SlMarked.fullylinked fun _ => rfl

@[simp] theorem lock_setNext : (s.setNext x i q).lock y = s.lock y :=
  s.field_modify x y SlMarked.lock fun _ => rfl

@[simp] theorem next_setNext_self : (s.setNext x i q).next x i = q := by simp [setNext, next]

theorem next_setNext_of_ne (h : y ≠ x ∨ j ≠ i) : (s.setNext x i q).next y j = s.next y j := by
  by_cases hy : y = x
  · subst hy
    simp [setNext, next, h.resolve_left fun h => h rfl]
  · rw [next, mem_setNext_of_ne s x y q i hy]
    rfl

@[simp] theorem key_setMarked : (s.setMarked x).key y = s.key y :=
  s.field_modify x y SlMarked.key fun _ => rfl

@[simp] theorem val_setMarked : (s.setMarked x).val y = s.val y :=
  s.field_modify x y SlMarked.val fun _ => rfl

@[simp] theorem toplevel_setMarked : (s.setMarked x).toplevel y = s.toplevel y :=
  s.field_modify x y SlMarked.toplevel fun _ => rfl

@[simp] theorem fullylinked_setMarked : (s.setMarked x).fullylinked y = s.fullylinked y :=
  s.field_modify x y SlMarked.fullylinked fun _ => rfl

@[simp] theorem lock_setMarked : (s.setMarked x).lock y = s.lock y :=
  s.field_modify x y SlMarked.lock fun _ => rfl

@[simp] theorem next_setMarked : (s.setMarked x).next y i = s.next y i :=
  s.field_modify x y (fun n => n.next i) fun _ => rfl

@[simp] theorem marked_setMarked_self : (s.setMarked x).marked x = true := by
  simp [setMarked, marked]

theorem marked_setMarked_of_ne (h : y ≠ x) : (s.setMarked x).marked y = s.marked y :=
  congrArg SlMarked.marked (s.mem_modify_of_ne x y _ h)

@[simp] theorem key_setFullylinked : (s.setFullylinked x).key y = s.key y :=
  s.field_modify x y SlMarked.key fun _ => rfl

@[simp] theorem val_setFullylinked : (s.setFullylinked x).val y = s.val y :=
  s.field_modify x y SlMarked.val fun _ => rfl

@[simp] theorem toplevel_setFullylinked : (s.setFullylinked x).toplevel y = s.toplevel y :=
  s.field_modify x y SlMarked.toplevel fun _ => rfl

@[simp] theorem marked_setFullylinked : (s.setFullylinked x).marked y = s.marked y :=
  s.field_modify x y SlMarked.marked fun _ => rfl

@[simp] theorem lock_setFullylinked : (s.setFullylinked x).lock y = s.lock y :=
  s.field_modify x y SlMarked.lock fun _ => rfl

@[simp] theorem next_setFullylinked : (s.setFullylinked x).next y i = s.next y i :=
  s.field_modify x y (fun n => n.next i) fun _ => rfl

@[simp] theorem fullylinked_setFullylinked_self : (s.setFullylinked x).fullylinked x = true := by
  simp [setFullylinked, fullylinked]

theorem fullylinked_setFullylinked_of_ne (h : y ≠ x) :
    (s.setFullylinked x).fullylinked y = s.fullylinked y :=
  congrArg SlMarked.fullylinked (s.mem_modify_of_ne x y _ h)

@[simp] theorem key_setLock : (s.setLock x o).key y = s.key y :=
  s.field_modify x y SlMarked.key fun _ => rfl

@[simp] theorem val_setLock : (s.setLock x o).val y = s.val y :=
  s.field_modify x y SlMarked.val fun _ => rfl

@[simp] theorem toplevel_setLock : (s.setLock x o).toplevel y = s.toplevel y :=
  s.field_modify x y SlMarked.toplevel fun _ => rfl

@[simp] theorem marked_setLock : (s.setLock x o).marked y = s.marked y :=
  s.field_modify x y SlMarked.marked fun _ => rfl

@[simp] theorem fullylinked_setLock : (s.setLock x o).fullylinked y = s.fullylinked y :=
  s.field_modify x y SlMarked.fullylinked fun _ => rfl

@[simp] theorem next_setLock : (s.setLock x o).next y i = s.next y i :=
  s.field_modify x y (fun n => n.next i) fun _ => rfl

theorem lock_setLock : (s.setLock x o).lock y = if y = x then o else s.lock y := by
  by_cases h : y = x
  · subst h
    simp [setLock, lock]
  · rw [if_neg h]
    exact congrArg SlMarked.lock (s.mem_modify_of_ne x y _ h)

end

/-! ### The skip list -/

/-- The skip list of `sl_marked` nodes. -/
abbrev view (T K V : Type*) : TowerView (SlMarked T K V) T K V where
  key := SlMarked.key
  val := SlMarked.val
  next := SlMarked.next
  dead n := n.fullylinked = false ∨ n.marked = true

/-- The node is linked at level `i`. -/
abbrev Lnk (i : ℕ) (s : MarkedSkipHeap T K V) (x : Ptr T) : Prop := (view T K V).Lnk i s x

/-- The node has been linked at level `i`. -/
abbrev Pub (i : ℕ) (S : Set (MarkedSkipHeap T K V)) (x : Ptr T) : Prop := Met (Lnk i) S x

/-- The map the skip list stands for: of the nodes linked at level 0 that are
fully linked and not marked. -/
noncomputable abbrev absMap (s : MarkedSkipHeap T K V) : K → Option V :=
  ((view T K V).level 0).absMap s

/-- At each level, the nodes that were met and are unlinked show what they showed. -/
def Hind (W : Set (MarkedSkipHeap T K V)) (s : MarkedSkipHeap T K V) : Prop :=
  ∀ i, ((view T K V).level i).HindDead W s

variable [LinearOrder K]

/-- A well-formed skip list, in a run that went through the memories `S`. -/
structure Wf [BoundedOrder K] (levelmax : ℕ) (S : Set (MarkedSkipHeap T K V))
    (s : MarkedSkipHeap T K V) : Prop where
  listed : (view T K V).Listed S s
  down : ∀ s₀ ∈ S, ∀ {i j x}, j ≤ i → Lnk i s₀ x → Lnk j s₀ x
  lnk : ∀ {i x}, Pub i S x → s.marked x = false → Lnk i s x
  tall : ∀ {i x}, Pub i S x → x ≠ .head → x ≠ .tail → i < s.toplevel x ∧ s.toplevel x ≤ levelmax
  full : ∀ {i x}, Pub 0 S x → s.fullylinked x = true → i < s.toplevel x → Pub i S x
  marked : ∀ {x}, Pub 0 S x → s.marked x = true → s.fullylinked x = true
  head_top : s.toplevel .head = levelmax
  unlocked : ∀ {x}, ¬ Pub 0 S x → s.lock x = none
  linked : ∀ {x}, s.fullylinked x = true → Pub 0 S x

/-- The writes of thread `t`. -/
inductive Act (levelmax : ℕ) (t : T) (S : Set (MarkedSkipHeap T K V)) (s : MarkedSkipHeap T K V) :
    MarkedSkipHeap T K V → Prop
  | skip : Act levelmax t S s s
  | free (x : Ptr T) : Act levelmax t S s (s.ssmemFree x)
  | own {s' : MarkedSkipHeap T K V} {m : ℕ} : ¬ Pub 0 S (.node t m) →
      (∀ x, x ≠ .node t m → s'.mem x = s.mem x) → (∀ u, s.count u ≤ s'.count u) →
      s'.lock (.node t m) = none → s'.fullylinked (.node t m) = false → Act levelmax t S s s'
  | lock {x : Ptr T} {o : Option T} : Pub 0 S x → s.lock x = none ∨ s.lock x = some t →
      o = none ∨ o = some t → Act levelmax t S s (s.setLock x o)
  | link {p : Ptr T} {m i : ℕ} : s.lock p = some t → Lnk i s p → ¬ Pub i S (.node t m) →
      m < s.count t → (∀ j < i, Lnk j s (.node t m)) → s.next (.node t m) i = s.next p i →
      s.key p < s.key (.node t m) → s.key (.node t m) < s.key (s.next p i) →
      i < s.toplevel (.node t m) → s.toplevel (.node t m) ≤ levelmax →
      s.marked (.node t m) = false → s.fullylinked (.node t m) = false →
      Act levelmax t S s (s.setNext p i (.node t m))
  | full {m : ℕ} : Pub 0 S (.node t m) →
      (∀ i < s.toplevel (.node t m), Lnk i s (.node t m)) → s.marked (.node t m) = false →
      Act levelmax t S s (s.setFullylinked (.node t m))
  | mark {c : Ptr T} : s.lock c = some t → Pub 0 S c → s.fullylinked c = true →
      s.marked c = false → c ≠ .head → c ≠ .tail → Act levelmax t S s (s.setMarked c)
  | unlink {p c : Ptr T} {i : ℕ} : s.lock p = some t → s.lock c = some t → Lnk i s p →
      s.next p i = c → s.marked c = true → p ≠ .tail → c ≠ .tail → (∀ j, i < j → ¬ Lnk j s c) →
      Act levelmax t S s (s.setNext p i (s.next c i))

/-- The node keeps its mark, its pointers and its place. -/
def Kept (s s' : MarkedSkipHeap T K V) (x : Ptr T) : Prop :=
  s'.marked x = s.marked x ∧ ∀ i, s'.next x i = s.next x i ∧ (Lnk i s x → Lnk i s' x)

/-- What a step of thread `t` leaves alone. -/
structure Keeps (t : T) (S : Set (MarkedSkipHeap T K V)) (s s' : MarkedSkipHeap T K V) : Prop where
  key : ∀ {x}, Pub 0 S x → s'.key x = s.key x
  val : ∀ {x}, Pub 0 S x → s'.val x = s.val x
  top : ∀ {x}, Pub 0 S x → s'.toplevel x = s.toplevel x
  marks : ∀ {x}, Pub 0 S x → s.marked x = true → s'.marked x = true
  fulls : ∀ {x}, Pub 0 S x → s.fullylinked x = true → s'.fullylinked x = true
  wake : ∀ {x}, Pub 0 S x → s.fullylinked x = false → s'.marked x = false
  born : ∀ {x}, Pub 0 (insert s' S) x → Pub 0 S x ∨ s'.fullylinked x = false
  locks : ∀ {u}, u ≠ t → ∀ x, s'.lock x = some u ↔ s.lock x = some u
  gone : ∀ {i x}, s'.marked x = true → Lnk i s' x → Lnk i s x
  locked : ∀ {u x}, u ≠ t → Pub 0 S x → s.lock x = some u → Kept s s' x
  others : ∀ {u m}, u ≠ t → ¬ Pub 0 S (.node u m) → s'.mem (.node u m) = s.mem (.node u m)
  above : ∀ {u m i}, u ≠ t → ¬ Pub i S (.node u m) →
    s'.next (.node u m) i = s.next (.node u m) i ∧ ¬ Pub i (insert s' S) (.node u m)
  half : ∀ {u m}, u ≠ t → s.fullylinked (.node u m) = false → s'.fullylinked (.node u m) = false
  count : ∀ u, s.count u ≤ s'.count u

variable [BoundedOrder K] {levelmax : ℕ} {t : T} {S W : Set (MarkedSkipHeap T K V)}
  {s s' : MarkedSkipHeap T K V} {x : Ptr T} {i j : ℕ}

namespace Wf

variable (w : Wf levelmax S s)

include w

theorem mem : s ∈ S := (w.listed 0).mem

theorem pub_down (hx : Pub i S x) (hj : j ≤ i) : Pub j S x :=
  let ⟨s₀, hs₀, hl⟩ := hx
  ⟨s₀, hs₀, w.down s₀ hs₀ hj hl⟩

theorem pub_zero (hx : Pub i S x) : Pub 0 S x := w.pub_down hx i.zero_le

theorem pub_head (i : ℕ) : Pub i S .head := (w.listed i).pub_head

theorem ne_tail_of_lt {k : K} (h : s.key x < k) : x ≠ .tail := (w.listed 0).ne_tail_of_lt h

theorem ne_head_of_lt {k : K} (h : k < s.key x) : x ≠ .head := (w.listed 0).ne_head_of_lt h

/-- A node that is not fully linked is not marked. -/
theorem not_marked (hx : Pub 0 S x) (hf : s.fullylinked x = false) : s.marked x = false := by
  by_contra hm
  rw [Bool.not_eq_false] at hm
  exact Bool.noConfusion ((w.marked hx hm).symm.trans hf)

/-- A fully linked node without a mark is linked at all its levels. -/
theorem lnk_of_full (hx : Pub 0 S x) (hf : s.fullylinked x = true) (hm : s.marked x = false)
    (hi : i < s.toplevel x) : Lnk i s x := w.lnk (w.full hx hf hi) hm

end Wf

/-! ### The writes -/

theorem setNext_swing (s : MarkedSkipHeap T K V) (p : Ptr T) (i : ℕ) (q : Ptr T) :
    (view T K V).Swing s (s.setNext p i q) i p q where
  other y hy := mem_setNext_of_ne s p y q i hy
  key := key_setNext s p p q i
  val := val_setNext s p p q i
  dead := by
    show (s.setNext p i q).fullylinked p = false ∨ (s.setNext p i q).marked p = true ↔
      s.fullylinked p = false ∨ s.marked p = true
    rw [fullylinked_setNext, marked_setNext]
  next := next_setNext_self s p q i
  levels j hj := next_setNext_of_ne s p p q i j (Or.inr hj)
  count := rfl

/-- A write to a node that leaves key, value and pointers alone. -/
theorem modify_same (S : Set (MarkedSkipHeap T K V)) (s : MarkedSkipHeap T K V) (x : Ptr T)
    {f : SlMarked T K V → SlMarked T K V} (hk : ∀ n, (f n).key = n.key) (hv : ∀ n, (f n).val = n.val)
    (hn : ∀ n, (f n).next = n.next) : (view T K V).Same S s (s.modify x f) :=
  fun i => ⟨fun y _ => s.field_modify x y SlMarked.key hk, fun y _ => s.field_modify x y SlMarked.val hv,
    fun y _ _ => s.field_modify x y (fun n => n.next i) fun n => congrFun (hn n) i, fun _ => le_rfl⟩

theorem setLock_same (S : Set (MarkedSkipHeap T K V)) (s : MarkedSkipHeap T K V) (x : Ptr T)
    (o : Option T) : (view T K V).Same S s (s.setLock x o) :=
  modify_same S s x (fun _ => rfl) (fun _ => rfl) fun _ => rfl

theorem setMarked_same (S : Set (MarkedSkipHeap T K V)) (s : MarkedSkipHeap T K V) (x : Ptr T) :
    (view T K V).Same S s (s.setMarked x) :=
  modify_same S s x (fun _ => rfl) (fun _ => rfl) fun _ => rfl

theorem setFullylinked_same (S : Set (MarkedSkipHeap T K V)) (s : MarkedSkipHeap T K V) (x : Ptr T) :
    (view T K V).Same S s (s.setFullylinked x) :=
  modify_same S s x (fun _ => rfl) (fun _ => rfl) fun _ => rfl

/-- A write to a node that has not been linked. -/
theorem Wf.own_same (w : Wf levelmax S s) {m : ℕ} (hn : ¬ Pub 0 S (.node t m))
    (he : ∀ x, x ≠ .node t m → s'.mem x = s.mem x) (hc : ∀ u, s.count u ≤ s'.count u) :
    (view T K V).Same S s s' :=
  TowerView.same_of_mem (fun x hx => he x fun h => hn (h ▸ hx)) (fun _ _ hx => w.pub_zero hx) hc

/-- What a write does to the levels: nothing, or it links a new node at one
level, or it unlinks a marked node from its highest one. -/
inductive Change (levelmax : ℕ) (t : T) (S : Set (MarkedSkipHeap T K V)) (s s' : MarkedSkipHeap T K V) :
    Prop
  | same : (∀ j x, Lnk j s' x ↔ Lnk j s x) → (∀ j x, Pub j (insert s' S) x ↔ Pub j S x) →
      Change levelmax t S s s'
  | link {m i : ℕ} : (∀ j x, Lnk j s' x ↔ Lnk j s x ∨ j = i ∧ x = .node t m) →
      (∀ j x, Pub j (insert s' S) x ↔ Pub j S x ∨ j = i ∧ x = .node t m) →
      (∀ j < i, Lnk j s (.node t m)) →
      i < s'.toplevel (.node t m) ∧ s'.toplevel (.node t m) ≤ levelmax →
      s'.marked (.node t m) = false → s'.fullylinked (.node t m) = false →
      Change levelmax t S s s'
  | unlink {c : Ptr T} {i : ℕ} : (∀ j x, Lnk j s' x ↔ Lnk j s x ∧ ¬ (j = i ∧ x = c)) →
      (∀ j x, Pub j (insert s' S) x ↔ Pub j S x) → s.lock c = some t → s'.marked c = true →
      (∀ j, i < j → ¬ Lnk j s c) → Change levelmax t S s s'

namespace Act

section

variable (a : Act levelmax t S s s') (w : Wf levelmax S s)

include a w

theorem count (u : T) : s.count u ≤ s'.count u := by
  cases a
  case own hc _ _ => exact hc u
  all_goals exact le_rfl

theorem listed : (view T K V).Listed (insert s' S) s' := by
  have hsame : (view T K V).Same S s s' → (view T K V).Listed (insert s' S) s' :=
    fun h j => (h j).listed (w.listed j)
  cases a with
  | skip => exact hsame (TowerView.same_of_mem (fun _ _ => rfl) (fun _ _ => w.pub_zero) fun _ => le_rfl)
  | free x =>
    exact hsame (TowerView.same_of_mem (fun _ _ => rfl) (fun _ _ => w.pub_zero) fun _ => le_rfl)
  | own hn he hc => exact hsame (w.own_same hn he hc)
  | lock => exact hsame (setLock_same S s _ _)
  | full => exact hsame (setFullylinked_same S s _)
  | mark => exact hsame (setMarked_same S s _)
  | @link p m i _ hp hn hm _ hnq h1 h2 =>
    exact (setNext_swing s p i _).link_listed w.listed hp (w.ne_tail_of_lt h1) hn hnq h1 h2
      ⟨t, m, rfl, hm⟩
  | @unlink p c i _ _ hp hpc _ hpt hct =>
    exact (setNext_swing s p i _).unlink_listed w.listed hp hpt hpc hct

theorem change : Change levelmax t S s s' := by
  have hsame : (view T K V).Same S s s' → Change levelmax t S s s' :=
    fun h => .same (fun j => (h j).lnk (w.listed j)) fun j => (h j).pub (w.listed j)
  cases a with
  | skip => exact hsame (TowerView.same_of_mem (fun _ _ => rfl) (fun _ _ => w.pub_zero) fun _ => le_rfl)
  | free x =>
    exact hsame (TowerView.same_of_mem (fun _ _ => rfl) (fun _ _ => w.pub_zero) fun _ => le_rfl)
  | own hn he hc => exact hsame (w.own_same hn he hc)
  | lock => exact hsame (setLock_same S s _ _)
  | full => exact hsame (setFullylinked_same S s _)
  | mark => exact hsame (setMarked_same S s _)
  | @link p m i _ hp hn hm hd hnq h1 h2 ht htm hmk hf =>
    have hpt := w.ne_tail_of_lt h1
    have hsw := setNext_swing s p i (.node t m)
    refine .link (hsw.link_lnk w.listed hp hpt hn hnq) (hsw.link_pub w.listed hp hpt hn hnq) hd
      ?_ ?_ ?_
    · rw [toplevel_setNext]
      exact ⟨ht, htm⟩
    · rw [marked_setNext]
      exact hmk
    · rw [fullylinked_setNext]
      exact hf
  | @unlink p c i _ hc hp hpc hm hpt hct hup =>
    have hsw := setNext_swing s p i (s.next c i)
    refine .unlink (hsw.unlink_lnk w.listed hp hpt hpc hct) (hsw.unlink_pub w.listed hp hpt hpc hct)
      hc ?_ hup
    rw [marked_setNext]
    exact hm

/-- What it does to a node that has been linked. -/
theorem node (hx : Pub 0 S x) : s'.key x = s.key x ∧ s'.val x = s.val x ∧
    s'.toplevel x = s.toplevel x ∧ (s.marked x = true → s'.marked x = true) ∧
    (s.fullylinked x = true → s'.fullylinked x = true) ∧
    (s.fullylinked x = false → s'.marked x = false) ∧
    (s.lock x = some t ∨ s'.marked x = s.marked x ∧ ∀ i, s'.next x i = s.next x i) := by
  have hwake := w.not_marked hx
  cases a with
  | skip => exact ⟨rfl, rfl, rfl, id, id, hwake, Or.inr ⟨rfl, fun _ => rfl⟩⟩
  | free y => exact ⟨rfl, rfl, rfl, id, id, hwake, Or.inr ⟨rfl, fun _ => rfl⟩⟩
  | own hn he hc =>
    have hm := he x fun h => hn (h ▸ hx)
    simp only [key, val, toplevel, marked, fullylinked, next, hm]
    exact ⟨trivial, trivial, trivial, id, id, hwake, Or.inr ⟨trivial, fun _ => trivial⟩⟩
  | lock => simpa using hwake
  | @link p _ _ hl =>
    simp only [key_setNext, val_setNext, toplevel_setNext, marked_setNext, fullylinked_setNext]
    refine ⟨trivial, trivial, trivial, id, id, hwake, ?_⟩
    by_cases hxp : x = p
    · exact Or.inl (hxp ▸ hl)
    · exact Or.inr ⟨trivial, fun j => next_setNext_of_ne s _ x _ _ j (Or.inl hxp)⟩
  | @full m _ _ hm =>
    simp only [key_setFullylinked, val_setFullylinked, toplevel_setFullylinked,
      marked_setFullylinked, next_setFullylinked]
    refine ⟨trivial, trivial, trivial, id, fun hf => ?_, hwake, Or.inr ⟨trivial, fun _ => trivial⟩⟩
    by_cases hxn : x = .node t m
    · rw [hxn]
      exact fullylinked_setFullylinked_self s _
    · rw [fullylinked_setFullylinked_of_ne s _ x hxn]
      exact hf
  | @mark c hl _ hf =>
    simp only [key_setMarked, val_setMarked, toplevel_setMarked, fullylinked_setMarked,
      next_setMarked]
    by_cases hxc : x = c
    · subst hxc
      refine ⟨trivial, trivial, trivial, fun _ => marked_setMarked_self s x, id, fun h => ?_,
        Or.inl hl⟩
      rw [hf] at h
      cases h
    · rw [marked_setMarked_of_ne s c x hxc]
      exact ⟨trivial, trivial, trivial, id, id, hwake, Or.inr ⟨rfl, fun _ => trivial⟩⟩
  | @unlink p _ _ hl =>
    simp only [key_setNext, val_setNext, toplevel_setNext, marked_setNext, fullylinked_setNext]
    refine ⟨trivial, trivial, trivial, id, id, hwake, ?_⟩
    by_cases hxp : x = p
    · exact Or.inl (hxp ▸ hl)
    · exact Or.inr ⟨trivial, fun j => next_setNext_of_ne s _ x _ _ j (Or.inl hxp)⟩

/-- It takes no lock from another thread, and gives none to one. -/
theorem locks {u : T} (hu : u ≠ t) (x : Ptr T) : s'.lock x = some u ↔ s.lock x = some u := by
  cases a with
  | skip => exact Iff.rfl
  | free => exact Iff.rfl
  | @own _ m hn he _ hl =>
    by_cases hx : x = .node t m
    · rw [hx, hl, w.unlocked hn]
    · rw [MarkedSkipHeap.lock, he x hx]
      rfl
  | @lock y o hy hl ho =>
    rw [lock_setLock]
    split_ifs with hx
    · rw [hx]
      refine iff_of_false ?_ ?_
      · rintro rfl
        rcases ho with ho | ho
        · cases ho
        · exact hu (Option.some.inj ho)
      · intro h
        rcases hl with hl | hl <;> rw [h] at hl
        · cases hl
        · exact hu (Option.some.inj hl)
    · exact Iff.rfl
  | link => rw [lock_setNext]
  | full => rw [lock_setFullylinked]
  | mark => rw [lock_setMarked]
  | unlink => rw [lock_setNext]

/-- A node that has not been linked is its owner's. -/
theorem unpublished (hx : ¬ Pub 0 S x) : s'.mem x = s.mem x ∨ ∃ m, x = .node t m ∧
    s'.lock x = none ∧ s'.fullylinked x = false := by
  cases a with
  | skip => exact Or.inl rfl
  | free => exact Or.inl rfl
  | @own _ m hn he _ hl hf =>
    by_cases h : x = .node t m
    · exact Or.inr ⟨m, h, h ▸ hl, h ▸ hf⟩
    · exact Or.inl (he x h)
  | lock hy => exact Or.inl (s.mem_modify_of_ne _ x _ fun h => hx (h ▸ hy))
  | link _ hp =>
    exact Or.inl (mem_setNext_of_ne s _ x _ _ fun h => hx (h ▸ w.pub_zero ((w.listed _).pub_lnk hp)))
  | full hy => exact Or.inl (s.mem_modify_of_ne _ x _ fun h => hx (h ▸ hy))
  | mark _ hc => exact Or.inl (s.mem_modify_of_ne _ x _ fun h => hx (h ▸ hc))
  | unlink _ _ hp =>
    exact Or.inl (mem_setNext_of_ne s _ x _ _ fun h => hx (h ▸ w.pub_zero ((w.listed _).pub_lnk hp)))

/-- A pointer changes only at a level at which its node is linked, or before
the node is linked at all. -/
theorem next_eq (hx : Pub 0 S x) (hi : ¬ Lnk i s x) : s'.next x i = s.next x i := by
  cases a with
  | skip => rfl
  | free => rfl
  | own hn he => exact congrArg (fun n => n.next i) (he x fun h => hn (h ▸ hx))
  | lock => exact next_setLock ..
  | full => exact next_setFullylinked ..
  | mark => exact next_setMarked ..
  | @link p m k _ hp =>
    refine next_setNext_of_ne s p x _ k i ?_
    by_contra h
    rw [not_or, not_not, not_not] at h
    exact hi (h.1 ▸ h.2 ▸ hp)
  | @unlink p c k _ _ hp =>
    refine next_setNext_of_ne s p x _ k i ?_
    by_contra h
    rw [not_or, not_not, not_not] at h
    exact hi (h.1 ▸ h.2 ▸ hp)

/-- Only its owner makes a node fully linked. -/
theorem half (hf : s.fullylinked x = false) : s'.fullylinked x = false ∨
    ∃ m, x = .node t m ∧ (∀ i < s.toplevel x, Lnk i s x) ∧ s.marked x = false := by
  cases a with
  | skip => exact Or.inl hf
  | free => exact Or.inl hf
  | @own _ m hn he _ _ hf' =>
    by_cases h : x = .node t m
    · exact Or.inl (h ▸ hf')
    · exact Or.inl ((congrArg SlMarked.fullylinked (he x h)).trans hf)
  | lock => exact Or.inl (by rw [fullylinked_setLock]; exact hf)
  | @full m _ hl hm =>
    by_cases h : x = .node t m
    · subst h
      exact Or.inr ⟨m, rfl, hl, hm⟩
    · exact Or.inl ((fullylinked_setFullylinked_of_ne s _ x h).trans hf)
  | mark => exact Or.inl (by rw [fullylinked_setMarked]; exact hf)
  | link => exact Or.inl (by rw [fullylinked_setNext]; exact hf)
  | unlink => exact Or.inl (by rw [fullylinked_setNext]; exact hf)

/-- A node that was linked at a level and is not after it shows what it showed. -/
theorem unlinked (hx : Pub i S x) (hl : ¬ Lnk i s' x) : s'.next x i = s.next x i ∧
    s'.marked x = s.marked x ∧ s'.fullylinked x = s.fullylinked x := by
  cases a with
  | skip => exact ⟨rfl, rfl, rfl⟩
  | free => exact ⟨rfl, rfl, rfl⟩
  | own hn he =>
    have hm := he x fun h => hn (h ▸ w.pub_zero hx)
    simp only [next, marked, fullylinked, hm]
    exact ⟨trivial, trivial, trivial⟩
  | lock => simp
  | @link p m k _ hp hn hm _ hnq h1 =>
    refine ⟨next_setNext_of_ne s p x _ k i ?_, marked_setNext .., fullylinked_setNext ..⟩
    by_contra h
    rw [not_or, not_not, not_not] at h
    obtain ⟨rfl, rfl⟩ := h
    exact hl (((setNext_swing s x i _).link_lnk w.listed hp (w.ne_tail_of_lt h1) hn hnq i x).mpr
      (Or.inl hp))
  | @full m _ hlm =>
    refine ⟨next_setFullylinked .., marked_setFullylinked .., fullylinked_setFullylinked_of_ne s _ x ?_⟩
    rintro rfl
    exact hl (((setFullylinked_same S s _ i).lnk (w.listed i) _).mpr
      (hlm i (w.tall hx nofun nofun).1))
  | @mark c _ _ _ hm =>
    refine ⟨next_setMarked .., marked_setMarked_of_ne s c x ?_, fullylinked_setMarked ..⟩
    rintro rfl
    exact hl (((setMarked_same S s x i).lnk (w.listed i) x).mpr (w.lnk hx hm))
  | @unlink p c k _ _ hp hpc _ hpt hct =>
    refine ⟨next_setNext_of_ne s p x _ k i ?_, marked_setNext .., fullylinked_setNext ..⟩
    by_contra h
    rw [not_or, not_not, not_not] at h
    obtain ⟨rfl, rfl⟩ := h
    refine hl (((setNext_swing s x i _).unlink_lnk w.listed hp hpt hpc hct i x).mpr ⟨hp, ?_⟩)
    rintro ⟨-, rfl⟩
    have hlt := (w.listed i).sorted.step x hp hpt
    rw [show ((view T K V).level i).succ s x = x from hpc] at hlt
    exact lt_irrefl _ hlt

/-- **Every write keeps the skip list well formed.** -/
theorem wf : Wf levelmax (insert s' S) s' := by
  have hold : ∀ {x}, Pub 0 S x → s'.marked x = false → s.marked x = false := by
    intro x hx hm
    by_contra h
    rw [Bool.not_eq_false] at h
    rw [(a.node w hx).2.2.2.1 h] at hm
    cases hm
  refine ⟨a.listed w, fun s₀ hs₀ i j x hj hl => ?_, fun {i x} hx hm => ?_, fun {i x} hx h1 h2 => ?_,
    fun {i x} hx hf hi => ?_, fun {x} hx hm => ?_, ?_, fun {x} hx => ?_, fun {x} hf => ?_⟩
  · rcases Set.mem_insert_iff.mp hs₀ with rfl | hs₀
    · cases a.change w with
      | same hlnk =>
        rw [hlnk] at hl ⊢
        exact w.down s w.mem hj hl
      | link hlnk _ hd =>
        rw [hlnk] at hl ⊢
        rcases hl with hl | ⟨rfl, rfl⟩
        · exact Or.inl (w.down s w.mem hj hl)
        · rcases hj.lt_or_eq with hj | rfl
          · exact Or.inl (hd j hj)
          · exact Or.inr ⟨rfl, rfl⟩
      | @unlink c k hlnk _ _ _ hup =>
        rw [hlnk] at hl ⊢
        refine ⟨w.down s w.mem hj hl.1, ?_⟩
        rintro ⟨rfl, rfl⟩
        rcases hj.lt_or_eq with hj | rfl
        · exact hup i hj hl.1
        · exact hl.2 ⟨rfl, rfl⟩
    · exact w.down s₀ hs₀ hj hl
  · cases a.change w with
    | same hlnk hpub =>
      rw [hpub] at hx
      rw [hlnk]
      exact w.lnk hx (hold (w.pub_zero hx) hm)
    | link hlnk hpub =>
      rw [hpub] at hx
      rw [hlnk]
      exact hx.imp_left fun hx => w.lnk hx (hold (w.pub_zero hx) hm)
    | unlink hlnk hpub _ hmc =>
      rw [hpub] at hx
      rw [hlnk]
      refine ⟨w.lnk hx (hold (w.pub_zero hx) hm), ?_⟩
      rintro ⟨-, rfl⟩
      rw [hmc] at hm
      cases hm
  · have htop : Pub i S x → i < s'.toplevel x ∧ s'.toplevel x ≤ levelmax := by
      intro hx
      rw [(a.node w (w.pub_zero hx)).2.2.1]
      exact w.tall hx h1 h2
    cases a.change w with
    | same _ hpub => exact htop ((hpub i x).mp hx)
    | unlink _ hpub => exact htop ((hpub i x).mp hx)
    | link _ hpub _ ht =>
      rcases (hpub i x).mp hx with hx | ⟨rfl, rfl⟩
      · exact htop hx
      · exact ht
  · have hmono : Pub i S x → Pub i (insert s' S) x := fun h => h.insert s'
    have hpub0 : Pub 0 S x ∨ s'.fullylinked x = false := by
      cases a.change w with
      | same _ hpub => exact Or.inl ((hpub 0 x).mp hx)
      | unlink _ hpub => exact Or.inl ((hpub 0 x).mp hx)
      | link _ hpub _ _ _ hf' =>
        refine ((hpub 0 x).mp hx).imp_right ?_
        rintro ⟨-, rfl⟩
        exact hf'
    have hx0 := hpub0.resolve_right (by rw [hf]; nofun)
    rw [(a.node w hx0).2.2.1] at hi
    rcases hs : s.fullylinked x with _ | _
    · rcases a.half w hs with h | ⟨m, -, hl, -⟩
      · rw [hf] at h
        cases h
      · exact hmono ((w.listed i).pub_lnk (hl i hi))
    · exact hmono (w.full hx0 hs hi)
  · have hold : Pub 0 S x → s'.fullylinked x = true := by
      intro hx0
      rcases hs : s.fullylinked x with _ | _
      · rw [(a.node w hx0).2.2.2.2.2.1 hs] at hm
        cases hm
      · exact (a.node w hx0).2.2.2.2.1 hs
    cases a.change w with
    | same _ hpub => exact hold ((hpub 0 x).mp hx)
    | unlink _ hpub => exact hold ((hpub 0 x).mp hx)
    | link _ hpub _ _ hm' =>
      rcases (hpub 0 x).mp hx with hx | ⟨-, rfl⟩
      · exact hold hx
      · rw [hm'] at hm
        cases hm
  · rw [(a.node w (w.pub_head 0)).2.2.1]
    exact w.head_top
  · have hx' : ¬ Pub 0 S x := fun h => hx (h.insert s')
    rcases a.unpublished w hx' with h | ⟨m, -, h, -⟩
    · exact (congrArg SlMarked.lock h).trans (w.unlocked hx')
    · exact h
  · by_contra hx
    have hx' : ¬ Pub 0 S x := fun h => hx (h.insert s')
    rcases a.unpublished w hx' with h | ⟨m, -, -, h⟩
    · exact hx' (w.linked ((congrArg SlMarked.fullylinked h).symm.trans hf))
    · rw [h] at hf
      cases hf

theorem keeps : Keeps t S s s' := by
  refine ⟨fun hx => (a.node w hx).1, fun hx => (a.node w hx).2.1, fun hx => (a.node w hx).2.2.1,
    fun hx => (a.node w hx).2.2.2.1, fun hx => (a.node w hx).2.2.2.2.1,
    fun hx => (a.node w hx).2.2.2.2.2.1, fun {x} hx => ?_, fun hu x => a.locks w hu x,
    fun {i x} hm hl => ?_, fun {u x} hu hx hl => ?_, fun {u m} hu hx => ?_, fun {u m i} hu hx => ?_, fun {u m} hu hf => ?_,
    a.count w⟩
  · cases a.change w with
    | same _ hpub => exact Or.inl ((hpub 0 x).mp hx)
    | unlink _ hpub => exact Or.inl ((hpub 0 x).mp hx)
    | link _ hpub _ _ _ hf =>
      refine ((hpub 0 x).mp hx).imp_right ?_
      rintro ⟨-, rfl⟩
      exact hf
  · cases a.change w with
    | same hlnk => exact (hlnk i x).mp hl
    | unlink hlnk => exact ((hlnk i x).mp hl).1
    | link hlnk _ _ _ hm' =>
      refine ((hlnk i x).mp hl).resolve_right ?_
      rintro ⟨-, rfl⟩
      rw [hm'] at hm
      cases hm
  · have hne : s.lock x ≠ some t := by
      rw [hl]
      exact fun h => hu (Option.some.inj h)
    obtain ⟨h1, h2⟩ := (a.node w hx).2.2.2.2.2.2.resolve_left hne
    refine ⟨h1, fun i => ⟨h2 i, fun hi => ?_⟩⟩
    cases a.change w with
    | same hlnk => exact (hlnk i x).mpr hi
    | link hlnk => exact (hlnk i x).mpr (Or.inl hi)
    | unlink hlnk _ hc =>
      refine (hlnk i x).mpr ⟨hi, ?_⟩
      rintro ⟨-, rfl⟩
      exact hne hc
  · rcases a.unpublished w hx with h | ⟨m, h, -⟩
    · exact h
    · exact absurd (Ptr.node.inj h).1 hu
  · constructor
    · by_cases h0 : Pub 0 S (.node u m)
      · exact a.next_eq w h0 fun hl => hx ((w.listed i).pub_lnk hl)
      · rcases a.unpublished w h0 with h | ⟨m, h, -⟩
        · exact congrArg (fun n => n.next i) h
        · exact absurd (Ptr.node.inj h).1 hu
    · cases a.change w with
      | same _ hpub => exact fun h => hx ((hpub i _).mp h)
      | unlink _ hpub => exact fun h => hx ((hpub i _).mp h)
      | link _ hpub =>
        intro h
        rcases (hpub i _).mp h with h | ⟨-, h⟩
        · exact hx h
        · exact hu (Ptr.node.inj h).1
  · refine (a.half w hf).resolve_right ?_
    rintro ⟨m, h, -⟩
    exact hu (Ptr.node.inj h).1

theorem hindsight (hW : W ⊆ S) (hh : Hind W s) : Hind (insert s' W) s' := by
  intro i
  refine (hh i).step fun x hx hl => ?_
  obtain ⟨h1, h2, h3⟩ := a.unlinked w (hx.mono hW) hl
  refine Prod.ext h1 ?_
  show (s'.fullylinked x = false ∨ s'.marked x = true) = (s.fullylinked x = false ∨ s.marked x = true)
  rw [h2, h3]

end

end Act

theorem setLock_kept (w : Wf levelmax S s) (x y : Ptr T) (o : Option T) : Kept s (s.setLock x o) y :=
  ⟨marked_setLock .., fun i => ⟨next_setLock .., ((setLock_same S s x o i).lnk (w.listed i) y).mpr⟩⟩

theorem own_kept (w : Wf levelmax S s) {m : ℕ} (hn : ¬ Pub 0 S (.node t m))
    (he : ∀ x, x ≠ .node t m → s'.mem x = s.mem x) (hc : ∀ u, s.count u ≤ s'.count u)
    (hx : Pub 0 S x) : Kept s s' x := by
  have hm := he x fun h => hn (h ▸ hx)
  exact ⟨congrArg SlMarked.marked hm, fun i => ⟨congrArg (fun n => n.next i) hm,
    ((w.own_same hn he hc i).lnk (w.listed i) x).mpr⟩⟩

/-! ### The map -/

section map

variable (w : Wf levelmax S s)

include w

theorem setLock_absMap (x : Ptr T) (o : Option T) : absMap (s.setLock x o) = absMap s := by
  refine (setLock_same S s x o 0).absMap (w.listed 0) fun y _ => ?_
  show (s.setLock x o).fullylinked y = false ∨ (s.setLock x o).marked y = true ↔ _
  rw [fullylinked_setLock, marked_setLock]
  rfl

theorem own_absMap {m : ℕ} (hn : ¬ Pub 0 S (.node t m)) (he : ∀ x, x ≠ .node t m → s'.mem x = s.mem x)
    (hc : ∀ u, s.count u ≤ s'.count u) : absMap s' = absMap s := by
  refine (w.own_same hn he hc 0).absMap (w.listed 0) fun y hy => ?_
  rw [he y fun h => hn (h ▸ (w.listed 0).pub_lnk hy)]

/-- A node that is being linked does not hold its key yet. -/
theorem link_absMap {p n : Ptr T} (hp : Lnk i s p) (hpt : p ≠ .tail) (hn : ¬ Pub i S n)
    (hnq : s.next n i = s.next p i) (hf : s.fullylinked n = false) :
    absMap (s.setNext p i n) = absMap s := by
  by_cases hi : i = 0
  · subst hi
    exact (setNext_swing s p 0 n).level.link_dead_absMap (w.listed 0) hp hpt hn hnq (Or.inl hf)
  · refine ((setNext_swing s p i n).same (Ne.symm hi)).absMap (w.listed 0) fun y _ => ?_
    show (s.setNext p i n).fullylinked y = false ∨ (s.setNext p i n).marked y = true ↔ _
    rw [fullylinked_setNext, marked_setNext]
    rfl

/-- A node that is being unlinked does not hold its key any more. -/
theorem unlink_absMap {p c : Ptr T} (hp : Lnk i s p) (hpt : p ≠ .tail) (hpc : s.next p i = c)
    (hct : c ≠ .tail) (hm : s.marked c = true) : absMap (s.setNext p i (s.next c i)) = absMap s := by
  by_cases hi : i = 0
  · subst hi
    exact (setNext_swing s p 0 (s.next c 0)).level.unlink_dead_absMap (w.listed 0) hp hpt hpc hct
      (Or.inr hm)
  · refine ((setNext_swing s p i _).same (Ne.symm hi)).absMap (w.listed 0) fun y _ => ?_
    show (s.setNext p i _).fullylinked y = false ∨ (s.setNext p i _).marked y = true ↔ _
    rw [fullylinked_setNext, marked_setNext]
    rfl

theorem absent_of_half (hx : Pub 0 S x) (hf : s.fullylinked x = false) :
    absMap s (s.key x) = none :=
  (w.listed 0).absMap_of_dead (w.lnk hx (w.not_marked hx hf)) (Or.inl hf)

theorem present (hx : Pub 0 S x) (hf : s.fullylinked x = true) (hm : s.marked x = false)
    (hx0 : x ≠ .head ∧ x ≠ .tail) : absMap s (s.key x) = some (s.val x) := by
  refine (w.listed 0).absMap_past w.mem ⟨w.lnk hx hm, ?_, hx0⟩
  show ¬ (s.fullylinked x = false ∨ s.marked x = true)
  rw [hf, hm]
  nofun

/-- The store `fullylinked = 1` adds a node's key to the map. -/
theorem full_absMap (hx : Pub 0 S x) (hf : s.fullylinked x = false) (hx0 : x ≠ .head ∧ x ≠ .tail) :
    absMap (s.setFullylinked x) = Function.update (absMap s) (s.key x) (some (s.val x)) := by
  have hm := w.not_marked hx hf
  refine (setFullylinked_same S s x 0).wake (w.listed 0) (w.lnk hx hm) hx0 (Or.inl hf) ?_
    fun y _ hy => ?_
  · show ¬ ((s.setFullylinked x).fullylinked x = false ∨ (s.setFullylinked x).marked x = true)
    rw [fullylinked_setFullylinked_self, marked_setFullylinked, hm]
    nofun
  · show (s.setFullylinked x).fullylinked y = false ∨ (s.setFullylinked x).marked y = true ↔ _
    rw [fullylinked_setFullylinked_of_ne s x y hy, marked_setFullylinked]
    rfl

/-- The store `marked = 1` removes it. -/
theorem mark_absMap (hx : Pub 0 S x) (hf : s.fullylinked x = true) (hm : s.marked x = false)
    (hx0 : x ≠ .head ∧ x ≠ .tail) :
    absMap (s.setMarked x) = Function.update (absMap s) (s.key x) none := by
  have hl : ((view T K V).level 0).Live s x := by
    refine ⟨w.lnk hx hm, ?_, hx0⟩
    show ¬ (s.fullylinked x = false ∨ s.marked x = true)
    rw [hf, hm]
    nofun
  refine (setMarked_same S s x 0).kill (w.listed 0) hl (Or.inr (marked_setMarked_self s x))
    fun y _ hy => ?_
  show (s.setMarked x).fullylinked y = false ∨ (s.setMarked x).marked y = true ↔ _
  rw [fullylinked_setMarked, marked_setMarked_of_ne s x y hy]
  rfl

/-- A key is present exactly while a node with that key is fully linked and not
marked. -/
theorem absMap_iff {k : K} : absMap s k ≠ none ↔ ∃ x, s.fullylinked x = true ∧
    s.marked x = false ∧ (x ≠ .head ∧ x ≠ .tail) ∧ s.key x = k := by
  rw [NodeView.absMap_ne_none]
  refine exists_congr fun x => ⟨?_, ?_⟩
  · rintro ⟨⟨hl, hd, hx0⟩, hk⟩
    have hd : ¬ (s.fullylinked x = false ∨ s.marked x = true) := hd
    rw [not_or, Bool.not_eq_false, Bool.not_eq_true] at hd
    exact ⟨hd.1, hd.2, hx0, hk⟩
  · rintro ⟨hf, hm, hx0, hk⟩
    refine ⟨⟨w.lnk (w.linked hf) hm, ?_, hx0⟩, hk⟩
    show ¬ (s.fullylinked x = false ∨ s.marked x = true)
    rw [hf, hm]
    nofun

end map

/-! ### What a traversal learns -/

/-- The key was absent at some moment of the window. -/
abbrev NoneSeen (W : Set (MarkedSkipHeap T K V)) (k : K) : Prop := ((view T K V).level 0).NoneSeen W k

/-- The key was present with this value at some moment of the window. -/
abbrev SomeSeen (W : Set (MarkedSkipHeap T K V)) (k : K) (v : V) : Prop :=
  ((view T K V).level 0).SomeSeen W k v

/-- Whoever has seen this node without a mark, and sees it fully linked, has
seen its key. -/
def Shown (W : Set (MarkedSkipHeap T K V)) (s : MarkedSkipHeap T K V) (x : Ptr T) : Prop :=
  s.fullylinked x = true → SomeSeen W (s.key x) (s.val x)

/-- Level `i` was seen without the key: a node of more levels that holds the
key now was linked later, or the key is gone again. -/
def Missed (W S : Set (MarkedSkipHeap T K V)) (s : MarkedSkipHeap T K V) (k : K) (i : ℕ) : Prop :=
  ∀ x, Pub 0 S x → s.key x = k → i < s.toplevel x → s.fullylinked x = true →
    s.marked x = true ∨ NoneSeen W k

section learn

variable {k : K} (w : Wf levelmax S s)

include w

theorem noneSeen_of_dead (hW : W ⊆ S) (hh : Hind W s) (hx : Met (Lnk 0) W x)
    (hd : s.fullylinked x = false ∨ s.marked x = true) : NoneSeen W (s.key x) :=
  (w.listed 0).noneSeen_of_dead hW (hh 0) hx hd

theorem pub_of_met (hW : W ⊆ S) (hx : Met (Lnk i) W x) : Pub 0 S x := w.pub_zero (hx.mono hW)

theorem met_down (hW : W ⊆ S) (hx : Met (Lnk i) W x) (hj : j ≤ i) : Met (Lnk j) W x :=
  let ⟨s₀, hs₀, hl⟩ := hx
  ⟨s₀, hs₀, w.down s₀ (hW hs₀) hj hl⟩

/-- One step on along a level. -/
theorem met_next (hW : W ⊆ S) (hh : Hind W s) (hx : Met (Lnk i) W x) (hxt : x ≠ .tail) :
    Met (Lnk i) W (s.next x i) ∧ s.key x < s.key (s.next x i) := by
  refine ⟨(w.listed i).met_succ hW (hh i).hind hx hxt, ?_⟩
  obtain ⟨s₀, hs₀, hl, hv⟩ := (hh i).hind x hx
  have hlt := ((w.listed i).past s₀ (hW hs₀)).step x hl hxt
  have hk1 := ((w.listed i).const s₀ (hW hs₀) x hl).1
  have hk2 := ((w.listed i).const s₀ (hW hs₀) _ (hl.next hxt)).1
  rw [hv] at hk2 hlt
  show ((view T K V).level i).key (s.mem x) < ((view T K V).level i).key (s.mem (s.next x i))
  rw [← hk1]
  exact hlt.trans_eq hk2

/-- The pointer of a linked node leads to the node of the key, or past it. -/
theorem next_eq_of_lnk {c : Ptr T} (hx : Lnk i s x) (hc : Lnk i s c) (h1 : s.key x < s.key c)
    (h2 : s.key c ≤ s.key (s.next x i)) : s.next x i = c :=
  (w.listed i).sorted.next_eq hx hc h1 h2

/-- A node without a mark, whose pointer leads past the key. -/
theorem Missed.of_next (hx : Pub i S x) (hm : s.marked x = false) (h1 : s.key x < k)
    (h2 : k < s.key (s.next x i)) : Missed W S s k i := by
  intro y hy hyk hi hf
  by_contra h
  rw [not_or, Bool.not_eq_true] at h
  exact (w.listed i).sorted.absent (w.lnk hx hm) (w.ne_tail_of_lt h1) h1 h2
    (w.lnk_of_full hy hf h.1 hi) hyk

/-- A node seen without a mark. -/
theorem Shown.of_not_marked (hs : s ∈ W) (hx : Pub 0 S x) (hm : s.marked x = false)
    (hx0 : x ≠ .head ∧ x ≠ .tail) : Shown W s x :=
  fun hf => ⟨s, hs, present w hx hf hm hx0⟩

variable (hk : Keeps t S s s')

include hk

theorem Missed.step (hs : s ∈ W) (h : Missed W S s k i) : Missed (insert s' W) (insert s' S) s' k i := by
  intro x hx hxk hi hf
  have hx := (hk.born hx).resolve_right (by rw [hf]; nofun)
  rw [hk.key hx] at hxk
  rw [hk.top hx] at hi
  rcases hfs : s.fullylinked x with _ | _
  · exact Or.inr (NodeView.NoneSeen.insert ⟨s, hs, hxk ▸ absent_of_half w hx hfs⟩ s')
  · exact (h x hx hxk hi hfs).imp (hk.marks hx) fun h => h.insert s'

theorem Shown.step (w' : Wf levelmax (insert s' S) s') (hx : Pub 0 S x)
    (hx0 : x ≠ .head ∧ x ≠ .tail) (h : Shown W s x) : Shown (insert s' W) s' x := by
  intro hf
  rcases hfs : s.fullylinked x with _ | _
  · exact ⟨s', Set.mem_insert _ _, present w' (hx.insert s') hf (hk.wake hx hfs) hx0⟩
  · rw [hk.key hx, hk.val hx]
    exact (h hfs).insert s'

end learn

/-! ### The empty skip list -/

theorem pub_empty [Zero V] (i : ℕ) (x : Ptr T) :
    Pub i {(empty levelmax : MarkedSkipHeap T K V)} x ↔ x = .head ∨ x = .tail :=
  NodeView.pub_empty (D := (view T K V).level i) rfl x

theorem Wf.initial [Nontrivial K] [Zero V] (levelmax : ℕ) :
    Wf levelmax {(empty levelmax : MarkedSkipHeap T K V)} (empty levelmax) := by
  refine ⟨fun i => .initial rfl rfl rfl, ?_, fun {i x} hx _ => ?_, fun {i x} hx h1 h2 => ?_,
    fun {i x} hx _ _ => ?_, fun {x} hx _ => ?_, rfl, fun {x} _ => by cases x <;> rfl,
    fun {x} hf => ?_⟩
  · rintro s₀ rfl i j x - hl
    exact (NodeView.lnk_empty (D := (view T K V).level j) rfl x).mpr
      ((NodeView.lnk_empty (D := (view T K V).level i) rfl x).mp hl)
  · obtain ⟨s₀, rfl, hl⟩ := hx
    exact hl
  · rcases (pub_empty i x).mp hx with rfl | rfl
    · exact absurd rfl h1
    · exact absurd rfl h2
  · exact (pub_empty i x).mpr ((pub_empty 0 x).mp hx)
  · rcases (pub_empty 0 x).mp hx with rfl | rfl <;> rfl
  · rw [pub_empty]
    cases x <;> simp_all [fullylinked, empty]

theorem empty_absMap [Nontrivial K] [Zero V] (levelmax : ℕ) :
    absMap (empty levelmax : MarkedSkipHeap T K V) = fun _ => none :=
  NodeView.absMap_empty rfl

end MarkedSkipHeap

end Ascylib
