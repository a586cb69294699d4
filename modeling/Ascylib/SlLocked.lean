/-
# Nodes of the skip list with OPTIK locks

`src/aux/sl_locked.h`: a node has a key, a value, its height `toplevel`, a
state, an OPTIK word and one `next` pointer a level. The state is 0 while the
node is being linked, and 1 after that. A node is deleted by its word, and then
unlinked from level 0 up.

Each level is a sorted list. A node holds its key while its state is 1 and it
is not deleted. A pointer that has been linked changes only under the lock of
its node, so a thread that locks a node with the version it read before its
pointer knows the pointer (`Wf.clean`).

A deleted node may be linked at a level and not at a lower one: it leans. Then
the locked predecessor that it had at the lower level has the pointer that it
has, and stands in for it (`StandsIn`), because whoever deleted the node keeps
the locks of its predecessors until it is linked nowhere.
-/
import Ascylib.Levels
import Ascylib.OptikMemory

set_option linter.unusedSectionVars false

namespace Ascylib

open Concur Chain

/-- `state` is whether it is 1; nobody stores 2 in it. -/
structure SlLocked (T K V : Type*) where
  key : K
  val : V
  toplevel : ℕ
  state : Bool
  lock : OptikT
  next : ℕ → Ptr T

abbrev LockedSkipHeap (T K V : Type*) := Memory T (SlLocked T K V)

namespace LockedSkipHeap

variable {T K V : Type*} [DecidableEq T]

def key (s : LockedSkipHeap T K V) (x : Ptr T) : K := (s.mem x).key
def val (s : LockedSkipHeap T K V) (x : Ptr T) : V := (s.mem x).val
def toplevel (s : LockedSkipHeap T K V) (x : Ptr T) : ℕ := (s.mem x).toplevel
def state (s : LockedSkipHeap T K V) (x : Ptr T) : Bool := (s.mem x).state
def lock (s : LockedSkipHeap T K V) (x : Ptr T) : OptikT := (s.mem x).lock

/-- `x->next[i]`. -/
def next (s : LockedSkipHeap T K V) (x : Ptr T) (i : ℕ) : Ptr T := (s.mem x).next i

/-- `x->next[i] = q`. -/
def setNext (s : LockedSkipHeap T K V) (x : Ptr T) (i : ℕ) (q : Ptr T) : LockedSkipHeap T K V :=
  s.modify x fun n => { n with next := Function.update n.next i q }

/-- `x->state = 1`. -/
def setState (s : LockedSkipHeap T K V) (x : Ptr T) : LockedSkipHeap T K V :=
  s.modify x fun n => { n with state := true }

/-- `x->lock = v`. -/
def setLock (s : LockedSkipHeap T K V) (x : Ptr T) (v : OptikT) : LockedSkipHeap T K V :=
  s.modify x fun n => { n with lock := v }

/-- `CAS_U64(&x->lock, old, new) == old`: whether it succeeded, and the memory
after it. -/
def casLock (s : LockedSkipHeap T K V) (x : Ptr T) (old new : OptikT) :
    Bool × LockedSkipHeap T K V :=
  if s.lock x = old then (true, s.setLock x new) else (false, s)

/-- `allocate_sl_locked_unlinked(key, val, .., toplevel, ..)` by thread `t`. It
leaves the `next` pointers as they are; what they hold does not matter. -/
def allocateSlLockedUnlinked (s : LockedSkipHeap T K V) (t : T) (key : K) (val : V)
    (toplevel : ℕ) : LockedSkipHeap T K V × Ptr T :=
  s.allocate t ⟨key, val, toplevel, false, optikInit, fun _ => .null⟩

/-- The constructor: the two sentinels, of all levels, linked at each; their
state stays 0. -/
def empty [Bot K] [Top K] [Zero V] (levelmax : ℕ) : LockedSkipHeap T K V where
  mem
    | .head => ⟨⊥, 0, levelmax, false, optikInit, fun _ => .tail⟩
    | .tail => ⟨⊤, 0, levelmax, false, optikInit, fun _ => .null⟩
    | _ => ⟨⊥, 0, 0, false, optikInit, fun _ => .null⟩
  count := fun _ => 0
  freed := []

theorem casLock_true {s s' : LockedSkipHeap T K V} {x : Ptr T} {old new : OptikT}
    (h : s.casLock x old new = (true, s')) : s.lock x = old ∧ s' = s.setLock x new := by
  unfold casLock at h
  split at h
  · cases h
    exact ⟨‹_›, rfl⟩
  · cases h

theorem casLock_false {s s' : LockedSkipHeap T K V} {x : Ptr T} {old new : OptikT}
    (h : s.casLock x old new = (false, s')) : s' = s := by
  unfold casLock at h
  split at h <;> cases h
  rfl

/-! ### Reading a memory after a write -/

section

variable (s : LockedSkipHeap T K V) (x y q : Ptr T) (i j : ℕ) (v : OptikT)

theorem mem_setNext_of_ne (h : y ≠ x) : (s.setNext x i q).mem y = s.mem y :=
  s.mem_modify_of_ne x y _ h

theorem mem_setLock_of_ne (h : y ≠ x) : (s.setLock x v).mem y = s.mem y :=
  s.mem_modify_of_ne x y _ h

@[simp] theorem key_setNext : (s.setNext x i q).key y = s.key y :=
  s.field_modify x y SlLocked.key fun _ => rfl

@[simp] theorem val_setNext : (s.setNext x i q).val y = s.val y :=
  s.field_modify x y SlLocked.val fun _ => rfl

@[simp] theorem toplevel_setNext : (s.setNext x i q).toplevel y = s.toplevel y :=
  s.field_modify x y SlLocked.toplevel fun _ => rfl

@[simp] theorem state_setNext : (s.setNext x i q).state y = s.state y :=
  s.field_modify x y SlLocked.state fun _ => rfl

@[simp] theorem lock_setNext : (s.setNext x i q).lock y = s.lock y :=
  s.field_modify x y SlLocked.lock fun _ => rfl

@[simp] theorem next_setNext_self : (s.setNext x i q).next x i = q := by simp [setNext, next]

theorem next_setNext_of_ne (h : y ≠ x ∨ j ≠ i) : (s.setNext x i q).next y j = s.next y j := by
  by_cases hy : y = x
  · subst hy
    simp [setNext, next, h.resolve_left fun h => h rfl]
  · rw [next, mem_setNext_of_ne s x y q i hy]
    rfl

@[simp] theorem key_setState : (s.setState x).key y = s.key y :=
  s.field_modify x y SlLocked.key fun _ => rfl

@[simp] theorem val_setState : (s.setState x).val y = s.val y :=
  s.field_modify x y SlLocked.val fun _ => rfl

@[simp] theorem toplevel_setState : (s.setState x).toplevel y = s.toplevel y :=
  s.field_modify x y SlLocked.toplevel fun _ => rfl

@[simp] theorem lock_setState : (s.setState x).lock y = s.lock y :=
  s.field_modify x y SlLocked.lock fun _ => rfl

@[simp] theorem next_setState : (s.setState x).next y i = s.next y i :=
  s.field_modify x y (fun n => n.next i) fun _ => rfl

@[simp] theorem state_setState_self : (s.setState x).state x = true := by
  simp [setState, state]

theorem state_setState_of_ne (h : y ≠ x) : (s.setState x).state y = s.state y :=
  congrArg SlLocked.state (s.mem_modify_of_ne x y _ h)

@[simp] theorem key_setLock : (s.setLock x v).key y = s.key y :=
  s.field_modify x y SlLocked.key fun _ => rfl

@[simp] theorem val_setLock : (s.setLock x v).val y = s.val y :=
  s.field_modify x y SlLocked.val fun _ => rfl

@[simp] theorem toplevel_setLock : (s.setLock x v).toplevel y = s.toplevel y :=
  s.field_modify x y SlLocked.toplevel fun _ => rfl

@[simp] theorem state_setLock : (s.setLock x v).state y = s.state y :=
  s.field_modify x y SlLocked.state fun _ => rfl

@[simp] theorem next_setLock : (s.setLock x v).next y i = s.next y i :=
  s.field_modify x y (fun n => n.next i) fun _ => rfl

@[simp] theorem lock_setLock_self : (s.setLock x v).lock x = v := by simp [setLock, lock]

theorem lock_setLock_of_ne (h : y ≠ x) : (s.setLock x v).lock y = s.lock y :=
  congrArg SlLocked.lock (s.mem_modify_of_ne x y _ h)

end

/-! ### The skip list -/

/-- The skip list of `sl_locked` nodes. -/
abbrev view (T K V : Type*) : TowerView (SlLocked T K V) T K V where
  key := SlLocked.key
  val := SlLocked.val
  next := SlLocked.next
  dead n := n.state = false ∨ n.lock = optikDeleted

/-- The words. What they protect depends on the levels at which a node is
linked (`Wf.clean`). -/
abbrev optik (T K V : Type*) : OptikView (SlLocked T K V) Unit where
  lock := SlLocked.lock
  data _ := ()

/-- The node is linked at level `i`. -/
abbrev Lnk (i : ℕ) (s : LockedSkipHeap T K V) (x : Ptr T) : Prop := (view T K V).Lnk i s x

/-- The node has been linked at level `i`. -/
abbrev Pub (i : ℕ) (S : Set (LockedSkipHeap T K V)) (x : Ptr T) : Prop := Met (Lnk i) S x

/-- The node is linked at level `i` or at one above. -/
def LnkFrom (i : ℕ) (s : LockedSkipHeap T K V) (x : Ptr T) : Prop := ∃ h, i ≤ h ∧ Lnk h s x

/-- The node is linked above level `j`, and not at level `j`. -/
def Leans (j : ℕ) (s : LockedSkipHeap T K V) (x : Ptr T) : Prop := LnkFrom j s x ∧ ¬ Lnk j s x

/-- The lock of the node is taken. -/
structure Locked (s : LockedSkipHeap T K V) (x : Ptr T) : Prop where
  locked : optikIsLocked (s.lock x) = true
  ne_deleted : s.lock x ≠ optikDeleted

/-- The map the skip list stands for: of the nodes linked at level 0 whose state
is 1 and that are not deleted. -/
noncomputable abbrev absMap (s : LockedSkipHeap T K V) : K → Option V :=
  ((view T K V).level 0).absMap s

/-- At each level, the nodes that were met and are unlinked show what they showed. -/
def Hind (W : Set (LockedSkipHeap T K V)) (s : LockedSkipHeap T K V) : Prop :=
  ∀ i, Hindsight (LnkFrom i) (fun s x => (s.next x i, (view T K V).dead (s.mem x))) W s

variable [LinearOrder K]

/-- The node `p` of level `j` leads where `x` leads, past the key of `x`. -/
structure StandsIn (j : ℕ) (s : LockedSkipHeap T K V) (p x : Ptr T) : Prop where
  lnk : Lnk j s p
  lt : s.key p < s.key x
  next : s.next p j = s.next x j
  past : s.key x < s.key (s.next x j)

/-- A locked node stands in for each node that leans. -/
def Standing (s : LockedSkipHeap T K V) : Prop :=
  ∀ {j x}, Leans j s x → ∃ p, Locked s p ∧ StandsIn j s p x

/-- Of the nodes that lean, those of `H` stand in for none but those of `X`. -/
def Clear (s : LockedSkipHeap T K V) (H X : Set (Ptr T)) : Prop :=
  ∀ {p}, p ∈ H → ∀ {j x}, x ∉ X → Leans j s x → ¬ StandsIn j s p x

/-- What a thread has locked, and deleted without having unlinked it. -/
structure Mine (s : LockedSkipHeap T K V) (H X : Set (Ptr T)) : Prop where
  locked : ∀ x ∈ H, Locked s x
  deleted : ∀ x ∈ X, s.lock x = optikDeleted
  clear : Clear s H X

/-- A well-formed skip list, in a run that went through the memories `S`. -/
structure Wf [BoundedOrder K] (levelmax : ℕ) (S : Set (LockedSkipHeap T K V))
    (s : LockedSkipHeap T K V) : Prop where
  listed : (view T K V).Listed S s
  versioned : (optik T K V).Versioned S s
  alloc : ∀ s₀ ∈ S, ∀ {i x}, Lnk i s₀ x → s₀.Allocated x
  clean : ∀ {i x}, optikIsLocked (s.lock x) = false → ∀ s₀ ∈ S, Lnk i s₀ x →
    sections (s₀.lock x) = sections (s.lock x) → s₀.next x i = s.next x i
  down : ∀ {i j x}, Pub i S x → j ≤ i → Pub j S x
  lnk : ∀ {i x}, Pub i S x → s.lock x ≠ optikDeleted → Lnk i s x
  up : ∀ {i x}, Pub i S x → x ≠ .tail → Pub i S (s.next x i) ∧ s.key x < s.key (s.next x i)
  standing : ∀ s₀ ∈ S, Standing s₀
  tall : ∀ {i x}, Pub i S x → x ≠ .head → x ≠ .tail → i < s.toplevel x ∧ s.toplevel x ≤ levelmax
  full : ∀ {i x}, s.state x = true → i < s.toplevel x → Pub i S x
  state : ∀ {x}, s.lock x = optikDeleted → s.state x = true
  inner : ∀ {x}, s.state x = true → x ≠ .head ∧ x ≠ .tail
  fresh : ∀ {x}, ¬ Pub 0 S x → s.lock x = optikInit ∧ s.state x = false
  dels : ∀ s₀ ∈ S, ∀ {x}, s₀.lock x = optikDeleted → s.lock x = optikDeleted
  head_top : s.toplevel .head = levelmax

/-- The writes of thread `t`, which holds the locks of `H` and is to unlink the
nodes of `X`, and of `H'` and `X'` after it. -/
inductive Act (levelmax : ℕ) (t : T) (S : Set (LockedSkipHeap T K V)) (s : LockedSkipHeap T K V)
    (H X : Set (Ptr T)) : Set (Ptr T) → Set (Ptr T) → LockedSkipHeap T K V → Prop
  | skip : Act levelmax t S s H X H X s
  | free (x : Ptr T) : Act levelmax t S s H X H X (s.ssmemFree x)
  | alloc {n : SlLocked T K V} : n.state = false → n.lock = optikInit →
      Act levelmax t S s H X H X (s.allocate t n).1
  | take {x : Ptr T} : Pub 0 S x → optikIsLocked (s.lock x) = false →
      s.lock x + 1 ≠ optikDeleted → Act levelmax t S s H X (insert x H) X (s.setLock x (s.lock x + 1))
  | unlock {x : Ptr T} : x ∈ H → Pub 0 S x → Locked s x → (∀ y ∈ X, ∀ j, ¬ Leans j s y) →
      Act levelmax t S s H X (H \ {x}) X (s.setLock x (s.lock x + 1))
  | delete {c : Ptr T} : Pub 0 S c → optikIsLocked (s.lock c) = false → s.state c = true → X = ∅ →
      Act levelmax t S s H X H {c} (s.setLock c optikDeleted)
  | fill {q : Ptr T} {m i : ℕ} : ¬ Pub i S (.node t m) →
      Act levelmax t S s H X H X (s.setNext (.node t m) i q)
  | link {p : Ptr T} {m i : ℕ} : p ∈ H → Locked s p → Lnk i s p → ¬ Pub i S (.node t m) →
      m < s.count t → (∀ j < i, Pub j S (.node t m)) → s.next (.node t m) i = s.next p i →
      s.key p < s.key (.node t m) → s.key (.node t m) < s.key (s.next p i) →
      i < s.toplevel (.node t m) → s.toplevel (.node t m) ≤ levelmax →
      s.state (.node t m) = false → X = ∅ → Act levelmax t S s H X H X (s.setNext p i (.node t m))
  | valid {m : ℕ} : Pub 0 S (.node t m) → (∀ i < s.toplevel (.node t m), Lnk i s (.node t m)) →
      Act levelmax t S s H X H X (s.setState (.node t m))
  | unlink {p c : Ptr T} {i : ℕ} {X' : Set (Ptr T)} : p ∈ H → Locked s p → Lnk i s p →
      s.next p i = c → s.lock c = optikDeleted → X = {c} → p ≠ .tail → c ≠ .tail →
      X' = X ∨ X' = ∅ ∧ (∀ j, j ≠ i → ¬ Lnk j s c) →
      Act levelmax t S s H X H X' (s.setNext p i (s.next c i))

/-- What a step of thread `t`, which holds the locks of `H` and is to unlink
the nodes of `X`, leaves alone. -/
structure Keeps (t : T) (H X : Set (Ptr T)) (S : Set (LockedSkipHeap T K V))
    (s s' : LockedSkipHeap T K V) : Prop where
  key : ∀ {x}, Pub 0 S x → s'.key x = s.key x
  val : ∀ {x}, Pub 0 S x → s'.val x = s.val x
  top : ∀ {x}, Pub 0 S x → s'.toplevel x = s.toplevel x
  dels : ∀ {x}, s.lock x = optikDeleted → s'.lock x = optikDeleted
  states : ∀ {x}, Pub 0 S x → s.state x = true → s'.state x = true
  locked : ∀ {x}, x ∉ H → Locked s x →
    s'.lock x = s.lock x ∧ ∀ i, Pub i S x → s'.next x i = s.next x i
  still : ∀ {i x}, s.lock x = optikDeleted → Pub i S x → s'.next x i = s.next x i
  gone : ∀ {i x}, s'.lock x = optikDeleted → Lnk i s' x → Lnk i s x
  kept : ∀ {i x}, x ∉ X → Lnk i s x → Lnk i s' x
  others : ∀ {u m}, u ≠ t → ¬ Pub 0 S (.node u m) → s'.mem (.node u m) = s.mem (.node u m)
  above : ∀ {u m i}, u ≠ t → ¬ Pub i S (.node u m) →
    s'.next (.node u m) i = s.next (.node u m) i ∧ ¬ Pub i (insert s' S) (.node u m)
  half : ∀ {u m}, u ≠ t → s.state (.node u m) = false → s'.state (.node u m) = false
  count : ∀ u, s.count u ≤ s'.count u

variable [BoundedOrder K] {levelmax : ℕ} {t u : T} {S W : Set (LockedSkipHeap T K V)}
  {s s' : LockedSkipHeap T K V} {H X H' X' H₁ X₁ : Set (Ptr T)} {x p : Ptr T} {i j : ℕ}

namespace Wf

variable (w : Wf levelmax S s)

include w

theorem mem : s ∈ S := (w.listed 0).mem

theorem pub_zero (hx : Pub i S x) : Pub 0 S x := w.down hx i.zero_le

theorem pub_lnk (hx : Lnk i s x) : Pub i S x := (w.listed i).pub_lnk hx

theorem pub_head (i : ℕ) : Pub i S .head := (w.listed i).pub_head

theorem ne_tail_of_lt {k : K} (h : s.key x < k) : x ≠ .tail := (w.listed 0).ne_tail_of_lt h

theorem ne_head_of_lt {k : K} (h : k < s.key x) : x ≠ .head := (w.listed 0).ne_head_of_lt h

theorem not_deleted (h : s.state x = false) : s.lock x ≠ optikDeleted := fun hd => by
  rw [w.state hd] at h
  cases h

theorem pub_from (h : LnkFrom i s x) : Pub i S x :=
  let ⟨_, hi, hl⟩ := h
  w.down (w.pub_lnk hl) hi

theorem deleted_of_leans (h : Leans j s x) : s.lock x = optikDeleted := by
  by_contra hd
  exact h.2 (w.lnk (w.pub_from h.1) hd)

theorem ne_tail_of_leans (h : Leans j s x) : x ≠ .tail := (w.inner (w.state (w.deleted_of_leans h))).2

/-- Two nodes of a level that lead to one node are one node. -/
theorem next_inj {y : Ptr T} (hx : Lnk i s x) (hy : Lnk i s y) (hxt : x ≠ .tail) (hyt : y ≠ .tail)
    (h : s.next x i = s.next y i) : x = y := by
  have hlt : ∀ {x y}, Lnk i s x → Lnk i s y → y ≠ .tail → s.next x i = s.next y i →
      ¬ s.key x < s.key y := by
    intro x y hx hy hyt h hlt
    have h1 := ((w.listed i).sorted.le_or_next_le hx (w.ne_tail_of_lt hlt) hy).resolve_left
      (not_le.mpr hlt)
    have h2 := (w.listed i).sorted.step y hy hyt
    have h3 : s.key (s.next x i) ≤ s.key y := h1
    have h4 : s.key y < s.key (s.next y i) := h2
    rw [h] at h3
    exact absurd h4 (not_lt.mpr h3)
  rcases lt_trichotomy (s.key x) (s.key y) with h1 | h1 | h1
  · exact absurd h1 (hlt hx hy hyt h)
  · exact (w.listed i).sorted.inj hx hy h1
  · exact absurd h1 (hlt hy hx hxt h.symm)

theorem stander_ne_tail (h : StandsIn j s p x) : p ≠ .tail :=
  w.ne_tail_of_lt h.lt

/-- Only one node stands in for a node, and it is locked. -/
theorem locked_of_stands (hx : Leans j s x) (h : StandsIn j s p x) : Locked s p := by
  obtain ⟨q, hq, hs⟩ := w.standing s w.mem hx
  have he : q = p := w.next_inj hs.lnk h.lnk (w.stander_ne_tail hs) (w.stander_ne_tail h)
    (hs.next.trans h.next.symm)
  exact he ▸ hq

theorem pub_of_locked (h : Locked s x) : Pub 0 S x := by
  by_contra hn
  have := h.locked
  rw [(w.fresh hn).1, optikInit_unlocked] at this
  cases this

/-- A locked node is linked where it has been. -/
theorem lnk_of_locked (h : Locked s x) (hx : Pub i S x) : Lnk i s x := w.lnk hx h.ne_deleted

end Wf

end LockedSkipHeap

end Ascylib
