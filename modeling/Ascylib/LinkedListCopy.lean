/-
# The copy-on-write list

`src/algorithms/linkedlist_copy.h`, one local state for each access to shared
memory. `search` reads the array that `cow->array` points to at one moment.
`insert` and `remove` copy that array under the lock and then let `cow->array`
point to the copy; with `RO_FAIL` they first search, and answer from the search
if there is nothing to do.

`insert` and `remove` copy slot by slot in the same way, so their loops share
the local states: `i` is the slot of `all_old` and `n` the slot of `all_new`,
which in `insert` is `i` as well.

An array that `cow->array` has pointed to stays as it is, and a call that
changes nothing answers from an array that was the list at some moment of the
call.

Key definitions: `CopyOnWrite`, `LinkedListCopy.step`, `LinkedListCopy.Wf`.
Key theorem: `LinkedListCopy.copy_list`.
-/
import Ascylib.LlArray
import Ascylib.LockIf
import Ascylib.Memory
import Ascylib.Search

set_option linter.unusedSectionVars false

namespace Ascylib

open Concur

/-- `copy_on_write`, with the arrays. -/
structure CopyOnWrite (T K V Λ : Type*) where
  memory : Memory T (LlArray K V)
  array : Ptr T
  lock : Λ

namespace LinkedListCopy

variable {T K V Λ : Type*} [DecidableEq T] [DecidableEq K] [Zero V] [DecidableEq V]

/-- The local variables of the loops that copy. -/
structure Copying (T V : Type*) where
  allOld : Ptr T
  allNew : Ptr T
  i : ℕ
  n : ℕ
  removed : V

/-- Where a call is, with the local variables that are live there. -/
inductive Pc (T K V : Type*) where
  /-- `search`: `current_list = cow->array` -/
  | searchList
  /-- `i < current_list->size` -/
  | searchSize (currentList : Ptr T) (i : ℕ)
  /-- `current_list->nodes[i].key == key` -/
  | searchKey (currentList : Ptr T) (i : ℕ)
  /-- `return current_list->nodes[i].val` -/
  | searchVal (currentList : Ptr T) (i : ℕ)
  /-- `LOCK_A(cow->lock)` -/
  | lock
  /-- `all_old = cow->array` -/
  | loadOld
  /-- `all_old->size` in the call of `allocate_ll_array` -/
  | loadSize (allOld : Ptr T)
  /-- `all_new = allocate_ll_array(size)` -/
  | alloc (allOld : Ptr T) (size : ℕ)
  /-- `i < all_old->size` -/
  | size (x : Copying T V)
  /-- `all_old->nodes[i].key == key` -/
  | key (x : Copying T V)
  /-- `remove`: `removed = all_old->nodes[i].val` -/
  | removed (x : Copying T V)
  /-- `all_old->nodes[i].key` in `all_new->nodes[n].key = all_old->nodes[i].key` -/
  | loadKey (x : Copying T V)
  /-- `all_new->nodes[n].key = k`, where `k` is what was read -/
  | setKey (x : Copying T V) (k : K)
  /-- `all_old->nodes[i].val` in `all_new->nodes[n].val = all_old->nodes[i].val` -/
  | loadVal (x : Copying T V)
  /-- `all_new->nodes[n].val = v`, where `v` is what was read -/
  | setVal (x : Copying T V) (v : V)
  /-- `insert`: `all_new->nodes[i].key = key` -/
  | lastKey (x : Copying T V)
  /-- `insert`: `all_new->nodes[i].val = value` -/
  | lastVal (x : Copying T V)
  /-- `cow->array = all_new`, in a call that will return `r` -/
  | publish (x : Copying T V) (r : Answer V)
  /-- `UNLOCK_A(cow->lock)` -/
  | unlock (toDelete : Ptr T) (r : Answer V)
  /-- `cpy_delete_copy(alloc, to_delete)` -/
  | delete (toDelete : Ptr T) (r : Answer V)
  /-- `return r` -/
  | done (r : Answer V)

/-- `all_old->size - 1`, of type `size_t`. -/
def sizePred (size : ℕ) : ℕ := if size = 0 then 2 ^ 64 - 1 else size - 1

/-- The size that a call asks `allocate_ll_array` for. -/
def newSize : Call K V → ℕ → ℕ
  | .insert _ _, size => size + 1
  | .search _, size | .remove _, size => sizePred size

/-- What follows the value that `search(key)` returned. -/
def searched : Call K V → V → Pc T K V
  | .search _, v => .done (.val v)
  | .insert _ _, v => if v ≠ 0 then .done (.flag false) else .lock
  | .remove _, v => if v = 0 then .done (.val 0) else .lock

/-- `all_old->nodes[i].key == key` holds: `insert` gives up, and `remove` takes the value. -/
def matched (x : Copying T V) : Call K V → Pc T K V
  | .insert _ _ => .unlock x.allNew (.flag false)
  | .search _ | .remove _ => .removed x

/-- What follows the loop. -/
def copied (x : Copying T V) : Call K V → Pc T K V
  | .insert _ _ => .lastKey x
  | .search _ | .remove _ =>
    if x.removed ≠ 0 then .publish x (.val x.removed) else .unlock x.allNew (.val x.removed)

def start (roFail : Bool) : Call K V → Pc T K V
  | .search _ => .searchList
  | .insert _ _ | .remove _ => if roFail then .searchList else .lock

/-- The value of an `insert`. -/
def value : Call K V → V
  | .insert _ v => v
  | _ => 0

/-- The next access to shared memory, and what follows from it; `malloc` gives
memory with any content. -/
def step (A : LockOps T Λ) (garbage : ℕ → NodeLl K V) (me : T) (s : CopyOnWrite T K V Λ)
    (op : Call K V) : Pc T K V → Option (CopyOnWrite T K V Λ × Pc T K V)
  | .searchList => some (s, .searchSize s.array 0)
  | .searchSize currentList i =>
    some (s, if i < (s.memory.mem currentList).size then .searchKey currentList i else searched op 0)
  | .searchKey currentList i =>
    some (s, if ((s.memory.mem currentList).nodes i).key = op.key then .searchVal currentList i
      else .searchSize currentList (i + 1))
  | .searchVal currentList i => some (s, searched op ((s.memory.mem currentList).nodes i).val)
  | .lock => (A.lock me s.lock).map fun w => ({ s with lock := w }, .loadOld)
  | .loadOld => some (s, .loadSize s.array)
  | .loadSize allOld => some (s, .alloc allOld (newSize op (s.memory.mem allOld).size))
  | .alloc allOld size =>
    let (memory, allNew) := s.memory.allocate me ⟨size, garbage⟩
    some ({ s with memory := memory }, .size ⟨allOld, allNew, 0, 0, 0⟩)
  | .size x => some (s, if x.i < (s.memory.mem x.allOld).size then .key x else copied x op)
  | .key x =>
    some (s, if ((s.memory.mem x.allOld).nodes x.i).key = op.key then matched x op else .loadKey x)
  | .removed x =>
    -- `n--; continue;`, and then `i++, n++`
    some (s, .size { x with i := x.i + 1, removed := ((s.memory.mem x.allOld).nodes x.i).val })
  | .loadKey x => some (s, .setKey x ((s.memory.mem x.allOld).nodes x.i).key)
  | .setKey x k =>
    some ({ s with memory := s.memory.modify x.allNew fun a => a.setKey x.n k }, .loadVal x)
  | .loadVal x => some (s, .setVal x ((s.memory.mem x.allOld).nodes x.i).val)
  | .setVal x v =>
    some ({ s with memory := s.memory.modify x.allNew fun a => a.setVal x.n v },
      .size { x with i := x.i + 1, n := x.n + 1 })
  | .lastKey x =>
    some ({ s with memory := s.memory.modify x.allNew fun a => a.setKey x.i op.key }, .lastVal x)
  | .lastVal x =>
    some ({ s with memory := s.memory.modify x.allNew fun a => a.setVal x.i (value op) },
      .publish x (.flag true))
  | .publish x r => some ({ s with array := x.allNew }, .unlock x.allOld r)
  | .unlock toDelete r => some ({ s with lock := A.unlock me s.lock }, .delete toDelete r)
  | .delete toDelete r => some ({ s with memory := s.memory.ssmemFree toDelete }, .done r)
  | .done r => some (s, .done r)

def result : Pc T K V → Option (Answer V)
  | .done r => some r
  | _ => none

/-- Values other than 0. -/
def Valued (op : Call K V) : Prop := ∀ k v, op = .insert k v → v ≠ 0

/-- The constructor, with the lock as `INIT_LOCK_A` leaves it. -/
def empty (lock : Λ) (nodes : ℕ → NodeLl K V) : CopyOnWrite T K V Λ :=
  ⟨⟨fun _ => ⟨0, nodes⟩, fun _ => 0, []⟩, .head, lock⟩

/-- The list in the build with this `RO_FAIL`. -/
def program (A : LockOps T Λ) (lock : Λ) (nodes : ℕ → NodeLl K V) (roFail : Bool) :
    Program T (Call K V) (Answer V) (CopyOnWrite T K V Λ) (Pc T K V) (ℕ → NodeLl K V) where
  init := empty lock nodes
  pre := Valued
  start := start roFail
  step garbage me s op l := step A garbage me s op l
  result := result

/-! ### The lock -/

/-- The thread is between `LOCK_A` and `UNLOCK_A`. -/
def Inside : Pc T K V → Prop
  | .loadOld | .loadSize _ | .alloc _ _ | .size _ | .key _ | .removed _ | .loadKey _ | .setKey _ _
  | .loadVal _ | .setVal _ _ | .lastKey _ | .lastVal _ | .publish _ _ | .unlock _ _ => True
  | _ => False

variable {A : LockOps T Λ} {garbage : ℕ → NodeLl K V} {me : T} {s s' : CopyOnWrite T K V Λ}
  {op : Call K V} {l l' : Pc T K V}

theorem not_inside_searched (v : V) : ¬ Inside (searched op v : Pc T K V) := by
  cases op with
  | search k => exact id
  | _ => by_cases hv : v = 0 <;> simp [searched, hv, Inside]

theorem inside_matched (x : Copying T V) : Inside (matched x op : Pc T K V) := by
  cases op <;> trivial

theorem inside_copied (x : Copying T V) : Inside (copied x op : Pc T K V) := by
  cases op with
  | insert k v => trivial
  | _ => by_cases hx : x.removed = 0 <;> simp [copied, hx, Inside]

theorem step_lock (h : step A garbage me s op l = some (s', l')) :
    (l = .lock ∧ A.lock me s.lock = some s'.lock ∧ Inside l') ∨
    (Inside l ∧ ¬ Inside l' ∧ s'.lock = A.unlock me s.lock) ∨
    (l ≠ .lock ∧ s'.lock = s.lock ∧ (Inside l' ↔ Inside l)) := by
  cases l with
  | lock =>
    obtain ⟨w, hw, he⟩ := Option.map_eq_some_iff.mp h
    cases he
    exact Or.inl ⟨rfl, hw, trivial⟩
  | unlock toDelete r =>
    cases h
    exact Or.inr (Or.inl ⟨trivial, id, rfl⟩)
  | searchSize currentList i =>
    cases h
    refine Or.inr (Or.inr ⟨nofun, rfl, iff_of_false ?_ id⟩)
    split
    · exact id
    · exact not_inside_searched 0
  | searchKey currentList i =>
    cases h
    refine Or.inr (Or.inr ⟨nofun, rfl, iff_of_false ?_ id⟩)
    split <;> exact id
  | searchVal currentList i =>
    cases h
    exact Or.inr (Or.inr ⟨nofun, rfl, iff_of_false (not_inside_searched _) id⟩)
  | size x =>
    cases h
    refine Or.inr (Or.inr ⟨nofun, rfl, iff_of_true ?_ trivial⟩)
    split
    · trivial
    · exact inside_copied x
  | key x =>
    cases h
    refine Or.inr (Or.inr ⟨nofun, rfl, iff_of_true ?_ trivial⟩)
    split
    · exact inside_matched x
    · trivial
  | _ =>
    cases h
    exact Or.inr (Or.inr ⟨nofun, rfl, Iff.rfl⟩)

/-- How the list uses its lock, whatever its clients do. -/
def lockUse (A : LockOps T Λ) (lock : Λ) (nodes : ℕ → NodeLl K V) (roFail : Bool)
    (pre : Call K V → Prop) : LockUse A { program A lock nodes roFail with pre := pre } where
  word s := s.lock
  Asks l := l = .lock
  Holds := Inside
  start op := by cases op <;> cases roFail <;> exact id
  result := by
    intro l r h
    cases l <;> cases h
    exact ⟨nofun, id⟩
  apart := by
    rintro l rfl
    exact id
  step h := step_lock h
  enter := by
    rintro t s l w i op rfl hw
    have hs : step A i t s op .lock = some ({ s with lock := w }, .loadOld) := by simp [step, hw]
    exact Option.isSome_iff_exists.mpr ⟨_, hs⟩

/-! ### What the list holds -/

/-- The entries of the list. -/
def content (s : CopyOnWrite T K V Λ) : List (NodeLl K V) := (s.memory.mem s.array).entries

/-- The map the list stands for. -/
def absMap (s : CopyOnWrite T K V Λ) : K → Option V := valOf (content s)

/-- `length()` -/
def length (s : CopyOnWrite T K V Λ) : ℕ := (s.memory.mem s.array).size

/-- **`length` returns the number of keys.** -/
theorem length_eq (h : Sound (content s)) : length s = {k | absMap s k ≠ none}.ncard := by
  have hset : {k | absMap s k ≠ none} = ((content s).map NodeLl.key).toFinset := by
    ext k
    simp [absMap, valOf_eq_none]
  rw [hset, Set.ncard_coe_finset, List.toFinset_card_of_nodup h.nodup, List.length_map, content,
    LlArray.entries, LlArray.length_slots, length]

/-- The array has never been the list. -/
structure Private (S : Set (CopyOnWrite T K V Λ)) (s : CopyOnWrite T K V Λ) (x : Ptr T) : Prop where
  allocated : s.memory.Allocated x
  never : ∀ s₀ ∈ S, s₀.array ≠ x

/-- A well-formed list, in a run that went through `S`: every array that was the
list is sound, and as it was then. -/
structure Wf (S : Set (CopyOnWrite T K V Λ)) (s : CopyOnWrite T K V Λ) : Prop where
  sound : ∀ s₀ ∈ S, Sound (content s₀)
  allocated : ∀ s₀ ∈ S, s.memory.Allocated s₀.array
  still : ∀ s₀ ∈ S, s.memory.mem s₀.array = s₀.memory.mem s₀.array

/-- What a step at `l` may do to the arrays. -/
inductive Act (S : Set (CopyOnWrite T K V Λ)) (s : CopyOnWrite T K V Λ) (l : Pc T K V) :
    CopyOnWrite T K V Λ → Prop
  | read {w : Λ} {freed : List (Ptr T)} :
      Act S s l { s with memory := { s.memory with freed := freed }, lock := w }
  | alloc {t : T} {a : LlArray K V} : Act S s l { s with memory := (s.memory.allocate t a).1 }
  | write {x : Ptr T} {f : LlArray K V → LlArray K V} : Inside l → Private S s x →
      Act S s l { s with memory := s.memory.modify x f }
  | publish {x : Ptr T} : Inside l → s.memory.Allocated x → Sound (s.memory.mem x).entries →
      Act S s l { s with array := x }

/-- What the step of another thread leaves alone. -/
structure Keeps (s s' : CopyOnWrite T K V Λ) : Prop where
  array : s'.array = s.array
  allocated : ∀ x, s.memory.Allocated x → s'.memory.Allocated x
  mem : ∀ x, s.memory.Allocated x → s'.memory.mem x = s.memory.mem x

section act

variable {S W : Set (CopyOnWrite T K V Λ)} {x : Ptr T}

theorem fresh_ne {t : T} (h : s.memory.Allocated x) : x ≠ .node t (s.memory.count t) := by
  rintro rfl
  exact s.memory.not_allocated_next t h

theorem Act.allocated (h : Act S s l s') (hx : s.memory.Allocated x) : s'.memory.Allocated x := by
  cases h with
  | read => exact hx
  | alloc => exact hx.mono fun u => s.memory.count_le_allocate _ _ u
  | write => exact hx
  | publish => exact hx

/-- Arrays that have been the list stay as they are. -/
theorem Act.mem (h : Act S s l s') (w : Wf S s) {s₀ : CopyOnWrite T K V Λ} (h₀ : s₀ ∈ S) :
    s'.memory.mem s₀.array = s.memory.mem s₀.array := by
  cases h with
  | read => rfl
  | alloc => exact s.memory.mem_allocate_of_ne _ _ _ (fresh_ne (w.allocated s₀ h₀))
  | write _ hx => exact s.memory.mem_modify_of_ne _ _ _ (hx.never s₀ h₀)
  | publish => rfl

theorem Act.keeps (h : Act S s l s') (hl : ¬ Inside l) : Keeps s s' where
  array := by
    cases h with
    | publish hi => exact absurd hi hl
    | _ => rfl
  allocated _ hx := h.allocated hx
  mem x hx := by
    cases h with
    | read => rfl
    | alloc => exact s.memory.mem_allocate_of_ne _ _ _ (fresh_ne hx)
    | write hi => exact absurd hi hl
    | publish hi => exact absurd hi hl

theorem Act.wf (h : Act S s l s') (w : Wf S s) (hs : s ∈ S) : Wf (insert s' S) s' := by
  have harr : s'.memory.Allocated s'.array ∧ Sound (content s') := by
    have hmem := h.mem w hs
    have hall := h.allocated (w.allocated s hs)
    have hsound := w.sound s hs
    cases h with
    | publish _ hx hsnd => exact ⟨hx, hsnd⟩
    | _ => exact ⟨hall, by rwa [content, hmem]⟩
  constructor
  · rintro s₀ (rfl | h₀)
    · exact harr.2
    · exact w.sound s₀ h₀
  · rintro s₀ (rfl | h₀)
    · exact harr.1
    · exact h.allocated (w.allocated s₀ h₀)
  · rintro s₀ (rfl | h₀)
    · rfl
    · exact (h.mem w h₀).trans (w.still s₀ h₀)

theorem Private.insert (h : Private S s x) (ha : s'.memory.Allocated x) (hne : s'.array ≠ x) :
    Private (insert s' S) s' x := by
  refine ⟨ha, ?_⟩
  rintro s₀ (rfl | h₀)
  · exact hne
  · exact h.never s₀ h₀

end act

/-! ### The assertions -/

/-- The answer of a call that changed the map. -/
def effective : Call K V → Answer V → Bool
  | .insert _ _, .flag b => b
  | .remove _, .val v => v ≠ 0
  | _, _ => false

/-- The call changed the map, or its answer is right for some moment of its window. -/
def Answered (W : Set (CopyOnWrite T K V Λ)) (op : Call K V) (r : Answer V) : Prop :=
  effective op r = true ∨ ∃ s₀ ∈ W, (mapObject K V).apply op (absMap s₀) = (absMap s₀, r)

/-- The array was the list in the window, and its first `i` slots hold other keys. -/
structure Searched (W : Set (CopyOnWrite T K V Λ)) (s : CopyOnWrite T K V Λ) (op : Call K V)
    (currentList : Ptr T) (i : ℕ) : Prop where
  window : ∃ s₀ ∈ W, s₀.array = currentList
  le : i ≤ (s.memory.mem currentList).size
  other : valOf ((s.memory.mem currentList).slots i) op.key = none

/-- The call is an `insert` or a `remove`. -/
def Writes (op : Call K V) : Prop := ∀ k, op ≠ .search k

/-- The loop has copied the first `i` slots, without the key. -/
structure Copied (S : Set (CopyOnWrite T K V Λ)) (s : CopyOnWrite T K V Λ) (op : Call K V)
    (x : Copying T V) : Prop where
  writes : Writes op
  old : x.allOld = s.array
  new : Private S s x.allNew
  le : x.i ≤ (s.memory.mem x.allOld).size
  size : (s.memory.mem x.allNew).size = newSize op (s.memory.mem x.allOld).size
  slots : (s.memory.mem x.allNew).slots x.n = without ((s.memory.mem x.allOld).slots x.i) op.key
  removed : x.removed = (valOf ((s.memory.mem x.allOld).slots x.i) op.key).getD 0
  other : ∀ k v, op = .insert k v → valOf ((s.memory.mem x.allOld).slots x.i) k = none

/-- The copy is what the call makes of the list. -/
structure Ready (S : Set (CopyOnWrite T K V Λ)) (s : CopyOnWrite T K V Λ) (op : Call K V)
    (x : Copying T V) (r : Answer V) : Prop where
  old : x.allOld = s.array
  new : Private S s x.allNew
  sound : Sound (s.memory.mem x.allNew).entries
  effective : effective op r = true
  apply : (mapObject K V).apply op (absMap s) = (valOf (s.memory.mem x.allNew).entries, r)

/-- What holds at each local state. -/
def At (S W : Set (CopyOnWrite T K V Λ)) (s : CopyOnWrite T K V Λ) (op : Call K V) :
    Pc T K V → Prop
  | .searchList => True
  | .searchSize currentList i => Searched W s op currentList i
  | .searchKey currentList i =>
    Searched W s op currentList i ∧ i < (s.memory.mem currentList).size
  | .searchVal currentList i =>
    Searched W s op currentList i ∧ i < (s.memory.mem currentList).size ∧
      ((s.memory.mem currentList).nodes i).key = op.key
  | .lock => Writes op
  | .loadOld => Writes op
  | .loadSize allOld => Writes op ∧ allOld = s.array
  | .alloc allOld size =>
    Writes op ∧ allOld = s.array ∧ size = newSize op (s.memory.mem allOld).size
  | .size x => Copied S s op x
  | .key x => Copied S s op x ∧ x.i < (s.memory.mem x.allOld).size
  | .removed x =>
    Copied S s op x ∧ x.i < (s.memory.mem x.allOld).size ∧
      ((s.memory.mem x.allOld).nodes x.i).key = op.key ∧ op = .remove op.key
  | .loadKey x =>
    Copied S s op x ∧ x.i < (s.memory.mem x.allOld).size ∧
      ((s.memory.mem x.allOld).nodes x.i).key ≠ op.key
  | .setKey x k =>
    Copied S s op x ∧ x.i < (s.memory.mem x.allOld).size ∧
      ((s.memory.mem x.allOld).nodes x.i).key ≠ op.key ∧
      ((s.memory.mem x.allOld).nodes x.i).key = k
  | .loadVal x =>
    Copied S s op x ∧ x.i < (s.memory.mem x.allOld).size ∧
      ((s.memory.mem x.allOld).nodes x.i).key ≠ op.key ∧
      ((s.memory.mem x.allNew).nodes x.n).key = ((s.memory.mem x.allOld).nodes x.i).key
  | .setVal x v =>
    Copied S s op x ∧ x.i < (s.memory.mem x.allOld).size ∧
      ((s.memory.mem x.allOld).nodes x.i).key ≠ op.key ∧
      ((s.memory.mem x.allNew).nodes x.n).key = ((s.memory.mem x.allOld).nodes x.i).key ∧
      ((s.memory.mem x.allOld).nodes x.i).val = v
  | .lastKey x =>
    Copied S s op x ∧ x.i = (s.memory.mem x.allOld).size ∧ op = .insert op.key (value op)
  | .lastVal x =>
    Copied S s op x ∧ x.i = (s.memory.mem x.allOld).size ∧ op = .insert op.key (value op) ∧
      ((s.memory.mem x.allNew).nodes x.i).key = op.key
  | .publish x r => Ready S s op x r
  | .unlock _ r | .delete _ r | .done r => Answered W op r

/-- The result of a call that has taken effect. -/
def lin (_ : CopyOnWrite T K V Λ) (op : Call K V) : Pc T K V → Option (Answer V)
  | .unlock _ r | .delete _ r | .done r => if effective op r then some r else none
  | _ => none

section stable

variable {S W : Set (CopyOnWrite T K V Λ)} {x : Copying T V} {r : Answer V} {currentList : Ptr T}
  {i : ℕ}

theorem Answered.insert (h : Answered W op r) (s' : CopyOnWrite T K V Λ) :
    Answered (insert s' W) op r :=
  h.imp_right fun ⟨s₀, h₀, h⟩ => ⟨s₀, Set.mem_insert_of_mem _ h₀, h⟩

/-- What a search has seen stays, in an array that was the list. -/
theorem Searched.keeps (h : Searched W s op currentList i)
    (hm : ∀ s₀ ∈ W, s'.memory.mem s₀.array = s.memory.mem s₀.array) :
    Searched (insert s' W) s' op currentList i ∧
      s'.memory.mem currentList = s.memory.mem currentList := by
  obtain ⟨⟨s₀, h₀, rfl⟩, hle, hoth⟩ := h
  have he := hm s₀ h₀
  exact ⟨⟨⟨s₀, Set.mem_insert_of_mem _ h₀, rfl⟩, by rwa [he], by rwa [he]⟩, he⟩

/-- A copy under way stays, while nobody else writes. -/
theorem Copied.keeps (h : Copied S s op x) (w : Wf S s) (hs : s ∈ S) (hk : Keeps s s') :
    Copied (insert s' S) s' op x ∧ s'.memory.mem x.allOld = s.memory.mem x.allOld ∧
      s'.memory.mem x.allNew = s.memory.mem x.allNew := by
  have hold : s'.memory.mem x.allOld = s.memory.mem x.allOld :=
    hk.mem _ (h.old ▸ w.allocated s hs)
  have hnew : s'.memory.mem x.allNew = s.memory.mem x.allNew := hk.mem _ h.new.allocated
  refine ⟨⟨h.writes, h.old.trans hk.array.symm, h.new.insert (hk.allocated _ h.new.allocated) ?_,
    ?_, ?_, ?_, ?_, fun k v he => ?_⟩, hold, hnew⟩
  · rw [hk.array]
    exact h.new.never s hs
  · rw [hold]
    exact h.le
  · rw [hold, hnew]
    exact h.size
  · rw [hold, hnew]
    exact h.slots
  · rw [hold]
    exact h.removed
  · rw [hold]
    exact h.other k v he

theorem Ready.keeps (h : Ready S s op x r) (w : Wf S s) (hs : s ∈ S) (hk : Keeps s s') :
    Ready (insert s' S) s' op x r := by
  have hnew : s'.memory.mem x.allNew = s.memory.mem x.allNew := hk.mem _ h.new.allocated
  have habs : absMap s' = absMap s := by
    rw [absMap, absMap, content, content, hk.array, hk.mem _ (w.allocated s hs)]
  refine ⟨h.old.trans hk.array.symm, h.new.insert (hk.allocated _ h.new.allocated) ?_, ?_,
    h.effective, ?_⟩
  · rw [hk.array]
    exact h.new.never s hs
  · rw [hnew]
    exact h.sound
  · rw [hnew, habs]
    exact h.apply

/-- The assertions are stable, if nobody else writes while the thread has the lock. -/
theorem At.keeps (h : At S W s op l) (w : Wf S s) (hs : s ∈ S) (hin : Inside l → Keeps s s')
    (hm : ∀ s₀ ∈ W, s'.memory.mem s₀.array = s.memory.mem s₀.array) :
    At (insert s' S) (insert s' W) s' op l := by
  cases l with
  | searchList => trivial
  | searchSize currentList i => exact (Searched.keeps h hm).1
  | searchKey currentList i =>
    obtain ⟨h1, h2⟩ := h
    obtain ⟨h1, he⟩ := h1.keeps hm
    exact ⟨h1, by rwa [he]⟩
  | searchVal currentList i =>
    obtain ⟨h1, h2, h3⟩ := h
    obtain ⟨h1, he⟩ := h1.keeps hm
    exact ⟨h1, by rwa [he], by rwa [he]⟩
  | lock => exact h
  | loadOld => exact h
  | loadSize allOld => exact ⟨h.1, h.2.trans (hin trivial).array.symm⟩
  | alloc allOld size =>
    obtain ⟨h1, rfl, h3⟩ := h
    exact ⟨h1, (hin trivial).array.symm, by rw [(hin trivial).mem _ (w.allocated s hs)]; exact h3⟩
  | size x => exact (Copied.keeps h w hs (hin trivial)).1
  | key x =>
    obtain ⟨h1, h2⟩ := h
    obtain ⟨h1, he, -⟩ := h1.keeps w hs (hin trivial)
    exact ⟨h1, by rwa [he]⟩
  | removed x =>
    obtain ⟨h1, h2, h3, h4⟩ := h
    obtain ⟨h1, he, -⟩ := h1.keeps w hs (hin trivial)
    exact ⟨h1, by rwa [he], by rwa [he], h4⟩
  | loadKey x =>
    obtain ⟨h1, h2, h3⟩ := h
    obtain ⟨h1, he, -⟩ := h1.keeps w hs (hin trivial)
    exact ⟨h1, by rwa [he], by rwa [he]⟩
  | setKey x k =>
    obtain ⟨h1, h2, h3, h4⟩ := h
    obtain ⟨h1, he, -⟩ := h1.keeps w hs (hin trivial)
    exact ⟨h1, by rwa [he], by rwa [he], by rwa [he]⟩
  | loadVal x =>
    obtain ⟨h1, h2, h3, h4⟩ := h
    obtain ⟨h1, he, hn⟩ := h1.keeps w hs (hin trivial)
    exact ⟨h1, by rwa [he], by rwa [he], by rwa [he, hn]⟩
  | setVal x v =>
    obtain ⟨h1, h2, h3, h4, h5⟩ := h
    obtain ⟨h1, he, hn⟩ := h1.keeps w hs (hin trivial)
    exact ⟨h1, by rwa [he], by rwa [he], by rwa [he, hn], by rwa [he]⟩
  | lastKey x =>
    obtain ⟨h1, h2, h3⟩ := h
    obtain ⟨h1, he, -⟩ := h1.keeps w hs (hin trivial)
    exact ⟨h1, by rwa [he], h3⟩
  | lastVal x =>
    obtain ⟨h1, h2, h3, h4⟩ := h
    obtain ⟨h1, he, hn⟩ := h1.keeps w hs (hin trivial)
    exact ⟨h1, by rwa [he], h3, by rwa [hn]⟩
  | publish x r => exact Ready.keeps h w hs (hin trivial)
  | unlock toDelete r => exact Answered.insert h s'
  | delete toDelete r => exact Answered.insert h s'
  | done r => exact Answered.insert h s'

end stable

/-! ### The steps -/

/-- A step of the list. -/
structure StepOk (S W : Set (CopyOnWrite T K V Λ)) (s : CopyOnWrite T K V Λ) (op : Call K V)
    (l : Pc T K V) (s' : CopyOnWrite T K V Λ) (l' : Pc T K V) : Prop where
  act : Act S s l s'
  next : At (insert s' S) (insert s' W) s' op l'
  point : (lin s' op l' = lin s op l ∧ absMap s' = absMap s) ∨
    (lin s op l = none ∧ ∃ r, lin s' op l' = some r ∧
      (mapObject K V).apply op (absMap s) = (absMap s', r))

section steps

variable {S W : Set (CopyOnWrite T K V Λ)} {x : Copying T V} {r : Answer V} {currentList : Ptr T}
  {i : ℕ} {k : K} {v : V}

theorem StepOk.read (hS : s ∈ S) (hW : s ∈ W) (h : At S W s op l')
    (hl : lin s op l' = lin s op l) : StepOk S W s op l s l' where
  act := .read
  next := by rwa [Set.insert_eq_of_mem hS, Set.insert_eq_of_mem hW]
  point := Or.inl ⟨hl, rfl⟩

theorem lin_searched (v : V) : lin s op (searched op v) = none := by
  cases op with
  | search k => rfl
  | _ => by_cases hv : v = 0 <;> simp [searched, hv, lin, effective]

/-- What `search(key)` returned, at a moment when that was the value. -/
theorem At.searched (hv : ∃ s₀ ∈ W, Sound (content s₀) ∧ (absMap s₀ op.key).getD 0 = v) :
    At S W s op (searched op v) := by
  obtain ⟨s₀, h₀, hsnd, rfl⟩ := hv
  cases op with
  | search k => exact Or.inr ⟨s₀, h₀, apply_search _ _⟩
  | insert k w =>
    rcases hk : absMap s₀ k with _ | v
    · have he : (absMap s₀ (Call.insert k w).key).getD 0 = 0 := by simp [Call.key, hk]
      rw [he, LinkedListCopy.searched, if_neg (by simp)]
      exact fun k h => by cases h
    · have hv : v ≠ 0 := hsnd.valOf_ne hk
      have he : (absMap s₀ (Call.insert k w).key).getD 0 = v := by simp [Call.key, hk]
      rw [he, LinkedListCopy.searched, if_pos hv]
      exact Or.inr ⟨s₀, h₀, apply_insert_some hk⟩
  | remove k =>
    rcases hk : absMap s₀ k with _ | v
    · have he : (absMap s₀ (Call.remove k : Call K V).key).getD 0 = 0 := by simp [Call.key, hk]
      rw [he, LinkedListCopy.searched, if_pos rfl]
      exact Or.inr ⟨s₀, h₀, apply_remove_none hk⟩
    · have hv : v ≠ 0 := hsnd.valOf_ne hk
      have he : (absMap s₀ (Call.remove k : Call K V).key).getD 0 = v := by simp [Call.key, hk]
      rw [he, LinkedListCopy.searched, if_neg hv]
      exact fun k h => by cases h

theorem step_ok_search (w : Wf S s) (hS : s ∈ S) (hW : s ∈ W) (hWS : W ⊆ S) (h : At S W s op l)
    (hl : l = .searchList ∨ (∃ x i, l = .searchSize x i) ∨ (∃ x i, l = .searchKey x i) ∨
      ∃ x i, l = .searchVal x i) (hstep : step A garbage me s op l = some (s', l')) :
    StepOk S W s op l s' l' := by
  rcases hl with rfl | ⟨currentList, i, rfl⟩ | ⟨currentList, i, rfl⟩ | ⟨currentList, i, rfl⟩
  · cases hstep
    exact .read hS hW ⟨⟨s, hW, rfl⟩, Nat.zero_le _, rfl⟩ rfl
  · cases hstep
    have h : Searched W s op currentList i := h
    by_cases hi : i < (s.memory.mem currentList).size
    · rw [if_pos hi]
      exact .read hS hW ⟨h, hi⟩ rfl
    · rw [if_neg hi]
      refine .read hS hW (.searched ?_) (lin_searched 0)
      obtain ⟨⟨s₀, h₀, rfl⟩, hle, hoth⟩ := h
      have hs : i = (s.memory.mem s₀.array).size := Nat.le_antisymm hle (Nat.le_of_not_lt hi)
      have habs : absMap s₀ op.key = none := by
        rw [absMap, content, ← w.still s₀ (hWS h₀), LlArray.entries, ← hs]
        exact hoth
      exact ⟨s₀, h₀, w.sound s₀ (hWS h₀), by rw [habs]; rfl⟩
  · cases hstep
    obtain ⟨h, hi⟩ := h
    by_cases hk : ((s.memory.mem currentList).nodes i).key = op.key
    · rw [if_pos hk]
      exact .read hS hW ⟨h, hi, hk⟩ rfl
    · rw [if_neg hk]
      refine .read hS hW ⟨h.window, hi, ?_⟩ rfl
      rw [LlArray.slots_succ, valOf_append_of_ne hk]
      exact h.other
  · cases hstep
    obtain ⟨⟨⟨s₀, h₀, rfl⟩, hle, hoth⟩, hi, hk⟩ := h
    refine .read hS hW (.searched ⟨s₀, h₀, w.sound s₀ (hWS h₀), ?_⟩) (lin_searched _)
    rw [← hk] at hoth
    have habs : absMap s₀ op.key = some ((s.memory.mem s₀.array).nodes i).val := by
      rw [absMap, content, ← w.still s₀ (hWS h₀), ← hk]
      exact valOf_entries hoth hi
    rw [habs]
    rfl

/-! ### Copying -/

/-- The copy has its memory. -/
theorem Copied.first (hw : Writes op) (w : Wf S s) (hS : s ∈ S) (t : T) (g : ℕ → NodeLl K V) :
    Copied (insert { s with memory :=
        (s.memory.allocate t ⟨newSize op (s.memory.mem s.array).size, g⟩).1 } S)
      { s with memory := (s.memory.allocate t ⟨newSize op (s.memory.mem s.array).size, g⟩).1 } op
      ⟨s.array, .node t (s.memory.count t), 0, 0, 0⟩ := by
  have hold : (s.memory.allocate t ⟨newSize op (s.memory.mem s.array).size, g⟩).1.mem s.array =
      s.memory.mem s.array := s.memory.mem_allocate_of_ne _ _ _ (fresh_ne (w.allocated s hS))
  have hnew : (s.memory.allocate t ⟨newSize op (s.memory.mem s.array).size, g⟩).1.mem
      (.node t (s.memory.count t)) = ⟨newSize op (s.memory.mem s.array).size, g⟩ :=
    s.memory.mem_allocate_self _ _
  refine ⟨hw, rfl, ⟨Or.inr (Or.inr ⟨t, _, rfl, s.memory.count_allocate_self _ t⟩), ?_⟩,
    Nat.zero_le _, ?_, rfl, rfl, fun _ _ _ => rfl⟩
  · rintro s₀ (rfl | h₀)
    · exact fresh_ne (w.allocated s hS)
    · exact fresh_ne (w.allocated s₀ h₀)
  · exact (congrArg LlArray.size hnew).trans (congrArg (fun a => newSize op a.size) hold.symm)

/-- One slot more is copied. -/
theorem Copied.copy (h : Copied S s op x) (hi : x.i < (s.memory.mem x.allOld).size)
    (hk : ((s.memory.mem x.allOld).nodes x.i).key ≠ op.key)
    (hn : (s.memory.mem x.allNew).nodes x.n = (s.memory.mem x.allOld).nodes x.i) :
    Copied S s op { x with i := x.i + 1, n := x.n + 1 } := by
  refine ⟨h.writes, h.old, h.new, hi, h.size, ?_, ?_, fun k v he => ?_⟩
  · change (s.memory.mem x.allNew).slots (x.n + 1) =
      without ((s.memory.mem x.allOld).slots (x.i + 1)) op.key
    rw [LlArray.slots_succ, LlArray.slots_succ, without_append_of_ne hk, h.slots, hn]
  · change x.removed = (valOf ((s.memory.mem x.allOld).slots (x.i + 1)) op.key).getD 0
    rw [LlArray.slots_succ, valOf_append_of_ne hk]
    exact h.removed
  · have hk' : ((s.memory.mem x.allOld).nodes x.i).key ≠ k := by
      rw [he] at hk
      exact hk
    change valOf ((s.memory.mem x.allOld).slots (x.i + 1)) k = none
    rw [LlArray.slots_succ, valOf_append_of_ne hk']
    exact h.other k v he

/-- The slot with the key is passed over. -/
theorem Copied.skip (h : Copied S s op x) (hsnd : Sound (s.memory.mem x.allOld).entries)
    (hi : x.i < (s.memory.mem x.allOld).size)
    (hk : ((s.memory.mem x.allOld).nodes x.i).key = op.key) (hop : op = .remove op.key) :
    Copied S s op
      { x with i := x.i + 1, removed := ((s.memory.mem x.allOld).nodes x.i).val } := by
  have hn : valOf ((s.memory.mem x.allOld).slots x.i) op.key = none := hk ▸ hsnd.other hi
  refine ⟨h.writes, h.old, h.new, hi, h.size, ?_, ?_, fun k v he => ?_⟩
  · change (s.memory.mem x.allNew).slots x.n = without ((s.memory.mem x.allOld).slots (x.i + 1)) _
    rw [LlArray.slots_succ, without_append hk, h.slots]
  · change _ = (valOf ((s.memory.mem x.allOld).slots (x.i + 1)) op.key).getD 0
    rw [LlArray.slots_succ, ← hk, valOf_append [] (by rw [hk]; exact hn)]
    rfl
  · rw [hop] at he
    cases he

/-- A write behind what has been copied. -/
theorem Copied.write (h : Copied S s op x) (hs : s ∈ S)
    {f : LlArray K V → LlArray K V} (hsize : ∀ a, (f a).size = a.size)
    (hslots : ∀ a, (f a).slots x.n = a.slots x.n) :
    Copied (insert { s with memory := s.memory.modify x.allNew f } S)
        { s with memory := s.memory.modify x.allNew f } op x ∧
      (s.memory.modify x.allNew f).mem x.allOld = s.memory.mem x.allOld := by
  have hne : x.allOld ≠ x.allNew := by
    rw [h.old]
    exact h.new.never s hs
  have hold : (s.memory.modify x.allNew f).mem x.allOld = s.memory.mem x.allOld :=
    s.memory.mem_modify_of_ne _ _ _ hne
  have hnew : (s.memory.modify x.allNew f).mem x.allNew = f (s.memory.mem x.allNew) :=
    s.memory.mem_modify_self _ _
  refine ⟨⟨h.writes, h.old, h.new.insert h.new.allocated (h.new.never s hs), ?_, ?_, ?_, ?_,
    fun k v he => ?_⟩, hold⟩
  · change _ ≤ ((s.memory.modify x.allNew f).mem x.allOld).size
    rw [hold]
    exact h.le
  · change ((s.memory.modify x.allNew f).mem x.allNew).size =
      newSize op ((s.memory.modify x.allNew f).mem x.allOld).size
    rw [hold, hnew, hsize]
    exact h.size
  · change ((s.memory.modify x.allNew f).mem x.allNew).slots x.n =
      without (((s.memory.modify x.allNew f).mem x.allOld).slots x.i) op.key
    rw [hold, hnew, hslots]
    exact h.slots
  · change _ = (valOf (((s.memory.modify x.allNew f).mem x.allOld).slots x.i) op.key).getD 0
    rw [hold]
    exact h.removed
  · change valOf (((s.memory.modify x.allNew f).mem x.allOld).slots x.i) k = none
    rw [hold]
    exact h.other k v he

/-- In `insert` the slots of both arrays go together. -/
theorem Copied.eq (h : Copied S s op x) (hop : op = .insert op.key (value op)) : x.n = x.i := by
  have hl := congrArg List.length h.slots
  rwa [without_eq_self (h.other _ _ hop), LlArray.length_slots, LlArray.length_slots] at hl

/-- The whole array is copied: `remove` has the value and the copy, or the key is not there. -/
theorem At.copied (h : Copied S s op x) (w : Wf S s) (hS : s ∈ S) (hW : s ∈ W)
    (hi : ¬ x.i < (s.memory.mem x.allOld).size) : At S W s op (copied x op) := by
  have hsize : x.i = (s.memory.mem x.allOld).size := Nat.le_antisymm h.le (Nat.le_of_not_lt hi)
  have hcontent : content s = (s.memory.mem x.allOld).slots x.i := by
    rw [content, ← h.old, LlArray.entries, hsize]
  have hsnd : Sound (content s) := w.sound s hS
  cases hop : op with
  | search k => exact absurd hop (h.writes k)
  | insert k v =>
    subst hop
    exact ⟨h, hsize, rfl⟩
  | remove k =>
    subst hop
    rcases hk : absMap s k with _ | v
    · have hr : x.removed = 0 := by
        rw [h.removed, ← hcontent]
        exact congrArg (Option.getD · 0) hk
      rw [LinkedListCopy.copied, if_neg (not_not.mpr hr), hr]
      exact Or.inr ⟨s, hW, apply_remove_none hk⟩
    · have hr : x.removed = v := by
        rw [h.removed, ← hcontent]
        exact congrArg (Option.getD · 0) hk
      have hv : v ≠ 0 := hsnd.valOf_ne hk
      -- one entry less, and that is the size of the copy
      have hlen : x.n + 1 = (s.memory.mem x.allOld).size := by
        have hl := hsnd.length_without hk
        have hslots : (s.memory.mem x.allNew).slots x.n = without (content s) k := by
          rw [hcontent]
          exact h.slots
        rwa [← hslots, hcontent, LlArray.length_slots, LlArray.length_slots, hsize] at hl
      have hn : (s.memory.mem x.allNew).size = x.n := by
        rw [h.size, newSize, sizePred, ← hlen, if_neg (Nat.succ_ne_zero _), Nat.add_sub_cancel]
      have hnew : (s.memory.mem x.allNew).entries = without (content s) k := by
        rw [LlArray.entries, hn, hcontent]
        exact h.slots
      rw [LinkedListCopy.copied, hr, if_pos hv]
      refine ⟨h.old, h.new, ?_, by simpa [effective] using hv, ?_⟩
      · rw [hnew]
        exact hsnd.remove k
      · rw [apply_remove_some hk, hnew, valOf_remove]
        rfl

theorem lin_copied (x : Copying T V) : lin s op (copied x op) = none := by
  cases op with
  | insert k v => rfl
  | search k => by_cases hx : x.removed = 0 <;> simp [copied, hx, lin, effective]
  | remove k => by_cases hx : x.removed = 0 <;> simp [copied, hx, lin, effective]

theorem At.matched (h : Copied S s op x) (w : Wf S s) (hS : s ∈ S) (hW : s ∈ W)
    (hi : x.i < (s.memory.mem x.allOld).size)
    (hk : ((s.memory.mem x.allOld).nodes x.i).key = op.key) : At S W s op (matched x op) := by
  have hn : valOf ((s.memory.mem x.allOld).slots x.i) ((s.memory.mem x.allOld).nodes x.i).key = none := by
    refine Sound.other ?_ hi
    rw [h.old]
    exact w.sound s hS
  cases hop : op with
  | search k => exact absurd hop (h.writes k)
  | remove k =>
    subst hop
    exact ⟨h, hi, hk, rfl⟩
  | insert k v =>
    subst hop
    have he := valOf_entries hn hi
    rw [hk, h.old] at he
    exact Or.inr ⟨s, hW, apply_insert_some he⟩

theorem lin_matched (x : Copying T V) : lin s op (matched x op) = none := by
  cases op <;> rfl

/-- `insert` has written the new entry behind the others. -/
theorem Ready.insert (h : Copied S s op x) (w : Wf S s) (hS : s ∈ S)
    (hi : x.i = (s.memory.mem x.allOld).size) (hop : op = .insert op.key (value op))
    (hv : value op ≠ 0)
    (hn : (s.memory.mem x.allNew).nodes x.i = ⟨op.key, value op⟩) :
    Ready S s op x (.flag true) := by
  have hcontent : content s = (s.memory.mem x.allOld).slots x.i := by
    rw [content, ← h.old, LlArray.entries, hi]
  have hnone : valOf (content s) op.key = none := by
    rw [hcontent]
    exact h.other _ _ hop
  have hnew : (s.memory.mem x.allNew).entries = content s ++ [⟨op.key, value op⟩] := by
    have hsize : (s.memory.mem x.allNew).size = x.i + 1 := by
      rw [h.size, hop, newSize, hi]
    have hslots := h.slots
    rw [h.eq hop, ← hcontent, without_eq_self hnone] at hslots
    rw [LlArray.entries, hsize, LlArray.slots_succ, hslots, hn]
  refine ⟨h.old, h.new, ?_, by rw [hop]; rfl, ?_⟩
  · rw [hnew]
    exact (w.sound s hS).insert hnone hv
  · rw [hnew, valOf_insert hnone, hop]
    exact apply_insert_none hnone

/-- A write to the copy. -/
theorem StepOk.write {f : LlArray K V → LlArray K V} (w : Wf S s) (hS : s ∈ S) (hin : Inside l)
    (hx : Private S s x.allNew) (hl : lin s op l = none)
    (h : At (insert { s with memory := s.memory.modify x.allNew f } S)
      (insert { s with memory := s.memory.modify x.allNew f } W)
      { s with memory := s.memory.modify x.allNew f } op l')
    (hl' : lin s op l' = none) :
    StepOk S W s op l { s with memory := s.memory.modify x.allNew f } l' where
  act := .write hin hx
  next := h
  point := by
    refine Or.inl ⟨hl'.trans hl.symm, ?_⟩
    rw [absMap, absMap, content, content, (Act.write hin hx : Act S s l _).mem w hS]

theorem step_ok_copy (w : Wf S s) (hS : s ∈ S) (hW : s ∈ W) (hv : Valued op) (h : At S W s op l)
    (hl : (∃ x, l = .size x) ∨ (∃ x, l = .key x) ∨ (∃ x, l = .removed x) ∨ (∃ x, l = .loadKey x) ∨
      (∃ x k, l = .setKey x k) ∨ (∃ x, l = .loadVal x) ∨ (∃ x v, l = .setVal x v) ∨
      (∃ x, l = .lastKey x) ∨ ∃ x, l = .lastVal x)
    (hstep : step A garbage me s op l = some (s', l')) : StepOk S W s op l s' l' := by
  rcases hl with ⟨x, rfl⟩ | ⟨x, rfl⟩ | ⟨x, rfl⟩ | ⟨x, rfl⟩ | ⟨x, k, rfl⟩ | ⟨x, rfl⟩ | ⟨x, v, rfl⟩ |
    ⟨x, rfl⟩ | ⟨x, rfl⟩
  · cases hstep
    have h : Copied S s op x := h
    by_cases hi : x.i < (s.memory.mem x.allOld).size
    · rw [if_pos hi]
      exact .read hS hW ⟨h, hi⟩ rfl
    · rw [if_neg hi]
      exact .read hS hW (.copied h w hS hW hi) (lin_copied x)
  · cases hstep
    obtain ⟨h, hi⟩ := h
    by_cases hk : ((s.memory.mem x.allOld).nodes x.i).key = op.key
    · rw [if_pos hk]
      exact .read hS hW (.matched h w hS hW hi hk) (lin_matched x)
    · rw [if_neg hk]
      exact .read hS hW ⟨h, hi, hk⟩ rfl
  · cases hstep
    obtain ⟨h, hi, hk, hop⟩ := h
    refine .read hS hW (h.skip ?_ hi hk hop) rfl
    rw [h.old]
    exact w.sound s hS
  · cases hstep
    obtain ⟨h, hi, hk⟩ := h
    exact .read hS hW ⟨h, hi, hk, rfl⟩ rfl
  · cases hstep
    obtain ⟨h, hi, hk, rfl⟩ := h
    obtain ⟨h', hold⟩ := h.write hS
      (f := fun a => a.setKey x.n ((s.memory.mem x.allOld).nodes x.i).key) (fun _ => rfl)
      fun a => a.slots_setKey le_rfl
    refine .write w hS trivial h.new rfl ⟨h', ?_, ?_, ?_⟩ rfl
    · rw [hold]
      exact hi
    · rw [hold]
      exact hk
    · rw [hold]
      simp [LlArray.setKey]
  · cases hstep
    obtain ⟨h, hi, hk, hn⟩ := h
    exact .read hS hW ⟨h, hi, hk, hn, rfl⟩ rfl
  · cases hstep
    obtain ⟨h, hi, hk, hn, rfl⟩ := h
    obtain ⟨h', hold⟩ := h.write hS
      (f := fun a => a.setVal x.n ((s.memory.mem x.allOld).nodes x.i).val) (fun _ => rfl)
      fun a => a.slots_setVal le_rfl
    refine .write w hS trivial h.new rfl (h'.copy ?_ ?_ ?_) rfl
    · rw [hold]
      exact hi
    · rw [hold]
      exact hk
    · rw [hold, Memory.mem_modify_self, LlArray.node_setVal, hn]
  · cases hstep
    obtain ⟨h, hi, hop⟩ := h
    have he := h.eq hop
    obtain ⟨h', hold⟩ := h.write hS (f := fun a => a.setKey x.i op.key) (fun _ => rfl)
      fun a => a.slots_setKey he.le
    refine .write w hS trivial h.new rfl ⟨h', ?_, hop, ?_⟩ rfl
    · rw [hold]
      exact hi
    · rw [Memory.mem_modify_self]
      exact LlArray.key_setKey _
  · cases hstep
    obtain ⟨h, hi, hop, hk⟩ := h
    have he := h.eq hop
    obtain ⟨h', hold⟩ := h.write hS (f := fun a => a.setVal x.i (value op)) (fun _ => rfl)
      fun a => a.slots_setVal he.le
    have hact : Act S s (.lastVal x)
        { s with memory := s.memory.modify x.allNew fun a => a.setVal x.i (value op) } :=
      .write trivial h.new
    refine .write w hS trivial h.new rfl
      (.insert h' (hact.wf w hS) (Set.mem_insert _ _) ?_ hop (hv _ _ hop) ?_) rfl
    · rw [hold]
      exact hi
    · rw [Memory.mem_modify_self, LlArray.node_setVal, hk]

theorem step_ok (w : Wf S s) (hS : s ∈ S) (hW : s ∈ W) (hWS : W ⊆ S) (hv : Valued op)
    (h : At S W s op l) (hres : result l = none)
    (hstep : step A garbage me s op l = some (s', l')) : StepOk S W s op l s' l' := by
  have still : ∀ {word : Λ} {freed : List (Ptr T)} {l' : Pc T K V},
      At S W s op l' → ¬ Inside l' ∨ l' = .loadOld → lin s op l' = lin s op l →
      StepOk S W s op l { s with memory := { s.memory with freed := freed }, lock := word } l' := by
    intro word freed l' h hn hl
    refine ⟨.read, h.keeps w hS (fun hi => ?_) fun _ _ => rfl, Or.inl ⟨hl, rfl⟩⟩
    exact ⟨rfl, fun _ => id, fun _ _ => rfl⟩
  cases l with
  | lock =>
    obtain ⟨word, hw, he⟩ := Option.map_eq_some_iff.mp hstep
    cases he
    exact still h (Or.inr rfl) rfl
  | loadOld =>
    cases hstep
    exact .read hS hW ⟨h, rfl⟩ rfl
  | loadSize allOld =>
    cases hstep
    exact .read hS hW ⟨h.1, h.2, rfl⟩ rfl
  | alloc allOld size =>
    cases hstep
    obtain ⟨hw, rfl, rfl⟩ := h
    have hact : Act S s (.alloc s.array (newSize op (s.memory.mem s.array).size)) { s with memory :=
        (s.memory.allocate me ⟨newSize op (s.memory.mem s.array).size, garbage⟩).1 } := .alloc
    have hmem := hact.mem w hS
    exact ⟨hact, .first hw w hS me garbage,
      Or.inl ⟨rfl, congrArg (fun a : LlArray K V => valOf a.entries) hmem⟩⟩
  | publish x r =>
    cases hstep
    obtain ⟨hold, hnew, hsnd, he, ha⟩ := h
    exact ⟨.publish trivial hnew.allocated hsnd, Or.inl he,
      Or.inr ⟨rfl, r, by simp [lin, he], ha⟩⟩
  | unlock toDelete r =>
    cases hstep
    exact still h (Or.inl id) rfl
  | delete toDelete r =>
    cases hstep
    exact still h (Or.inl id) rfl
  | done r => cases hres
  | searchList => exact step_ok_search w hS hW hWS h (Or.inl rfl) hstep
  | searchSize y i => exact step_ok_search w hS hW hWS h (Or.inr (Or.inl ⟨y, i, rfl⟩)) hstep
  | searchKey y i =>
    exact step_ok_search w hS hW hWS h (Or.inr (Or.inr (Or.inl ⟨y, i, rfl⟩))) hstep
  | searchVal y i =>
    exact step_ok_search w hS hW hWS h (Or.inr (Or.inr (Or.inr ⟨y, i, rfl⟩))) hstep
  | _ => exact step_ok_copy w hS hW hv h (by simp) hstep

end steps

/-! ### The invariant -/

section run

variable {Free Held : Λ → Prop} {lock : Λ} {nodes : ℕ → NodeLl K V} {roFail : Bool} {t : T}
  {es : Trace T (Call K V) (Answer V) (CopyOnWrite T K V Λ) (Pc T K V)}
  {c : Config T (Call K V) (CopyOnWrite T K V Λ) (Pc T K V)}

theorem Wf.initial : Wf {(empty lock nodes : CopyOnWrite T K V Λ)} (empty lock nodes) where
  sound := by
    rintro s₀ rfl
    exact Sound.nil
  allocated := by
    rintro s₀ rfl
    exact Or.inl rfl
  still := by
    rintro s₀ rfl
    rfl

theorem start_at (S W : Set (CopyOnWrite T K V Λ)) (op : Call K V) :
    At S W s op (start roFail op) := by
  cases op with
  | search k => trivial
  | insert k v => cases roFail <;> first | trivial | exact fun k h => by cases h
  | remove k => cases roFail <;> first | trivial | exact fun k h => by cases h

/-- Two threads are not between `LOCK_A` and `UNLOCK_A`. -/
theorem excl (hA : A.Lawful Free Held) (h0 : Free lock)
    (hr : (program A lock nodes roFail).Run es c) (hc : c.threads t = some (op, l)) {u : T}
    {op₁ : Call K V} {l₁ : Pc T K V} (hu : u ≠ t) (hc₁ : c.threads u = some (op₁, l₁))
    (h₁ : Inside l₁) : ¬ Inside l := fun h =>
  hu ((lockUse A lock nodes roFail Valued).unique hA h0 hr ⟨op₁, l₁, hc₁, h₁⟩ ⟨op, l, hc, h⟩)

def outline (hA : A.Lawful Free Held) (h0 : Free lock) :
    Outline (program A lock nodes roFail) (fun _ _ _ _ => True) fun _ _ => False where
  glob es s := Wf ((program A lock nodes roFail).seen es) s ∧ s ∈ (program A lock nodes roFail).seen es
  loc _ S W s op l := Valued op ∧ W ⊆ S ∧ At S W s op l
  pair _ _ := True
  pair_symm := id
  init := ⟨Wf.initial, rfl⟩
  frame hg _ := by
    refine ⟨?_, Set.mem_insert _ _⟩
    rw [Program.seen, Set.insert_eq_of_mem hg.2]
    exact hg.1
  call t hg hs hp := ⟨hp, Set.singleton_subset_iff.mpr hs, start_at _ _ _⟩
  call_pair := trivial
  tau := by
    intro es c t op l garbage s' l' hr hc hres hstep _ ⟨w, hS⟩ ⟨hv, hWS, hat⟩
    have hW := hr.shared_mem_window (fun _ _ => False) hc
    have hok := step_ok w hS hW hWS hv hat hres hstep
    refine ⟨⟨hok.act.wf w hS, Set.mem_insert _ _⟩, ⟨hv, ?_, ?_⟩,
      fun u op₁ l₁ hu hu₁ ⟨hv₁, hWS₁, hat₁⟩ _ =>
        ⟨⟨hv₁, Set.insert_subset_insert hWS₁, hat₁.keeps w hS (fun h => ?_) fun s₀ h₀ => ?_⟩, trivial⟩⟩
    · rw [extend_of_not id]
      exact Set.insert_subset_insert hWS
    · rw [extend_of_not id]
      exact hok.next
    · exact hok.act.keeps (excl hA h0 hr hc hu hu₁ h)
    · exact hok.act.mem w (hWS₁ h₀)

theorem linearizable [Fintype T] (hA : A.Lawful Free Held) (h0 : Free lock) :
    Linearizable (mapObject K V) (program (T := T) A lock nodes roFail) absMap := by
  refine Concur.linearizable ((outline hA h0).points lin rfl (fun s op => ?_) ?_ ?_)
  · cases op <;> cases roFail <;> rfl
  · intro es c t op l garbage s' l' hr hH hc hres hstep _
    obtain ⟨hv, hWS, hat⟩ := hH.loc t op l hc
    have hok := step_ok hH.glob.1 hH.glob.2 (hr.shared_mem_window _ hc) hWS hv hat hres hstep
    exact ⟨hok.point, fun u op₁ l₁ hu ht₁ => rfl⟩
  · intro es c t op l r hr hH hc hres
    obtain ⟨-, -, hat⟩ := hH.loc t op l hc
    cases l <;> cases hres
    have hat : Answered _ op r := hat
    by_cases he : effective op r = true
    · exact Or.inl (if_pos he)
    · exact Or.inr ⟨if_neg he, hat.resolve_left he⟩

/-- The slot that the next access writes. -/
def written : Pc T K V → Option (Ptr T × ℕ)
  | .setKey x _ | .setVal x _ => some (x.allNew, x.n)
  | .lastKey x | .lastVal x => some (x.allNew, x.i)
  | _ => none

/-- Only these accesses write to arrays that exist. -/
theorem step_mem {y : Ptr T} (hstep : step A garbage me s op l = some (s', l'))
    (hy : s.memory.Allocated y) (hw : ∀ i, written l ≠ some (y, i)) :
    s'.memory.mem y = s.memory.mem y := by
  have hne : ∀ {x : Ptr T} {f : LlArray K V → LlArray K V}, y ≠ x →
      ({ s with memory := s.memory.modify x f } : CopyOnWrite T K V Λ).memory.mem y =
        s.memory.mem y := s.memory.mem_modify_of_ne _ _ _
  cases l with
  | lock =>
    obtain ⟨word, hw, he⟩ := Option.map_eq_some_iff.mp hstep
    cases he
    rfl
  | alloc allOld size =>
    cases hstep
    exact s.memory.mem_allocate_of_ne _ _ _ (fresh_ne hy)
  | setKey x k =>
    cases hstep
    refine hne ?_
    rintro rfl
    exact hw _ rfl
  | setVal x v =>
    cases hstep
    refine hne ?_
    rintro rfl
    exact hw _ rfl
  | lastKey x =>
    cases hstep
    refine hne ?_
    rintro rfl
    exact hw _ rfl
  | lastVal x =>
    cases hstep
    refine hne ?_
    rintro rfl
    exact hw _ rfl
  | _ =>
    cases hstep
    rfl

theorem step_allocated {y : Ptr T} (hstep : step A garbage me s op l = some (s', l'))
    (hy : s.memory.Allocated y) : s'.memory.Allocated y := by
  cases l with
  | lock =>
    obtain ⟨word, hw, he⟩ := Option.map_eq_some_iff.mp hstep
    cases he
    exact hy
  | alloc allOld size =>
    cases hstep
    exact hy.mono fun u => s.memory.count_le_allocate _ _ u
  | _ =>
    cases hstep
    exact hy

/-- The arrays that `cow->array` has pointed to: nobody is about to write to one of
them, they are as they were when it did, and none holds a key twice. -/
def PublishedStay (P : Program T (Call K V) (Answer V) (CopyOnWrite T K V Λ) (Pc T K V)
    (ℕ → NodeLl K V)) : Prop :=
  ∀ es c, P.Run es c → ∀ s₀ ∈ P.seen es,
    (∀ t op l i, c.threads t = some (op, l) → written l ≠ some (s₀.array, i)) ∧
    c.shared.memory.mem s₀.array = s₀.memory.mem s₀.array ∧
    ((c.shared.memory.mem s₀.array).entries.map NodeLl.key).Nodup

theorem At.written_private {S W : Set (CopyOnWrite T K V Λ)} {y : Ptr T} {i : ℕ} (h : At S W s op l)
    (hw : written l = some (y, i)) : Private S s y := by
  cases l with
  | setKey x k =>
    cases hw
    exact h.1.new
  | setVal x v =>
    cases hw
    exact h.1.new
  | lastKey x =>
    cases hw
    exact h.1.new
  | lastVal x =>
    cases hw
    exact h.1.new
  | _ => cases hw

theorem published_stay (hA : A.Lawful Free Held) (h0 : Free lock) :
    PublishedStay (program A lock nodes roFail) := by
  intro es c hr s₀ h₀
  have hH := (outline hA h0).holds hr
  obtain ⟨w, hS⟩ := hH.glob
  refine ⟨fun t op l i hc hw => ?_, w.still s₀ h₀, ?_⟩
  · exact (At.written_private (hH.loc t op l hc).2.2 hw).never s₀ h₀ rfl
  · rw [w.still s₀ h₀]
    exact (w.sound s₀ h₀).nodup

/-- **The copy-on-write list is linearizable to a finite map, no slot of an
array is written after `cow->array` has pointed to it, and no such array holds
a key twice.** -/
theorem copy_list [Fintype T] (hA : A.Lawful Free Held) (h0 : Free lock) :
    Linearizable (mapObject K V) (program (T := T) A lock nodes roFail) absMap ∧
      PublishedStay (program (T := T) A lock nodes roFail) :=
  ⟨linearizable hA h0, published_stay hA h0⟩

theorem copy_list_tas :
    Linearizable (mapObject ℕ ℕ)
      (program (tasOps (Fin 3)) TAS_FREE (fun _ => (⟨0, 0⟩ : NodeLl ℕ ℕ)) true) absMap ∧
      PublishedStay (program (tasOps (Fin 3)) TAS_FREE (fun _ => (⟨0, 0⟩ : NodeLl ℕ ℕ)) true) :=
  copy_list tasOps_lawful rfl

end run

end LinkedListCopy

end Ascylib
