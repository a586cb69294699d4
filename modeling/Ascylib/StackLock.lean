/-
# The stack with one lock

`src/algorithms/stack_lock.h`: `add` allocates before it takes the lock, and
`remove` reads the item and frees the node after it has given the lock back.

Key definitions: `LockedStack`, `program`, `lockUse`.
-/
import Ascylib.LockIf
import Ascylib.MsQueue

set_option linter.unusedSectionVars false

namespace Ascylib

open Concur

/-- `struct stack`, with the nodes. -/
structure LockedStack (T V Λ : Type*) where
  memory : Memory T (StackqueueNode T V)
  top : Ptr T
  lock : Λ

namespace StackLock

variable {T V Λ : Type*} [DecidableEq T]

/-- The constructor; it leaves the lock as the memory was. -/
def empty [Zero V] (lock : Λ) : LockedStack T V Λ :=
  ⟨⟨fun _ => ⟨0, .null⟩, fun _ => 0, []⟩, .null, lock⟩

/-- Where an `add` is, with the local variables that are live there. -/
inductive AddPc (T V : Type*) where
  /-- `node = allocate_stackqueue_node(item, NULL)` -/
  | alloc (item : V)
  /-- `LOCK_A(&set->lock)` -/
  | lock (node : Ptr T)
  /-- `set->top` in `node->next = set->top` -/
  | loadTop (node : Ptr T)
  /-- `node->next = top`, where `top` is what was read -/
  | setNext (node top : Ptr T)
  /-- `set->top = node` -/
  | setTop (node : Ptr T)
  /-- `UNLOCK_A(&set->lock)` -/
  | unlock
  /-- `return 1` -/
  | done

/-- Where a `remove` is, with the local variables that are live there. -/
inductive RemovePc (T V : Type*) where
  /-- `LOCK_A(&set->lock)` -/
  | lock
  /-- `top = set->top`, and `NULL == top` -/
  | loadTop
  /-- `UNLOCK_A(&set->lock)`, before `return 0` -/
  | unlockEmpty
  /-- `top->next` in `set->top = top->next` -/
  | loadNext (top : Ptr T)
  /-- `set->top = next`, where `next` is what was read -/
  | setTop (top next : Ptr T)
  /-- `UNLOCK_A(&set->lock)` -/
  | unlock (top : Ptr T)
  /-- `val = top->item` -/
  | loadItem (top : Ptr T)
  /-- `release_stackqueue_node(top)` -/
  | release (top : Ptr T) (val : V)
  /-- `return val` -/
  | done (val : V)
  /-- `return 0` -/
  | empty

/-- The next access of an `add` of thread `me`, and what follows from it. -/
def addStep (A : LockOps T Λ) (me : T) (s : LockedStack T V Λ) :
    AddPc T V → Option (LockedStack T V Λ × AddPc T V)
  | .alloc item =>
    let (memory, node) := s.memory.allocate me ⟨item, .null⟩
    some ({ s with memory := memory }, .lock node)
  | .lock node => (A.lock me s.lock).map fun w => ({ s with lock := w }, .loadTop node)
  | .loadTop node => some (s, .setNext node s.top)
  | .setNext node top =>
    some ({ s with memory := s.memory.modify node fun n => { n with next := top } }, .setTop node)
  | .setTop node => some ({ s with top := node }, .unlock)
  | .unlock => some ({ s with lock := A.unlock me s.lock }, .done)
  | .done => some (s, .done)

/-- The next access of a `remove` of thread `me`, and what follows from it. -/
def removeStep (A : LockOps T Λ) (me : T) (s : LockedStack T V Λ) :
    RemovePc T V → Option (LockedStack T V Λ × RemovePc T V)
  | .lock => (A.lock me s.lock).map fun w => ({ s with lock := w }, .loadTop)
  | .loadTop => some (s, if s.top = .null then .unlockEmpty else .loadNext s.top)
  | .unlockEmpty => some ({ s with lock := A.unlock me s.lock }, .empty)
  | .loadNext top => some (s, .setTop top (s.memory.mem top).next)
  | .setTop top next => some ({ s with top := next }, .unlock top)
  | .unlock top => some ({ s with lock := A.unlock me s.lock }, .loadItem top)
  | .loadItem top => some (s, .release top (s.memory.mem top).item)
  | .release top val => some ({ s with memory := s.memory.ssmemFree top }, .done val)
  | .done val => some (s, .done val)
  | .empty => some (s, .empty)

inductive Pc (T V : Type*) where
  | add (l : AddPc T V)
  | remove (l : RemovePc T V)

def start : SqCall V → Pc T V
  | .add item => .add (.alloc item)
  | .remove => .remove .lock

def step (A : LockOps T Λ) (me : T) (s : LockedStack T V Λ) :
    Pc T V → Option (LockedStack T V Λ × Pc T V)
  | .add l => (addStep A me s l).map fun q => (q.1, .add q.2)
  | .remove l => (removeStep A me s l).map fun q => (q.1, .remove q.2)

def result [Zero V] : Pc T V → Option (Answer V)
  | .add .done => some (.flag true)
  | .remove (.done val) => some (.val val)
  | .remove .empty => some (.val 0)
  | _ => none

/-- The stack whose lock the constructor found in this state. -/
def program [Zero V] (A : LockOps T Λ) (lock : Λ) :
    Program T (SqCall V) (Answer V) (LockedStack T V Λ) (Pc T V) Unit where
  init := empty lock
  pre := SqClient
  start := start
  step _ me s _ l := step A me s l
  result := result

/-! ### The lock -/

def Asks : Pc T V → Prop
  | .add (.lock _) => True
  | .remove .lock => True
  | _ => False

/-- The thread is between `LOCK_A` and `UNLOCK_A`. -/
def Inside : Pc T V → Prop
  | .add (.loadTop _) | .add (.setNext _ _) | .add (.setTop _) | .add .unlock => True
  | .remove .loadTop | .remove .unlockEmpty | .remove (.loadNext _) | .remove (.setTop _ _)
  | .remove (.unlock _) => True
  | _ => False

theorem addStep_lock {A : LockOps T Λ} {me : T} {s s' : LockedStack T V Λ} {l l' : AddPc T V}
    (h : addStep A me s l = some (s', l')) :
    (Asks (.add l) ∧ A.lock me s.lock = some s'.lock ∧ Inside (.add l')) ∨
    (Inside (.add l) ∧ ¬ Inside (.add l') ∧ s'.lock = A.unlock me s.lock) ∨
    (¬ Asks (.add l) ∧ s'.lock = s.lock ∧ (Inside (.add l') ↔ Inside (.add l))) := by
  cases l with
  | lock node =>
    obtain ⟨w, hw, he⟩ := Option.map_eq_some_iff.mp h
    cases he
    exact Or.inl ⟨trivial, hw, trivial⟩
  | unlock =>
    cases h
    exact Or.inr (Or.inl ⟨trivial, id, rfl⟩)
  | _ =>
    cases h
    exact Or.inr (Or.inr ⟨id, rfl, Iff.rfl⟩)

theorem removeStep_lock {A : LockOps T Λ} {me : T} {s s' : LockedStack T V Λ} {l l' : RemovePc T V}
    (h : removeStep A me s l = some (s', l')) :
    (Asks (.remove l) ∧ A.lock me s.lock = some s'.lock ∧ Inside (.remove l')) ∨
    (Inside (.remove l) ∧ ¬ Inside (.remove l') ∧ s'.lock = A.unlock me s.lock) ∨
    (¬ Asks (.remove l) ∧ s'.lock = s.lock ∧ (Inside (.remove l') ↔ Inside (.remove l))) := by
  cases l with
  | lock =>
    obtain ⟨w, hw, he⟩ := Option.map_eq_some_iff.mp h
    cases he
    exact Or.inl ⟨trivial, hw, trivial⟩
  | unlockEmpty =>
    cases h
    exact Or.inr (Or.inl ⟨trivial, id, rfl⟩)
  | unlock =>
    cases h
    exact Or.inr (Or.inl ⟨trivial, id, rfl⟩)
  | loadTop =>
    cases h
    refine Or.inr (Or.inr ⟨id, rfl, ?_⟩)
    by_cases hn : s.top = .null
    · rw [if_pos hn]
      exact Iff.rfl
    · rw [if_neg hn]
      exact Iff.rfl
  | _ =>
    cases h
    exact Or.inr (Or.inr ⟨id, rfl, Iff.rfl⟩)

/-- How the stack uses its lock, whatever its clients do. -/
def lockUse [Zero V] (A : LockOps T Λ) (lock : Λ) (pre : SqCall V → Prop) :
    LockUse A { program A lock with pre := pre } where
  word s := s.lock
  Asks := Asks
  Holds := Inside
  start op := by cases op <;> exact id
  result := by
    intro l r h
    rcases l with l | l <;> cases l <;> cases h <;> exact ⟨id, id⟩
  apart {l} h := by
    rcases l with l | l <;> cases l <;> first | exact h.elim | exact id
  step := by
    intro i t s op l s' l' h
    rcases l with l | l
    · obtain ⟨⟨s₁, l₁⟩, hadd, he⟩ := Option.map_eq_some_iff.mp h
      cases he
      exact addStep_lock hadd
    · obtain ⟨⟨s₁, l₁⟩, hremove, he⟩ := Option.map_eq_some_iff.mp h
      cases he
      exact removeStep_lock hremove
  enter := by
    intro t s l w i op h hw
    rcases l with l | l
    · cases l
      case lock node =>
        have hs : step A t s (.add (.lock node)) = some ({ s with lock := w }, .add (.loadTop node)) := by
          simp [step, addStep, hw]
        exact Option.isSome_iff_exists.mpr ⟨_, hs⟩
      all_goals exact h.elim
    · cases l
      case lock =>
        have hs : step A t s (.remove .lock) = some ({ s with lock := w }, .remove .loadTop) := by
          simp [step, removeStep, hw]
        exact Option.isSome_iff_exists.mpr ⟨_, hs⟩
      all_goals exact h.elim

end StackLock

end Ascylib
