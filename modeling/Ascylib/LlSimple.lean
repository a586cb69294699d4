/-
# Nodes of the lock-free lists

`src/aux/ll_simple.h`: a node has a key, a value and a `next` word, whose low
bit the Harris lists use as the mark of a logically deleted node.
-/
import Ascylib.Memory
import Ascylib.Search
import Ascylib.Concur.Chain
import Ascylib.Concur.Hindsight
import Mathlib.Order.BoundedOrder.Basic

namespace Ascylib

open Concur

/-- A `next` word: an address with a mark in its low bit. -/
structure Ref (T : Type*) where
  ptr : Ptr T
  mark : Bool
  deriving DecidableEq

variable {T K V : Type*}

def isMarkedRef (r : Ref T) : Bool := r.mark
def getUnmarkedRef (r : Ref T) : Ref T := ⟨r.ptr, false⟩
def getMarkedRef (r : Ref T) : Ref T := ⟨r.ptr, true⟩

/-- A pointer variable's word: no mark. -/
def Ptr.ref (p : Ptr T) : Ref T := ⟨p, false⟩

structure LlSimple (T K V : Type*) where
  key : K
  val : V
  next : Ref T

/-- The shared memory of a list. -/
abbrev Heap (T K V : Type*) := Memory T (LlSimple T K V)

namespace Heap

variable [DecidableEq T]

def key (s : Heap T K V) (x : Ptr T) : K := (s.mem x).key
def val (s : Heap T K V) (x : Ptr T) : V := (s.mem x).val
def next (s : Heap T K V) (x : Ptr T) : Ref T := (s.mem x).next

/-- The successor of a node, without the mark. -/
def succ (s : Heap T K V) (x : Ptr T) : Ptr T := (s.next x).ptr

/-- The node is logically deleted. -/
def Marked (s : Heap T K V) (x : Ptr T) : Prop := (s.next x).mark = true

/-- `x->next = r`. -/
def setNext (s : Heap T K V) (x : Ptr T) (r : Ref T) : Heap T K V :=
  s.set x { s.mem x with next := r }

/-- `CAS(&x->next, old, new)`: whether it succeeded, and the memory after it. -/
def cas (s : Heap T K V) (x : Ptr T) (old new : Ref T) : Bool × Heap T K V :=
  if s.next x = old then (true, s.setNext x new) else (false, s)

/-- `allocate_ll_simple(key, val, next)` by thread `t`: the memory, and the
address. -/
def allocateLlSimple (s : Heap T K V) (t : T) (key : K) (val : V) (next : Ptr T) :
    Heap T K V × Ptr T :=
  s.allocate t ⟨key, val, next.ref⟩

/-- The list constructors: the two sentinels, linked. What other addresses
hold does not matter. -/
def empty [Bot K] [Top K] [Zero V] : Heap T K V where
  mem
    | .head => ⟨⊥, 0, ⟨.tail, false⟩⟩
    | .tail => ⟨⊤, 0, ⟨.null, false⟩⟩
    | _ => ⟨⊥, 0, ⟨.null, false⟩⟩
  count := fun _ => 0
  freed := []

/-! ### Reading a memory after a write -/

section

variable (s : Heap T K V) (x y : Ptr T) (r : Ref T)

theorem mem_setNext_of_ne (h : y ≠ x) : (s.setNext x r).mem y = s.mem y :=
  s.mem_set_of_ne x y _ h

@[simp] theorem key_setNext : (s.setNext x r).key y = s.key y := by
  by_cases h : y = x
  · subst h; simp [setNext, key]
  · simp [key, mem_setNext_of_ne s x y r h]

@[simp] theorem val_setNext : (s.setNext x r).val y = s.val y := by
  by_cases h : y = x
  · subst h; simp [setNext, val]
  · simp [val, mem_setNext_of_ne s x y r h]

@[simp] theorem next_setNext_self : (s.setNext x r).next x = r := by simp [setNext, next]

theorem next_setNext_of_ne (h : y ≠ x) : (s.setNext x r).next y = s.next y := by
  simp [next, mem_setNext_of_ne s x y r h]

theorem succ_setNext_of_ne (h : y ≠ x) : (s.setNext x r).succ y = s.succ y := by
  simp [succ, next_setNext_of_ne s x y r h]

@[simp] theorem succ_setNext_self : (s.setNext x r).succ x = r.ptr := by simp [succ]

end

theorem cas_true {s s' : Heap T K V} {x : Ptr T} {old new : Ref T} (h : s.cas x old new = (true, s')) :
    s.next x = old ∧ s' = s.setNext x new := by
  unfold cas at h
  split at h
  · cases h; exact ⟨‹_›, rfl⟩
  · cases h

theorem cas_false {s s' : Heap T K V} {x : Ptr T} {old new : Ref T}
    (h : s.cas x old new = (false, s')) : s' = s := by
  unfold cas at h
  split at h <;> cases h
  rfl

end Heap

end Ascylib
