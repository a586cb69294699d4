/-
# The lazy list

`src/algorithms/linkedlist_lazy.h` with a lock in each node and `RO_FAIL`, one
local state for each access to shared memory. `search` and the two read-only
ways out lock and validate nothing. `insert` locks the predecessor, `remove`
the predecessor and the node; both look again under the locks
(`parse_validate`), and `remove` marks the node before it unlinks it.
-/
import Ascylib.MarkedList

set_option linter.unusedSectionVars false

namespace Ascylib

open Concur Chain

namespace LinkedListLazy

open MarkedList

variable {T K V : Type*} [DecidableEq T] [LinearOrder K]

/-- Where a call is, with the local variables that are live there. -/
inductive Pc (T V : Type*) where
  /-- `search`: `curr->key < key` -/
  | searchLt (curr : Ptr T)
  /-- `curr = curr->next` -/
  | searchNext (curr : Ptr T)
  /-- `curr->key == key` -/
  | searchEq (curr : Ptr T)
  /-- `!curr->marked` -/
  | searchMarked (curr : Ptr T)
  /-- `res = curr->val` -/
  | searchVal (curr : Ptr T)
  /-- `insert`: `pred = head; curr = pred->next` -/
  | insertHead
  /-- `curr->key < key` -/
  | insertLt (pred curr : Ptr T)
  /-- `pred = curr; curr = curr->next` -/
  | insertNext (curr : Ptr T)
  /-- `curr->key == key` -/
  | insertEq (pred curr : Ptr T)
  /-- `curr->marked`: `continue`, or `return false` -/
  | insertMarked (curr : Ptr T)
  /-- `LOCK(ND_GET_LOCK(pred))` -/
  | insertLock (pred curr : Ptr T)
  /-- `parse_validate(pred, curr)`: `!pred->marked` -/
  | insertPredMarked (pred curr : Ptr T)
  /-- `!curr->marked` -/
  | insertCurrMarked (pred curr : Ptr T)
  /-- `pred->next == curr` -/
  | insertPredNext (pred curr : Ptr T)
  /-- `result = (curr->key != key)` -/
  | insertNe (pred curr : Ptr T)
  /-- `newnode = allocate_ll_marked(key, value, curr)` -/
  | insertAlloc (pred curr : Ptr T)
  /-- `pred->next = newnode` -/
  | insertStore (pred newnode : Ptr T)
  /-- `UNLOCK(ND_GET_LOCK(pred))`; no result while it is negative -/
  | insertUnlock (pred : Ptr T) (result : Option Bool)
  /-- `remove`: `pred = head; curr = pred->next` -/
  | removeHead
  /-- `curr->key < key` -/
  | removeLt (pred curr : Ptr T)
  /-- `pred = curr; curr = curr->next` -/
  | removeNext (curr : Ptr T)
  /-- `curr->key != key` -/
  | removeNe (pred curr : Ptr T)
  /-- `LOCK(ND_GET_LOCK(pred))` -/
  | removeLockPred (pred curr : Ptr T)
  /-- `LOCK(ND_GET_LOCK(curr))` -/
  | removeLockCurr (pred curr : Ptr T)
  /-- `parse_validate(pred, curr)`: `!pred->marked` -/
  | removePredMarked (pred curr : Ptr T)
  /-- `!curr->marked` -/
  | removeCurrMarked (pred curr : Ptr T)
  /-- `pred->next == curr` -/
  | removePredNext (pred curr : Ptr T)
  /-- `key == curr->key` -/
  | removeEq (pred curr : Ptr T)
  /-- `result = curr->val` -/
  | removeVal (pred curr : Ptr T)
  /-- `c_next = curr->next` -/
  | removeCnext (pred curr : Ptr T) (result : V)
  /-- `curr->marked = 1` -/
  | removeMark (pred curr cNext : Ptr T) (result : V)
  /-- `pred->next = c_next` -/
  | removeStore (pred curr cNext : Ptr T) (result : V)
  /-- `ll_marked_release(curr)` -/
  | removeFree (pred curr : Ptr T) (result : V)
  /-- `UNLOCK(ND_GET_LOCK(curr))`; a result when `done` -/
  | removeUnlockCurr (pred curr : Ptr T) (result : Option V)
  /-- `UNLOCK(ND_GET_LOCK(pred))` -/
  | removeUnlockPred (pred : Ptr T) (result : Option V)
  /-- `return r` from a call that took effect -/
  | done (r : Answer V)
  /-- `return r` from a call that changed nothing -/
  | unchanged (r : Answer V)

variable [Zero V]

def start : Call K V → Pc T V
  | .search _ => .searchLt .head
  | .insert _ _ => .insertHead
  | .remove _ => .removeHead

/-- The next access to shared memory of thread `t`, and what follows from it;
`none` while it waits for a lock. -/
def step (t : T) (s : MarkedHeap T K V) (op : Call K V) :
    Pc T V → Option (MarkedHeap T K V × Pc T V)
  | .searchLt curr => some (s, if s.key curr < op.key then .searchNext curr else .searchEq curr)
  | .searchNext curr => some (s, .searchLt (s.next curr))
  | .searchEq curr => some (s, if s.key curr = op.key then .searchMarked curr else .unchanged (.val 0))
  | .searchMarked curr => some (s, if !s.marked curr then .searchVal curr else .unchanged (.val 0))
  | .searchVal curr => some (s, .unchanged (.val (s.val curr)))
  | .insertHead => some (s, .insertLt .head (s.next .head))
  | .insertLt pred curr =>
    some (s, if s.key curr < op.key then .insertNext curr else .insertEq pred curr)
  | .insertNext curr => some (s, .insertLt curr (s.next curr))
  | .insertEq pred curr =>
    some (s, if s.key curr = op.key then .insertMarked curr else .insertLock pred curr)
  | .insertMarked curr =>
    some (s, if s.marked curr then .insertHead else .unchanged (.flag false))
  | .insertLock pred curr => (s.acquire t pred).map fun s' => (s', .insertPredMarked pred curr)
  | .insertPredMarked pred curr =>
    some (s, if !s.marked pred then .insertCurrMarked pred curr else .insertUnlock pred none)
  | .insertCurrMarked pred curr =>
    some (s, if !s.marked curr then .insertPredNext pred curr else .insertUnlock pred none)
  | .insertPredNext pred curr =>
    some (s, if s.next pred = curr then .insertNe pred curr else .insertUnlock pred none)
  | .insertNe pred curr =>
    some (s, if s.key curr ≠ op.key then .insertAlloc pred curr else .insertUnlock pred (some false))
  | .insertAlloc pred curr =>
    match op with
    | .insert key value =>
      let (s', newnode) := s.allocateLlMarked t key value curr
      some (s', .insertStore pred newnode)
    | _ => some (s, .insertAlloc pred curr)
  | .insertStore pred newnode => some (s.setNext pred newnode, .insertUnlock pred (some true))
  | .insertUnlock pred result =>
    some (s.release pred, match result with
      | none => .insertHead
      | some true => .done (.flag true)
      | some false => .unchanged (.flag false))
  | .removeHead => some (s, .removeLt .head (s.next .head))
  | .removeLt pred curr =>
    some (s, if s.key curr < op.key then .removeNext curr else .removeNe pred curr)
  | .removeNext curr => some (s, .removeLt curr (s.next curr))
  | .removeNe pred curr =>
    some (s, if s.key curr ≠ op.key then .unchanged (.val 0) else .removeLockPred pred curr)
  | .removeLockPred pred curr => (s.acquire t pred).map fun s' => (s', .removeLockCurr pred curr)
  | .removeLockCurr pred curr => (s.acquire t curr).map fun s' => (s', .removePredMarked pred curr)
  | .removePredMarked pred curr =>
    some (s, if !s.marked pred then .removeCurrMarked pred curr else .removeUnlockCurr pred curr none)
  | .removeCurrMarked pred curr =>
    some (s, if !s.marked curr then .removePredNext pred curr else .removeUnlockCurr pred curr none)
  | .removePredNext pred curr =>
    some (s, if s.next pred = curr then .removeEq pred curr else .removeUnlockCurr pred curr none)
  | .removeEq pred curr =>
    some (s, if op.key = s.key curr then .removeVal pred curr
      else .removeUnlockCurr pred curr (some 0))
  | .removeVal pred curr => some (s, .removeCnext pred curr (s.val curr))
  | .removeCnext pred curr result => some (s, .removeMark pred curr (s.next curr) result)
  | .removeMark pred curr cNext result => some (s.setMarked curr, .removeStore pred curr cNext result)
  | .removeStore pred curr cNext result => some (s.setNext pred cNext, .removeFree pred curr result)
  | .removeFree pred curr result =>
    some (s.ssmemFree curr, .removeUnlockCurr pred curr (some result))
  | .removeUnlockCurr pred curr result => some (s.release curr, .removeUnlockPred pred result)
  | .removeUnlockPred pred result =>
    some (s.release pred, match result with
      | none => .removeHead
      | some v => .done (.val v))
  | .done r => some (s, .done r)
  | .unchanged r => some (s, .unchanged r)

def result : Pc T V → Option (Answer V)
  | .done r => some r
  | .unchanged r => some r
  | _ => none

/-- The list, for clients that keep to keys strictly between the sentinels'
and values other than 0. -/
def program (T K V : Type*) [DecidableEq T] [LinearOrder K] [BoundedOrder K] [Zero V] :
    Program T (Call K V) (Answer V) (MarkedHeap T K V) (Pc T V) Unit where
  init := MarkedHeap.empty
  pre := Client
  start := start
  step _ t s op l := step t s op l
  result := result

/-! ### What holds at each point of a call -/

variable [BoundedOrder K] {t u : T} {S W : Set (MarkedHeap T K V)} {s s' : MarkedHeap T K V}
  {op : Call K V} {k : K} {p c : Ptr T}

/-- A node that has been linked, to the left of the key. -/
def LeftOf (S : Set (MarkedHeap T K V)) (s : MarkedHeap T K V) (k : K) (x : Ptr T) : Prop :=
  Pub S x ∧ s.key x < k

abbrev Walked (W : Set (MarkedHeap T K V)) (s : MarkedHeap T K V) (k : K) (x : Ptr T) : Prop :=
  (view T K V).Walked W s k x

/-- Thread `t` holds the lock of `x`. -/
def Held (t : T) (S : Set (MarkedHeap T K V)) (s : MarkedHeap T K V) (x : Ptr T) : Prop :=
  Pub S x ∧ s.lock x = some t

/-- Thread `t` holds the locks for removing `curr`, which has the key. -/
structure Locks (t : T) (S : Set (MarkedHeap T K V)) (s : MarkedHeap T K V) (k : K) (p c : Ptr T) :
    Prop where
  pred : Held t S s p
  curr : Held t S s c
  lt : s.key p < k
  eq : s.key c = k

/-- The assertion at each local state, for thread `t` in call `op`, in a run
through the memories `S` of which `W` since the call. -/
def At (t : T) (S W : Set (MarkedHeap T K V)) (s : MarkedHeap T K V) (op : Call K V) : Pc T V → Prop
  | .searchLt curr => (∃ k, op = .search k) ∧ Walked W s op.key curr
  | .searchNext curr => (∃ k, op = .search k) ∧ Met Lnk W curr ∧ s.key curr < op.key
  | .searchEq curr => (∃ k, op = .search k) ∧ Walked W s op.key curr ∧ op.key ≤ s.key curr
  | .searchMarked curr => (∃ k, op = .search k) ∧ Met Lnk W curr ∧ s.key curr = op.key
  | .searchVal curr => (∃ k, op = .search k) ∧ Pub S curr ∧
      (view T K V).SomeSeen W op.key (s.val curr)
  | .insertHead => ∃ k v, op = .insert k v
  | .insertLt pred curr => (∃ k v, op = .insert k v) ∧ LeftOf S s op.key pred ∧ Walked W s op.key curr
  | .insertNext curr => (∃ k v, op = .insert k v) ∧ Met Lnk W curr ∧ s.key curr < op.key
  | .insertEq pred curr => (∃ k v, op = .insert k v) ∧ LeftOf S s op.key pred ∧
      Walked W s op.key curr ∧ op.key ≤ s.key curr
  | .insertMarked curr => (∃ k v, op = .insert k v) ∧ Pub S curr ∧ s.key curr = op.key
  | .insertLock pred curr => (∃ k v, op = .insert k v) ∧ LeftOf S s op.key pred ∧ Pub S curr ∧
      op.key < s.key curr
  | .insertPredMarked pred curr => (∃ k v, op = .insert k v) ∧ Held t S s pred ∧
      s.key pred < op.key ∧ Pub S curr ∧ op.key < s.key curr
  | .insertCurrMarked pred curr => (∃ k v, op = .insert k v) ∧ Held t S s pred ∧
      s.key pred < op.key ∧ Pub S curr ∧ op.key < s.key curr ∧ s.marked pred = false
  | .insertPredNext pred curr => (∃ k v, op = .insert k v) ∧ Held t S s pred ∧
      s.key pred < op.key ∧ Pub S curr ∧ op.key < s.key curr ∧ s.marked pred = false
  | .insertNe pred curr => (∃ k v, op = .insert k v) ∧ Held t S s pred ∧
      s.key pred < op.key ∧ Pub S curr ∧ op.key < s.key curr ∧ s.marked pred = false ∧
      s.next pred = curr
  | .insertAlloc pred curr => (∃ k v, op = .insert k v) ∧ Held t S s pred ∧
      s.key pred < op.key ∧ Pub S curr ∧ op.key < s.key curr ∧ s.marked pred = false ∧
      s.next pred = curr
  | .insertStore pred newnode => ∃ k v curr, op = .insert k v ∧ Held t S s pred ∧ s.key pred < k ∧
      Pub S curr ∧ k < s.key curr ∧ s.marked pred = false ∧ s.next pred = curr ∧
      Private t S s k v curr newnode
  | .insertUnlock pred result => Held t S s pred ∧
      (result = none ∧ (∃ k v, op = .insert k v) ∨ result = some true)
  | .removeHead => ∃ k, op = .remove k
  | .removeLt pred curr => (∃ k, op = .remove k) ∧ LeftOf S s op.key pred ∧ Walked W s op.key curr
  | .removeNext curr => (∃ k, op = .remove k) ∧ Met Lnk W curr ∧ s.key curr < op.key
  | .removeNe pred curr => (∃ k, op = .remove k) ∧ LeftOf S s op.key pred ∧
      Walked W s op.key curr ∧ op.key ≤ s.key curr
  | .removeLockPred pred curr => (∃ k, op = .remove k) ∧ LeftOf S s op.key pred ∧ Pub S curr ∧
      s.key curr = op.key
  | .removeLockCurr pred curr => (∃ k, op = .remove k) ∧ Held t S s pred ∧ s.key pred < op.key ∧
      Pub S curr ∧ s.key curr = op.key
  | .removePredMarked pred curr => (∃ k, op = .remove k) ∧ Locks t S s op.key pred curr
  | .removeCurrMarked pred curr => (∃ k, op = .remove k) ∧ Locks t S s op.key pred curr ∧
      s.marked pred = false
  | .removePredNext pred curr => (∃ k, op = .remove k) ∧ Locks t S s op.key pred curr ∧
      s.marked pred = false ∧ s.marked curr = false
  | .removeEq pred curr => (∃ k, op = .remove k) ∧ Locks t S s op.key pred curr ∧
      s.marked pred = false ∧ s.marked curr = false ∧ s.next pred = curr
  | .removeVal pred curr => (∃ k, op = .remove k) ∧ Locks t S s op.key pred curr ∧
      s.marked pred = false ∧ s.marked curr = false ∧ s.next pred = curr
  | .removeCnext pred curr result => (∃ k, op = .remove k) ∧ Locks t S s op.key pred curr ∧
      s.marked pred = false ∧ s.marked curr = false ∧ s.next pred = curr ∧ s.val curr = result
  | .removeMark pred curr cNext result => (∃ k, op = .remove k) ∧ Locks t S s op.key pred curr ∧
      s.marked pred = false ∧ s.marked curr = false ∧ s.next pred = curr ∧ s.val curr = result ∧
      s.next curr = cNext
  | .removeStore pred curr cNext _ => Locks t S s op.key pred curr ∧ s.marked pred = false ∧
      s.marked curr = true ∧ s.next pred = curr ∧ s.next curr = cNext ∧ Lnk s curr
  | .removeFree pred curr _ => Held t S s pred ∧ Held t S s curr ∧ pred ≠ curr
  | .removeUnlockCurr pred curr result => Held t S s pred ∧ Held t S s curr ∧ pred ≠ curr ∧
      (result = none → ∃ k, op = .remove k)
  | .removeUnlockPred pred result => Held t S s pred ∧ (result = none → ∃ k, op = .remove k)
  | .done _ => True
  | .unchanged r => ∃ s₀ ∈ W, (mapObject K V).apply op (absMap s₀) = (absMap s₀, r)

theorem Locks.ne (h : Locks t S s k p c) : p ≠ c := by
  rintro rfl
  exact absurd h.eq (ne_of_lt h.lt)

section stable

variable (hk : Keeps t S s s')

include hk

theorem LeftOf.step {x : Ptr T} (h : LeftOf S s k x) : LeftOf (insert s' S) s' k x :=
  ⟨h.1.insert s', by rw [hk.key x h.1]; exact h.2⟩

theorem walked_step {x : Ptr T} (h : Walked W s k x) (hW : W ⊆ S) : Walked (insert s' W) s' k x :=
  NodeView.Walked.step h (hk.key x (h.1.mono hW))

variable (hu : u ≠ t)

include hu

theorem Held.mem_eq {x : Ptr T} (h : Held u S s x) : s'.mem x = s.mem x :=
  (hk.locked u hu x h.1 h.2).1

theorem Held.lnk {x : Ptr T} (h : Held u S s x) (hl : Lnk s x) : Lnk s' x :=
  (hk.locked u hu x h.1 h.2).2 hl

theorem Held.step {x : Ptr T} (h : Held u S s x) : Held u (insert s' S) s' x :=
  ⟨h.1.insert s', (congrArg LlMarked.lock (h.mem_eq hk hu)).trans h.2⟩

theorem Held.marked {x : Ptr T} {b : Bool} (h : Held u S s x) (hm : s.marked x = b) :
    s'.marked x = b :=
  (congrArg LlMarked.marked (h.mem_eq hk hu)).trans hm

theorem Held.next {x q : Ptr T} (h : Held u S s x) (hm : s.next x = q) : s'.next x = q :=
  (congrArg LlMarked.next (h.mem_eq hk hu)).trans hm

theorem Locks.step (h : Locks u S s k p c) : Locks u (insert s' S) s' k p c :=
  ⟨h.pred.step hk hu, h.curr.step hk hu, by rw [hk.key p h.pred.1]; exact h.lt,
    by rw [hk.key c h.curr.1]; exact h.eq⟩

end stable

/-- A step of another thread keeps the assertion. -/
theorem At.step {l : Pc T V} (h : At u S W s op l) (hW : W ⊆ S) (hu : u ≠ t) (hk : Keeps t S s s') :
    At u (insert s' S) (insert s' W) s' op l := by
  have hkey : ∀ {x}, Pub S x → s'.key x = s.key x := fun hx => hk.key _ hx
  have hval : ∀ {x v}, Pub S x → s.val x = v → s'.val x = v := fun hx hv => (hk.val _ hx).trans hv
  cases l with
  | searchLt c => exact ⟨h.1, walked_step hk h.2 hW⟩
  | searchNext c =>
    obtain ⟨h1, h2, h3⟩ := h
    exact ⟨h1, h2.insert s', by rw [hkey (h2.mono hW)]; exact h3⟩
  | searchEq c =>
    obtain ⟨h1, h2, h3⟩ := h
    exact ⟨h1, walked_step hk h2 hW, by rw [hkey (h2.1.mono hW)]; exact h3⟩
  | searchMarked c =>
    obtain ⟨h1, h2, h3⟩ := h
    exact ⟨h1, h2.insert s', by rw [hkey (h2.mono hW)]; exact h3⟩
  | searchVal c =>
    obtain ⟨h1, h2, h3⟩ := h
    exact ⟨h1, h2.insert s', by rw [hk.val _ h2]; exact h3.insert s'⟩
  | insertHead => exact h
  | insertLt p c => exact ⟨h.1, h.2.1.step hk, walked_step hk h.2.2 hW⟩
  | insertNext c =>
    obtain ⟨h1, h2, h3⟩ := h
    exact ⟨h1, h2.insert s', by rw [hkey (h2.mono hW)]; exact h3⟩
  | insertEq p c =>
    obtain ⟨h1, h2, h3, h4⟩ := h
    exact ⟨h1, h2.step hk, walked_step hk h3 hW, by rw [hkey (h3.1.mono hW)]; exact h4⟩
  | insertMarked c =>
    obtain ⟨h1, h2, h3⟩ := h
    exact ⟨h1, h2.insert s', by rw [hkey h2]; exact h3⟩
  | insertLock p c =>
    obtain ⟨h1, h2, h3, h4⟩ := h
    exact ⟨h1, h2.step hk, h3.insert s', by rw [hkey h3]; exact h4⟩
  | insertPredMarked p c =>
    obtain ⟨h1, h2, h3, h4, h5⟩ := h
    exact ⟨h1, h2.step hk hu, by rw [hkey h2.1]; exact h3, h4.insert s', by rw [hkey h4]; exact h5⟩
  | insertCurrMarked p c | insertPredNext p c =>
    obtain ⟨h1, h2, h3, h4, h5, h6⟩ := h
    exact ⟨h1, h2.step hk hu, by rw [hkey h2.1]; exact h3, h4.insert s', by rw [hkey h4]; exact h5,
      h2.marked hk hu h6⟩
  | insertNe p c | insertAlloc p c =>
    obtain ⟨h1, h2, h3, h4, h5, h6, h7⟩ := h
    exact ⟨h1, h2.step hk hu, by rw [hkey h2.1]; exact h3, h4.insert s', by rw [hkey h4]; exact h5,
      h2.marked hk hu h6, h2.next hk hu h7⟩
  | insertStore p n =>
    obtain ⟨k, v, c, h1, h2, h3, h4, h5, h6, h7, h8⟩ := h
    exact ⟨k, v, c, h1, h2.step hk hu, by rw [hkey h2.1]; exact h3, h4.insert s',
      by rw [hkey h4]; exact h5, h2.marked hk hu h6, h2.next hk hu h7,
      NodeView.Private.step h8 hu hk.others⟩
  | insertUnlock p r => exact ⟨h.1.step hk hu, h.2⟩
  | removeHead => exact h
  | removeLt p c => exact ⟨h.1, h.2.1.step hk, walked_step hk h.2.2 hW⟩
  | removeNext c =>
    obtain ⟨h1, h2, h3⟩ := h
    exact ⟨h1, h2.insert s', by rw [hkey (h2.mono hW)]; exact h3⟩
  | removeNe p c =>
    obtain ⟨h1, h2, h3, h4⟩ := h
    exact ⟨h1, h2.step hk, walked_step hk h3 hW, by rw [hkey (h3.1.mono hW)]; exact h4⟩
  | removeLockPred p c =>
    obtain ⟨h1, h2, h3, h4⟩ := h
    exact ⟨h1, h2.step hk, h3.insert s', by rw [hkey h3]; exact h4⟩
  | removeLockCurr p c =>
    obtain ⟨h1, h2, h3, h4, h5⟩ := h
    exact ⟨h1, h2.step hk hu, by rw [hkey h2.1]; exact h3, h4.insert s', by rw [hkey h4]; exact h5⟩
  | removePredMarked p c => exact ⟨h.1, h.2.step hk hu⟩
  | removeCurrMarked p c =>
    obtain ⟨h1, h2, h3⟩ := h
    exact ⟨h1, h2.step hk hu, h2.pred.marked hk hu h3⟩
  | removePredNext p c =>
    obtain ⟨h1, h2, h3, h4⟩ := h
    exact ⟨h1, h2.step hk hu, h2.pred.marked hk hu h3, h2.curr.marked hk hu h4⟩
  | removeEq p c | removeVal p c =>
    obtain ⟨h1, h2, h3, h4, h5⟩ := h
    exact ⟨h1, h2.step hk hu, h2.pred.marked hk hu h3, h2.curr.marked hk hu h4, h2.pred.next hk hu h5⟩
  | removeCnext p c r =>
    obtain ⟨h1, h2, h3, h4, h5, h6⟩ := h
    exact ⟨h1, h2.step hk hu, h2.pred.marked hk hu h3, h2.curr.marked hk hu h4,
      h2.pred.next hk hu h5, hval h2.curr.1 h6⟩
  | removeMark p c n r =>
    obtain ⟨h1, h2, h3, h4, h5, h6, h7⟩ := h
    exact ⟨h1, h2.step hk hu, h2.pred.marked hk hu h3, h2.curr.marked hk hu h4,
      h2.pred.next hk hu h5, hval h2.curr.1 h6, h2.curr.next hk hu h7⟩
  | removeStore p c n r =>
    obtain ⟨h1, h2, h3, h4, h5, h6⟩ := h
    exact ⟨h1.step hk hu, h1.pred.marked hk hu h2, h1.curr.marked hk hu h3, h1.pred.next hk hu h4,
      h1.curr.next hk hu h5, h1.curr.lnk hk hu h6⟩
  | removeFree p c r => exact ⟨h.1.step hk hu, h.2.1.step hk hu, h.2.2⟩
  | removeUnlockCurr p c r => exact ⟨h.1.step hk hu, h.2.1.step hk hu, h.2.2⟩
  | removeUnlockPred p r => exact ⟨h.1.step hk hu, h.2⟩
  | done r => trivial
  | unchanged r =>
    obtain ⟨s₀, hs₀, h1⟩ := h
    exact ⟨s₀, Set.mem_insert_of_mem _ hs₀, h1⟩

/-! ### The steps -/

/-- The result of a call that has taken effect. -/
def lin (_ : MarkedHeap T K V) : Call K V → Pc T V → Option (Answer V)
  | _, .insertUnlock _ (some b) => some (.flag b)
  | _, .removeStore _ _ _ result => some (.val result)
  | _, .removeFree _ _ result => some (.val result)
  | _, .removeUnlockCurr _ _ (some result) => some (.val result)
  | _, .removeUnlockPred _ (some result) => some (.val result)
  | _, .done r => some r
  | _, _ => none

/-- The nodes that a call has marked and not yet unlinked. -/
def removing : Pc T V → Set (Ptr T)
  | .removeStore _ curr _ _ => {curr}
  | _ => ∅

theorem returned_removing {l : Pc T V} {r : Answer V} (h : result l = some r) : removing l = ∅ := by
  cases l <;> first | rfl | cases h

/-- What a step does: it is one of the writes, it establishes the next
assertion, and it changes the map only where the call takes effect. -/
structure StepOk (t : T) (S W : Set (MarkedHeap T K V)) (s : MarkedHeap T K V) (op : Call K V)
    (l : Pc T V) (s' : MarkedHeap T K V) (l' : Pc T V) : Prop where
  act : Act t S s (removing l) (removing l') s'
  next : At t (insert s' S) (insert s' W) s' op l'
  point : (lin s' op l' = lin s op l ∧ absMap s' = absMap s) ∨ (lin s op l = none ∧ ∃ r,
    lin s' op l' = some r ∧ (mapObject K V).apply op (absMap s) = (absMap s', r))

/-- Taking a free lock. -/
theorem acquire_ok {x : Ptr T} (w : Wf S s) (hx : Pub S x) (h : s.acquire t x = some s') :
    Act t S s ∅ ∅ s' ∧ Held t (insert s' S) s' x ∧ absMap s' = absMap s ∧
      (∀ y, Held t S s y → Held t (insert s' S) s' y) := by
  obtain ⟨hl, rfl⟩ := MarkedHeap.acquire_eq_some h
  have hx' : MarkedHeap.lock (s.modify x fun n => { n with lock := some t }) x = some t := by
    simp [MarkedHeap.lock]
  refine ⟨.lock hx (Or.inl hl) rfl, ⟨hx.insert _, hx'⟩, lock_absMap w x _, fun y hy => ⟨hy.1.insert _, ?_⟩⟩
  by_cases hyx : y = x
  · rw [hyx]; exact hx'
  · exact (congrArg LlMarked.lock (s.mem_modify_of_ne x y _ hyx)).trans hy.2

/-- Giving a lock back. -/
theorem release_ok {x : Ptr T} (w : Wf S s) (hx : Held t S s x) :
    Act t S s ∅ ∅ (s.release x) ∧ absMap (s.release x) = absMap s :=
  ⟨.lock hx.1 (Or.inr hx.2) rfl, lock_absMap w x none⟩

section step

variable (w : Wf S s)

include w

/-- A step that only reads. -/
theorem StepOk.read {l l' : Pc T V} (hs : s ∈ W) (hM : removing l' = removing l)
    (h : At t S W s op l') (hl : lin s op l' = lin s op l) : StepOk t S W s op l s l' := by
  refine ⟨.skip hM, ?_, Or.inl ⟨hl, rfl⟩⟩
  rw [Set.insert_eq_of_mem w.listed.mem, Set.insert_eq_of_mem hs]
  exact h

theorem head_lt (hb : ⊥ < k) : s.key .head < k := by
  rw [show s.key .head = ⊥ from w.listed.head_key]; exact hb

variable (hs : s ∈ W) (hW : W ⊆ S) (hh : Hind W s) (hb : ⊥ < op.key) (ht : op.key < ⊤)

include hs hW hh hb ht

theorem walked_next {x : Ptr T} (hx : Met Lnk W x) (hk : s.key x < op.key) :
    Walked W s op.key (s.next x) :=
  NodeView.Passed.next w.listed hW hh.hind ⟨hx, Or.inl hk⟩ (w.listed.ne_tail_of_lt hk)

theorem present {x : Ptr T} (hx : Pub S x) (hk : s.key x = op.key) (hm : s.marked x = false) :
    absMap s op.key = some (s.val x) := by
  have hxh := w.listed.ne_head_of_lt (x := x) (k := ⊥) (by rw [← hk] at hb; exact hb)
  have hxt := w.listed.ne_tail_of_lt (x := x) (k := ⊤) (by rw [← hk] at ht; exact ht)
  exact hk ▸ w.listed.absMap_past w.listed.mem
    ⟨w.lnk x hx hm, fun h => Bool.noConfusion (hm.symm.trans h), hxh, hxt⟩

variable {l l' : Pc T V} (h : At t S W s op l) (hstep : step t s op l = some (s', l'))

include h hstep

theorem step_ok_search (hl : (∃ c, l = .searchLt c) ∨ (∃ c, l = .searchNext c) ∨
      (∃ c, l = .searchEq c) ∨ (∃ c, l = .searchMarked c) ∨ ∃ c, l = .searchVal c) :
    StepOk t S W s op l s' l' := by
  rcases hl with ⟨c, rfl⟩ | ⟨c, rfl⟩ | ⟨c, rfl⟩ | ⟨c, rfl⟩ | ⟨c, rfl⟩ <;> cases hstep
  · obtain ⟨h1, h2⟩ := h
    split_ifs with hlt
    · exact .read w hs rfl ⟨h1, h2.1, hlt⟩ rfl
    · exact .read w hs rfl ⟨h1, h2, not_lt.mp hlt⟩ rfl
  · obtain ⟨h1, h2, h3⟩ := h
    exact .read w hs rfl ⟨h1, walked_next w hs hW hh hb ht h2 h3⟩ rfl
  · obtain ⟨h1, h2, h3⟩ := h
    split_ifs with he
    · exact .read w hs rfl ⟨h1, h2.1, he⟩ rfl
    · obtain ⟨s₀, hs₀, h0⟩ := h2.2.resolve_left fun hle => he (le_antisymm hle h3)
      obtain ⟨k, rfl⟩ := h1
      exact .read w hs rfl ⟨s₀, hs₀, apply_search_none h0⟩ rfl
  · obtain ⟨h1, h2, h3⟩ := h
    rcases hm : s.marked c
    · exact .read w hs rfl ⟨h1, h2.mono hW, s, hs, present w hs hW hh hb ht (h2.mono hW) h3 hm⟩ rfl
    · obtain ⟨s₀, hs₀, h0⟩ := w.listed.noneSeen_of_dead hW hh h2 hm
      obtain ⟨k, rfl⟩ := h1
      rw [show (view T K V).key (s.mem c) = k from h3] at h0
      exact .read w hs rfl ⟨s₀, hs₀, apply_search_none h0⟩ rfl
  · obtain ⟨⟨k, rfl⟩, h2, s₀, hs₀, h0⟩ := h
    exact .read w hs rfl ⟨s₀, hs₀, apply_search_some h0⟩ rfl

theorem step_ok_insert_find (hl : l = .insertHead ∨ (∃ p c, l = .insertLt p c) ∨
      (∃ c, l = .insertNext c) ∨ (∃ p c, l = .insertEq p c) ∨ ∃ c, l = .insertMarked c) :
    StepOk t S W s op l s' l' := by
  rcases hl with rfl | ⟨p, c, rfl⟩ | ⟨c, rfl⟩ | ⟨p, c, rfl⟩ | ⟨c, rfl⟩ <;> cases hstep
  · exact .read w hs rfl ⟨h, ⟨w.listed.pub_head, head_lt w hb⟩, w.listed.walked_first hs hb⟩ rfl
  · obtain ⟨h1, h2, h3⟩ := h
    split_ifs with hlt
    · exact .read w hs rfl ⟨h1, h3.1, hlt⟩ rfl
    · exact .read w hs rfl ⟨h1, h2, h3, not_lt.mp hlt⟩ rfl
  · obtain ⟨h1, h2, h3⟩ := h
    exact .read w hs rfl ⟨h1, ⟨h2.mono hW, h3⟩, walked_next w hs hW hh hb ht h2 h3⟩ rfl
  · obtain ⟨h1, h2, h3, h4⟩ := h
    split_ifs with he
    · exact .read w hs rfl ⟨h1, h3.1.mono hW, he⟩ rfl
    · exact .read w hs rfl ⟨h1, h2, h3.1.mono hW, lt_of_le_of_ne h4 (Ne.symm he)⟩ rfl
  · obtain ⟨h1, h2, h3⟩ := h
    rcases hm : s.marked c
    · have := present w hs hW hh hb ht h2 h3 hm
      obtain ⟨k, v, rfl⟩ := h1
      exact .read w hs rfl ⟨s, hs, apply_insert_some this⟩ rfl
    · exact .read w hs rfl h1 rfl

theorem step_ok_insert (hl : (∃ p c, l = .insertLock p c) ∨ (∃ p c, l = .insertPredMarked p c) ∨
      (∃ p c, l = .insertCurrMarked p c) ∨ (∃ p c, l = .insertPredNext p c) ∨
      (∃ p c, l = .insertNe p c) ∨ (∃ p c, l = .insertAlloc p c) ∨ (∃ p n, l = .insertStore p n) ∨
      ∃ p r, l = .insertUnlock p r) : StepOk t S W s op l s' l' := by
  rcases hl with ⟨p, c, rfl⟩ | ⟨p, c, rfl⟩ | ⟨p, c, rfl⟩ | ⟨p, c, rfl⟩ | ⟨p, c, rfl⟩ | ⟨p, c, rfl⟩ |
    ⟨p, n, rfl⟩ | ⟨p, r, rfl⟩
  · obtain ⟨h1, h2, h3, h4⟩ := h
    obtain ⟨s', ha, he⟩ := Option.map_eq_some_iff.mp hstep
    cases he
    obtain ⟨hact, hheld, habs, -⟩ := acquire_ok w h2.1 ha
    have hk := hact.keeps w
    exact ⟨hact, ⟨h1, hheld, by rw [hk.key p h2.1]; exact h2.2, h3.insert _,
      by rw [hk.key c h3]; exact h4⟩, Or.inl ⟨rfl, habs⟩⟩
  · cases hstep
    obtain ⟨h1, h2, h3, h4, h5⟩ := h
    rcases hm : s.marked p
    · exact .read w hs rfl ⟨h1, h2, h3, h4, h5, hm⟩ rfl
    · exact .read w hs rfl ⟨h2, Or.inl ⟨rfl, h1⟩⟩ rfl
  · cases hstep
    obtain ⟨h1, h2, h3, h4, h5, h6⟩ := h
    rcases hm : s.marked c
    · exact .read w hs rfl ⟨h1, h2, h3, h4, h5, h6⟩ rfl
    · exact .read w hs rfl ⟨h2, Or.inl ⟨rfl, h1⟩⟩ rfl
  · cases hstep
    obtain ⟨h1, h2, h3, h4, h5, h6⟩ := h
    split_ifs with hn
    · exact .read w hs rfl ⟨h1, h2, h3, h4, h5, h6, hn⟩ rfl
    · exact .read w hs rfl ⟨h2, Or.inl ⟨rfl, h1⟩⟩ rfl
  · cases hstep
    obtain ⟨h1, h2, h3, h4, h5, h6, h7⟩ := h
    rw [if_pos (ne_of_gt h5)]
    exact .read w hs rfl ⟨h1, h2, h3, h4, h5, h6, h7⟩ rfl
  · obtain ⟨⟨k, v, rfl⟩, h2, h3, h4, h5, h6, h7⟩ := h
    cases hstep
    obtain ⟨hsame, hm, hp⟩ := w.listed.allocate t ⟨k, v, c, false, none⟩
    have hact : Act t S s ∅ ∅ (s.allocateLlMarked t k v c).1 := .alloc k v c rfl
    have hk := hact.keeps w
    have hmp := hm p h2.1
    refine ⟨hact, ⟨k, v, c, rfl, ⟨h2.1.insert _, ?_⟩, ?_, h4.insert _, ?_, ?_, ?_, hp⟩,
      Or.inl ⟨rfl, hsame.absMap w.listed fun x hx => ?_⟩⟩
    · exact (congrArg LlMarked.lock hmp).trans h2.2
    · exact (hk.key p h2.1).trans_lt h3
    · exact h5.trans_eq (hk.key c h4).symm
    · exact (congrArg LlMarked.marked hmp).trans h6
    · exact (congrArg LlMarked.next hmp).trans h7
    · exact iff_of_eq (congrArg (fun n => n.marked = true) (hm x (w.listed.pub_lnk hx)))
  · obtain ⟨k, v, c, rfl, h2, h3, h4, h5, h6, rfl, h8⟩ := h
    cases hstep
    have hl := w.lnk p h2.1 h6
    have hact : Act t S s ∅ ∅ (s.setNext p n) := .link h2.2 hl h6 h8 h3 h5 rfl
    obtain ⟨hn, habs⟩ := link_absMap w hl h8 h3 h5
    refine ⟨hact, ⟨⟨h2.1.insert _, ?_⟩, Or.inr rfl⟩, Or.inr ⟨rfl, _, rfl, ?_⟩⟩
    · rw [MarkedHeap.lock_setNext]; exact h2.2
    · rw [apply_insert_none hn, ← habs]
  · cases hstep
    obtain ⟨h1, h2⟩ := h
    obtain ⟨hact, habs⟩ := release_ok w h1
    rcases h2 with ⟨rfl, h2⟩ | rfl
    · exact ⟨hact, h2, Or.inl ⟨rfl, habs⟩⟩
    · exact ⟨hact, trivial, Or.inl ⟨rfl, habs⟩⟩

theorem step_ok_remove_find (hl : l = .removeHead ∨ (∃ p c, l = .removeLt p c) ∨
      (∃ c, l = .removeNext c) ∨ (∃ p c, l = .removeNe p c) ∨ (∃ p c, l = .removeLockPred p c) ∨
      ∃ p c, l = .removeLockCurr p c) : StepOk t S W s op l s' l' := by
  rcases hl with rfl | ⟨p, c, rfl⟩ | ⟨c, rfl⟩ | ⟨p, c, rfl⟩ | ⟨p, c, rfl⟩ | ⟨p, c, rfl⟩
  · cases hstep
    exact .read w hs rfl ⟨h, ⟨w.listed.pub_head, head_lt w hb⟩, w.listed.walked_first hs hb⟩ rfl
  · cases hstep
    obtain ⟨h1, h2, h3⟩ := h
    split_ifs with hlt
    · exact .read w hs rfl ⟨h1, h3.1, hlt⟩ rfl
    · exact .read w hs rfl ⟨h1, h2, h3, not_lt.mp hlt⟩ rfl
  · cases hstep
    obtain ⟨h1, h2, h3⟩ := h
    exact .read w hs rfl ⟨h1, ⟨h2.mono hW, h3⟩, walked_next w hs hW hh hb ht h2 h3⟩ rfl
  · cases hstep
    obtain ⟨h1, h2, h3, h4⟩ := h
    by_cases he : s.key c = op.key
    · rw [if_neg (not_not.mpr he)]
      exact .read w hs rfl ⟨h1, h2, h3.1.mono hW, he⟩ rfl
    · rw [if_pos he]
      obtain ⟨s₀, hs₀, h0⟩ := h3.2.resolve_left fun hle => he (le_antisymm hle h4)
      obtain ⟨k, rfl⟩ := h1
      exact .read w hs rfl ⟨s₀, hs₀, apply_remove_none h0⟩ rfl
  · obtain ⟨h1, h2, h3, h4⟩ := h
    obtain ⟨s', ha, he⟩ := Option.map_eq_some_iff.mp hstep
    cases he
    obtain ⟨hact, hheld, habs, -⟩ := acquire_ok w h2.1 ha
    have hk := hact.keeps w
    exact ⟨hact, ⟨h1, hheld, by rw [hk.key p h2.1]; exact h2.2, h3.insert _,
      by rw [hk.key c h3]; exact h4⟩, Or.inl ⟨rfl, habs⟩⟩
  · obtain ⟨h1, h2, h3, h4, h5⟩ := h
    obtain ⟨s', ha, he⟩ := Option.map_eq_some_iff.mp hstep
    cases he
    obtain ⟨hact, hheld, habs, hold⟩ := acquire_ok w h4 ha
    have hk := hact.keeps w
    exact ⟨hact, ⟨h1, hold p h2, hheld, by rw [hk.key p h2.1]; exact h3,
      by rw [hk.key c h4]; exact h5⟩, Or.inl ⟨rfl, habs⟩⟩

theorem step_ok_remove_validate (hl : (∃ p c, l = .removePredMarked p c) ∨
      (∃ p c, l = .removeCurrMarked p c) ∨ (∃ p c, l = .removePredNext p c) ∨
      (∃ p c, l = .removeEq p c) ∨ (∃ p c, l = .removeVal p c) ∨ ∃ p c r, l = .removeCnext p c r) :
    StepOk t S W s op l s' l' := by
  rcases hl with ⟨p, c, rfl⟩ | ⟨p, c, rfl⟩ | ⟨p, c, rfl⟩ | ⟨p, c, rfl⟩ | ⟨p, c, rfl⟩ |
    ⟨p, c, r, rfl⟩ <;> cases hstep
  · obtain ⟨h1, h2⟩ := h
    rcases hm : s.marked p
    · exact .read w hs rfl ⟨h1, h2, hm⟩ rfl
    · exact .read w hs rfl ⟨h2.pred, h2.curr, h2.ne, fun _ => h1⟩ rfl
  · obtain ⟨h1, h2, h3⟩ := h
    rcases hm : s.marked c
    · exact .read w hs rfl ⟨h1, h2, h3, hm⟩ rfl
    · exact .read w hs rfl ⟨h2.pred, h2.curr, h2.ne, fun _ => h1⟩ rfl
  · obtain ⟨h1, h2, h3, h4⟩ := h
    split_ifs with hn
    · exact .read w hs rfl ⟨h1, h2, h3, h4, hn⟩ rfl
    · exact .read w hs rfl ⟨h2.pred, h2.curr, h2.ne, fun _ => h1⟩ rfl
  · rw [if_pos h.2.1.eq.symm]
    exact .read w hs rfl h rfl
  · obtain ⟨h1, h2, h3, h4, h5⟩ := h
    exact .read w hs rfl ⟨h1, h2, h3, h4, h5, rfl⟩ rfl
  · obtain ⟨h1, h2, h3, h4, h5, h6⟩ := h
    exact .read w hs rfl ⟨h1, h2, h3, h4, h5, h6, rfl⟩ rfl

theorem step_ok_remove (hl : (∃ p c n r, l = .removeMark p c n r) ∨
      (∃ p c n r, l = .removeStore p c n r) ∨ (∃ p c r, l = .removeFree p c r) ∨
      (∃ p c r, l = .removeUnlockCurr p c r) ∨ ∃ p r, l = .removeUnlockPred p r) :
    StepOk t S W s op l s' l' := by
  rcases hl with ⟨p, c, n, r, rfl⟩ | ⟨p, c, n, r, rfl⟩ | ⟨p, c, r, rfl⟩ | ⟨p, c, r, rfl⟩ |
    ⟨p, r, rfl⟩ <;> cases hstep
  · obtain ⟨h1, h2, h3, h4, h5, h6, h7⟩ := h
    have hl := w.lnk c h2.curr.1 h4
    have hch : c ≠ .head := w.listed.ne_head_of_lt (show ⊥ < s.key c by rw [h2.eq]; exact hb)
    have hct : c ≠ .tail := w.listed.ne_tail_of_lt (show s.key c < ⊤ by rw [h2.eq]; exact ht)
    have hact : Act t S s ∅ {c} (s.setMarked c) := .mark h2.curr.2 hl h4 hch hct (by simp)
    obtain ⟨hv, habs⟩ := mark_absMap w hl h4 hch hct
    refine ⟨hact, ⟨⟨⟨h2.pred.1.insert _, ?_⟩, ⟨h2.curr.1.insert _, ?_⟩, ?_, ?_⟩, ?_, ?_, ?_, ?_, ?_⟩,
      Or.inr ⟨rfl, _, rfl, ?_⟩⟩
    · rw [MarkedHeap.lock_setMarked]; exact h2.pred.2
    · rw [MarkedHeap.lock_setMarked]; exact h2.curr.2
    · rw [MarkedHeap.key_setMarked]; exact h2.lt
    · rw [MarkedHeap.key_setMarked]; exact h2.eq
    · rw [MarkedHeap.marked_setMarked_of_ne s c p h2.ne]; exact h3
    · exact MarkedHeap.marked_setMarked_self s c
    · rw [MarkedHeap.next_setMarked]; exact h5
    · rw [MarkedHeap.next_setMarked]; exact h7
    · exact ((mark_same S s c).lnk w.listed c).mpr hl
    · obtain ⟨k, rfl⟩ := h1
      rw [show s.key c = k from h2.eq, h6] at hv
      rw [show s.key c = k from h2.eq] at habs
      rw [apply_remove_some hv, ← habs]
  · obtain ⟨h1, h2, h3, h4, rfl, h6⟩ := h
    have hl := w.lnk p h1.pred.1 h2
    have hpt := w.listed.ne_tail_of_lt h1.lt
    have hct : c ≠ .tail := w.listed.ne_tail_of_lt (show s.key c < ⊤ by rw [h1.eq]; exact ht)
    refine ⟨.unlink h1.pred.2 h1.curr.2 hl h2 h4 h3 hpt hct Set.sdiff_self.symm,
      ⟨⟨h1.pred.1.insert _, ?_⟩, ⟨h1.curr.1.insert _, ?_⟩, h1.ne⟩,
      Or.inl ⟨rfl, unlink_absMap w hl h4 hpt hct h3⟩⟩
    · rw [MarkedHeap.lock_setNext]; exact h1.pred.2
    · rw [MarkedHeap.lock_setNext]; exact h1.curr.2
  · obtain ⟨h1, h2, h3⟩ := h
    exact ⟨.free c rfl, ⟨⟨h1.1.insert _, h1.2⟩, ⟨h2.1.insert _, h2.2⟩, h3, nofun⟩, Or.inl ⟨rfl, rfl⟩⟩
  · obtain ⟨h1, h2, h3, h4⟩ := h
    obtain ⟨hact, habs⟩ := release_ok w h2
    refine ⟨hact, ⟨⟨h1.1.insert _, ?_⟩, h4⟩, Or.inl ⟨?_, habs⟩⟩
    · exact (congrArg LlMarked.lock (s.mem_modify_of_ne c p _ h3)).trans h1.2
    · cases r <;> rfl
  · obtain ⟨h1, h2⟩ := h
    obtain ⟨hact, habs⟩ := release_ok w h1
    rcases r with _ | v
    · exact ⟨hact, h2 rfl, Or.inl ⟨rfl, habs⟩⟩
    · exact ⟨hact, trivial, Or.inl ⟨rfl, habs⟩⟩

/-- **Every step is one of the writes, and leads to the next assertion.** -/
theorem step_ok (hr : result l = none) : StepOk t S W s op l s' l' := by
  cases l
  case searchLt | searchNext | searchEq | searchMarked | searchVal =>
    exact step_ok_search w hs hW hh hb ht h hstep (by simp)
  case insertHead | insertLt | insertNext | insertEq | insertMarked =>
    exact step_ok_insert_find w hs hW hh hb ht h hstep (by simp)
  case insertLock | insertPredMarked | insertCurrMarked | insertPredNext | insertNe | insertAlloc |
      insertStore | insertUnlock =>
    exact step_ok_insert w hs hW hh hb ht h hstep (by simp)
  case removeHead | removeLt | removeNext | removeNe | removeLockPred | removeLockCurr =>
    exact step_ok_remove_find w hs hW hh hb ht h hstep (by simp)
  case removePredMarked | removeCurrMarked | removePredNext | removeEq | removeVal | removeCnext =>
    exact step_ok_remove_validate w hs hW hh hb ht h hstep (by simp)
  case removeMark | removeStore | removeFree | removeUnlockCurr | removeUnlockPred =>
    exact step_ok_remove w hs hW hh hb ht h hstep (by simp)
  case done => cases hr
  case unchanged => cases hr

end step

/-! ### Runs -/

theorem start_at (w : Wf S s) (op : Call K V) : At t S {s} s op (start op) := by
  rcases op with k | ⟨k, v⟩ | k
  · refine ⟨⟨k, rfl⟩, ⟨s, rfl, linked_head⟩, Or.inl ?_⟩
    rw [show (view T K V).key (s.mem .head) = ⊥ from w.listed.head_key]
    exact bot_le
  · exact ⟨k, v, rfl⟩
  · exact ⟨k, rfl⟩

variable [Nontrivial K]

/-- The proof outline. -/
def outline : Outline (program T K V) (fun _ _ _ _ => True) (fun _ _ => False) where
  glob es s := Wf ((program T K V).seen es) s
  loc t W₀ W s op l := W ⊆ W₀ ∧ Hind W s ∧ Client op ∧ At t W₀ W s op l
  pair _ _ := True
  pair_symm := id
  init := Wf.initial
  frame := by
    intro es s e th hw _
    rw [Program.seen, Set.insert_eq_of_mem hw.listed.mem]
    exact hw
  call t hw hs hp := ⟨Set.singleton_subset_iff.mpr hs, .singleton _, hp, start_at hw _⟩
  call_pair := trivial
  tau := by
    intro es c t op l i s' l' hr ht hres hstep _ hw ⟨hW, hh, hc, hat⟩
    have hok := step_ok hw (hr.shared_mem_window _ ht) hW hh hc.1 hc.2.1 hat hstep hres
    have hk := hok.act.keeps hw
    rw [extend_of_not id]
    exact ⟨hok.act.wf hw, ⟨Set.insert_subset_insert hW, hok.act.hindsight hw hW hh, hc, hok.next⟩,
      fun u op₁ l₁ hu _ ⟨hW₁, hh₁, hc₁, hat₁⟩ _ => ⟨⟨Set.insert_subset_insert hW₁,
        hok.act.hindsight hw hW₁ hh₁, hc₁, hat₁.step hW₁ hu hk⟩, trivial⟩⟩

section run

variable {es : Trace T (Call K V) (Answer V) (MarkedHeap T K V) (Pc T V)}
  {c : Config T (Call K V) (MarkedHeap T K V) (Pc T V)}

theorem step_ok_of_run (hr : (program T K V).Run es c) {l l' : Pc T V}
    (ht : c.threads t = some (op, l)) (hres : result l = none)
    (hstep : step t c.shared op l = some (s', l')) :
    StepOk t ((program T K V).seen es) (window (fun _ _ => False) t es) c.shared op l s' l' := by
  obtain ⟨hW, hh, hc, hat⟩ := (outline.holds hr).loc t op l ht
  exact step_ok (outline.holds hr).glob (hr.shared_mem_window _ ht) hW hh hc.1 hc.2.1 hat hstep hres

/-- **The list is linearizable to the map of its linked unmarked nodes.** -/
theorem linearizable [Fintype T] : Linearizable (mapObject K V) (program T K V) absMap :=
  Concur.linearizable <| outline.points lin empty_absMap (fun s op => by cases op <;> rfl)
    (fun hr _ ht hres hstep _ => ⟨(step_ok_of_run hr ht hres hstep).point, fun _ _ _ _ _ => rfl⟩)
    fun {es c t op l r} hr hh ht hres => by
      have hat := (hh.loc t op l ht).2.2.2
      cases l <;> cases hres
      · exact Or.inl rfl
      · exact Or.inr ⟨rfl, hat⟩

/-- Thread `t` has marked `x` and not yet stored `pred->next`. -/
def Removing (c : Config T (Call K V) (MarkedHeap T K V) (Pc T V)) (t : T) (x : Ptr T) : Prop :=
  ∃ op pred cNext result, c.threads t = some (op, .removeStore pred x cNext result)

omit [LinearOrder K] [Zero V] [BoundedOrder K] [Nontrivial K] in
theorem removing_iff {c : Config T (Call K V) (MarkedHeap T K V) (Pc T V)} {t : T} {x : Ptr T} :
    Removing c t x ↔ ∃ op l, c.threads t = some (op, l) ∧ x ∈ removing l := by
  constructor
  · rintro ⟨op, p, n, r, h⟩
    exact ⟨op, _, h, rfl⟩
  · rintro ⟨op, l, h, hx⟩
    cases l
    case removeStore p c n r => exact ⟨op, p, n, r, (show x = c from hx) ▸ h⟩
    all_goals exact absurd hx (Set.notMem_empty x)

/-- A linked marked node is being removed. -/
theorem removing_of_run (hr : (program T K V).Run es c) {x : Ptr T} (hx : Lnk c.shared x)
    (hm : c.shared.marked x = true) : ∃ t, Removing c t x := by
  simp only [removing_iff]
  refine hr.responsible (Q := fun s => Lnk s x ∧ s.marked x = true) (A := fun _ l => x ∈ removing l)
    ?_ ?_ ?_ ⟨hx, hm⟩
  · rintro ⟨hx, hm⟩
    rcases (NodeView.lnk_empty rfl x).mp hx with rfl | rfl <;> cases hm
  · intro op l r hres
    rw [returned_removing hres]
    exact Set.notMem_empty x
  · intro es c t op l i s' l' hr ht hres hstep _ hQ
    exact (step_ok_of_run hr ht hres hstep).act.removing (outline.holds hr).glob x hQ.1 hQ.2

/-- **Which nodes are linked**: those that were inserted and are not marked,
and those that a remover has marked and not yet unlinked. -/
theorem lnk_iff (hr : (program T K V).Run es c) (x : Ptr T) : Lnk c.shared x ↔
    (Pub ((program T K V).seen es) x ∧ c.shared.marked x = false) ∨ ∃ t, Removing c t x := by
  have hh := outline.holds hr
  constructor
  · intro hx
    rcases hm : c.shared.marked x
    · exact Or.inl ⟨hh.glob.listed.pub_lnk hx, rfl⟩
    · exact Or.inr (removing_of_run hr hx hm)
  · rintro (⟨hx, hm⟩ | ⟨t, op, p, n, r, ht⟩)
    · exact hh.glob.lnk x hx hm
    · exact (hh.loc t op _ ht).2.2.2.2.2.2.2.2

end run

/-- **The lazy list is a map.** Its calls are linearizable, and the list is
sorted and consists of the inserted unmarked nodes and, for each remover that
has marked its node and not yet stored `pred->next`, that node. -/
theorem lazy_list_linearizable [Fintype T] :
    Linearizable (mapObject K V) (program T K V) absMap ∧
    ∀ es c, (program T K V).Run es c → Sorted c.shared.next c.shared.key .head .tail ∧
      ∀ x, Lnk c.shared x ↔ (Pub ((program T K V).seen es) x ∧ c.shared.marked x = false) ∨
        ∃ t, Removing c t x :=
  ⟨linearizable, fun _ _ hr => ⟨(outline.holds hr).glob.listed.sorted, lnk_iff hr⟩⟩

/-- Three threads, and keys 1 to 8. -/
theorem lazy_list_linearizable_three :
    Linearizable (mapObject (Fin 10) ℕ) (program (Fin 3) (Fin 10) ℕ) absMap :=
  lazy_list_linearizable.1

end LinkedListLazy

end Ascylib
