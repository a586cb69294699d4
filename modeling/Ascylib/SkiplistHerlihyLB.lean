/-
# The skip list of Herlihy et al. with optimistic locks

`src/algorithms/skiplist_herlihy_lb.h` with a lock in each node, one local state
for each access to shared memory. A search locks nothing. `insert` locks the
predecessors of its key from level 0 up and validates each, then links the node
from level 0 up and declares it fully linked. `remove` locks and marks its node
first, which it keeps while it looks for the predecessors, and unlinks it from
the highest level down.

What a thread holds is known at every point of a call (`holds`). The backoff is
left out.

Key theorem: `herlihy_lb_linearizable`.
-/
import Ascylib.SlMarked

set_option linter.unusedSectionVars false

namespace Ascylib

open Concur Chain

namespace SkiplistHerlihyLB

variable {T K V : Type*} [DecidableEq T] [LinearOrder K]

/-- The arrays `preds` and `succs`. -/
structure Lists (T : Type*) where
  preds : ℕ → Ptr T
  succs : ℕ → Ptr T

/-- `preds[i] = pred`. -/
def Lists.setPred (a : Lists T) (i : ℕ) (pred : Ptr T) : Lists T :=
  ⟨Function.update a.preds i pred, a.succs⟩

/-- `succs[i] = curr`. -/
def Lists.setSucc (a : Lists T) (i : ℕ) (curr : Ptr T) : Lists T :=
  ⟨a.preds, Function.update a.succs i curr⟩

/-- The arrays before anything is written to them. -/
def noLists : Lists T := ⟨fun _ => .null, fun _ => .null⟩

/-- Who called `optimistic_search`, and locks the predecessors after it. -/
inductive Caller (T : Type*) where
  /-- `insert`, for a node of `toplevel` levels -/
  | insert (toplevel : ℕ)
  /-- `remove`, while `is_marked` is 0 -/
  | remove
  /-- `remove`, which has locked and marked `node_to_remove` -/
  | removing (node : Ptr T) (toplevel : ℕ)

/-- The levels that the caller locks: none while `is_marked` is 0, when
`toplevel` is -1. -/
def Caller.toplevel : Caller T → ℕ
  | .insert toplevel => toplevel
  | .remove => 0
  | .removing _ toplevel => toplevel

/-- What follows `unlock_levels`. -/
inductive After (T V : Type*) where
  /-- `continue` -/
  | retry (q : Caller T)
  /-- `return r` -/
  | ret (r : Answer V)

/-- Where a call is, with the local variables that are live there. `found` is
`none` for -1, and `high` is `highest_locked + 1`. -/
inductive Pc (T V : Type*) where
  /-- `optimistic_left_search`: `i = pred->toplevel - 1`, for `pred = head` -/
  | left
  /-- `curr = pred->next[i]` -/
  | leftNext (pred : Ptr T) (i : ℕ)
  /-- `key > curr->key` -/
  | leftKey (pred curr : Ptr T) (i : ℕ)
  /-- `key == curr->key` -/
  | leftEq (pred curr : Ptr T) (i : ℕ)
  /-- `search`: `!node->marked` -/
  | searchMarked (node : Ptr T)
  /-- `node->fullylinked` -/
  | searchFull (node : Ptr T)
  /-- `result = node->val` -/
  | searchVal (node : Ptr T)
  /-- `insert`: `toplevel = get_rand_level()` -/
  | insertLevel
  /-- `optimistic_search`: `i = pred->toplevel - 1`, for `pred = head` -/
  | find (q : Caller T)
  /-- `curr = pred->next[i]` -/
  | findNext (q : Caller T) (pred : Ptr T) (i : ℕ) (lists : Lists T) (found : Option ℕ)
  /-- `key > curr->key` -/
  | findKey (q : Caller T) (pred curr : Ptr T) (i : ℕ) (lists : Lists T) (found : Option ℕ)
  /-- `preds[i] = pred`, `pred->marked` -/
  | findMarked (q : Caller T) (pred curr : Ptr T) (i : ℕ) (lists : Lists T) (found : Option ℕ)
  /-- `succs[i] = curr`, `found == -1 && key == curr->key` -/
  | findEq (q : Caller T) (pred curr : Ptr T) (i : ℕ) (lists : Lists T) (found : Option ℕ)
  /-- `insert`: `!node_found->marked` -/
  | insertMarked (toplevel : ℕ) (nodeFound : Ptr T)
  /-- `!node_found->fullylinked` -/
  | insertSpin (nodeFound : Ptr T)
  /-- `ok_to_delete(succs[found], found)`: `node->fullylinked` -/
  | okFull (lists : Lists T) (found : ℕ)
  /-- `(node->toplevel-1) == found` -/
  | okTop (lists : Lists T) (found : ℕ)
  /-- `!node->marked` -/
  | okMarked (lists : Lists T) (found : ℕ)
  /-- `LOCK(ND_GET_LOCK(node_to_remove))` -/
  | removeLock (lists : Lists T) (node : Ptr T)
  /-- `toplevel = node_to_remove->toplevel` -/
  | removeTop (lists : Lists T) (node : Ptr T)
  /-- `node_to_remove->marked` -/
  | removeMarked (lists : Lists T) (node : Ptr T) (toplevel : ℕ)
  /-- `UNLOCK(ND_GET_LOCK(node_to_remove))`, and `return 0` -/
  | removeGone (node : Ptr T)
  /-- `node_to_remove->marked = 1` -/
  | removeMark (lists : Lists T) (node : Ptr T) (toplevel : ℕ)
  /-- `LOCK(ND_GET_LOCK(pred))` -/
  | lock (q : Caller T) (lists : Lists T) (i high : ℕ)
  /-- `!pred->marked` -/
  | predMarked (q : Caller T) (lists : Lists T) (i high : ℕ)
  /-- `!succ->marked`, in `insert` only -/
  | succMarked (q : Caller T) (lists : Lists T) (i high : ℕ)
  /-- `pred->next[i] == succ` -/
  | predNext (q : Caller T) (lists : Lists T) (i high : ℕ)
  /-- `new_node = allocate_sl_marked_unlinked(key, val, .., toplevel, 0)` -/
  | insertAlloc (toplevel : ℕ) (lists : Lists T) (high : ℕ)
  /-- `new_node->next[i] = succs[i]` -/
  | insertFill (toplevel : ℕ) (lists : Lists T) (high : ℕ) (newNode : Ptr T) (i : ℕ)
  /-- `preds[i]->next[i] = new_node` -/
  | insertLink (toplevel : ℕ) (lists : Lists T) (high : ℕ) (newNode : Ptr T) (i : ℕ)
  /-- `new_node->fullylinked = 1` -/
  | insertFull (toplevel : ℕ) (lists : Lists T) (high : ℕ) (newNode : Ptr T)
  /-- `node_to_remove->next[i]` -/
  | removeNext (lists : Lists T) (high : ℕ) (node : Ptr T) (i : ℕ)
  /-- `preds[i]->next[i] = ..` -/
  | removeStore (lists : Lists T) (high : ℕ) (node : Ptr T) (i : ℕ) (nodeNext : Ptr T)
  /-- `val = node_to_remove->val` -/
  | removeVal (lists : Lists T) (high : ℕ) (node : Ptr T)
  /-- `ssmem_free(alloc, node_to_remove)` -/
  | removeFree (lists : Lists T) (high : ℕ) (node : Ptr T) (val : V)
  /-- `UNLOCK(ND_GET_LOCK(node_to_remove))` -/
  | removeUnlock (lists : Lists T) (high : ℕ) (node : Ptr T) (val : V)
  /-- `unlock_levels(preds, highest_locked)`: `if (old != nodes[i]) UNLOCK(..)` -/
  | unlock (lists : Lists T) (i : ℕ) (old : Ptr T) (high : ℕ) (after : After T V)
  /-- `return r` from a call that took effect -/
  | done (r : Answer V)
  /-- `return r` from a call that changed nothing -/
  | unchanged (r : Answer V)

variable [Zero V]

def start : Call K V → Pc T V
  | .search _ => .left
  | .insert _ _ => .insertLevel
  | .remove _ => .find .remove

/-- `optimistic_left_search` goes down a level. -/
def leftLevel (pred : Ptr T) : ℕ → Pc T V
  | 0 => .unchanged (.val 0)
  | i + 1 => .leftNext pred i

/-- The head of the loop that locks the predecessors. -/
def lockLevel (q : Caller T) (lists : Lists T) (i : ℕ) (prevPred : Ptr T) (high : ℕ) : Pc T V :=
  if i < q.toplevel then
    if lists.preds i ≠ prevPred then .lock q lists i high else .predMarked q lists i high
  else match q with
    | .insert toplevel => .insertAlloc toplevel lists high
    | .removing node (i + 1) => .removeNext lists high node i
    | .removing node 0 => .removeVal lists high node
    | .remove => .unchanged (.val 0)

/-- `optimistic_search` returns `found`. -/
def findDone (q : Caller T) (lists : Lists T) (found : Option ℕ) : Pc T V :=
  match q, found with
  | .insert toplevel, some found => .insertMarked toplevel (lists.succs found)
  | .insert toplevel, none => lockLevel (.insert toplevel) lists 0 .null 0
  | .remove, some found => .okFull lists found
  | .remove, none => .unchanged (.val 0)
  | .removing node toplevel, _ => lockLevel (.removing node toplevel) lists 0 .null 0

/-- `optimistic_search` is done with level `i`. -/
def findLevel (q : Caller T) (pred : Ptr T) (i : ℕ) (lists : Lists T) (found : Option ℕ) : Pc T V :=
  match i with
  | 0 => findDone q lists found
  | i + 1 => .findNext q pred i lists found

/-- `unlock_levels` returns. -/
def unlocked : After T V → Pc T V
  | .retry q => .find q
  | .ret r => .done r

/-- The next access to shared memory of thread `t`, and what follows from it;
`none` while it waits for a lock. `level` is what `get_rand_level()` draws. -/
def step (level : ℕ) (t : T) (s : MarkedSkipHeap T K V) (op : Call K V) :
    Pc T V → Option (MarkedSkipHeap T K V × Pc T V)
  | .left => some (s, leftLevel .head (s.toplevel .head))
  | .leftNext pred i => some (s, .leftKey pred (s.next pred i) i)
  | .leftKey pred curr i =>
    some (s, if s.key curr < op.key then .leftNext curr i else .leftEq pred curr i)
  | .leftEq pred curr i =>
    some (s, if op.key = s.key curr then .searchMarked curr else leftLevel pred i)
  | .searchMarked node =>
    some (s, if !s.marked node then .searchFull node else .unchanged (.val 0))
  | .searchFull node =>
    some (s, if s.fullylinked node then .searchVal node else .unchanged (.val 0))
  | .searchVal node => some (s, .unchanged (.val (s.val node)))
  | .insertLevel => some (s, .find (.insert level))
  | .find q => some (s, findLevel q .head (s.toplevel .head) noLists none)
  | .findNext q pred i lists found => some (s, .findKey q pred (s.next pred i) i lists found)
  | .findKey q pred curr i lists found =>
    some (s, if s.key curr < op.key then .findNext q curr i lists found
      else .findMarked q pred curr i lists found)
  | .findMarked q pred curr i lists found =>
    some (s, if s.marked pred then .find q else .findEq q pred curr i (lists.setPred i pred) found)
  | .findEq q pred curr i lists found =>
    some (s, findLevel q pred i (lists.setSucc i curr)
      (if found = none ∧ op.key = s.key curr then some i else found))
  | .insertMarked toplevel nodeFound =>
    some (s, if !s.marked nodeFound then .insertSpin nodeFound else .find (.insert toplevel))
  | .insertSpin nodeFound =>
    some (s, if !s.fullylinked nodeFound then .insertSpin nodeFound else .unchanged (.flag false))
  | .okFull lists found =>
    some (s, if s.fullylinked (lists.succs found) then .okTop lists found else .unchanged (.val 0))
  | .okTop lists found =>
    some (s, if s.toplevel (lists.succs found) - 1 = found then .okMarked lists found
      else .unchanged (.val 0))
  | .okMarked lists found =>
    some (s, if !s.marked (lists.succs found) then .removeLock lists (lists.succs found)
      else .unchanged (.val 0))
  | .removeLock lists node => (s.acquire t node).map fun s' => (s', .removeTop lists node)
  | .removeTop lists node => some (s, .removeMarked lists node (s.toplevel node))
  | .removeMarked lists node toplevel =>
    some (s, if s.marked node then .removeGone node else .removeMark lists node toplevel)
  | .removeGone node => some (s.release node, .unchanged (.val 0))
  | .removeMark lists node toplevel =>
    some (s.setMarked node, lockLevel (.removing node toplevel) lists 0 .null 0)
  | .lock q lists i _ =>
    (s.acquire t (lists.preds i)).map fun s' => (s', .predMarked q lists i (i + 1))
  | .predMarked q lists i high =>
    some (s, if !s.marked (lists.preds i) then
        match q with
        | .insert _ => .succMarked q lists i high
        | _ => .predNext q lists i high
      else .unlock lists 0 .null high (.retry q))
  | .succMarked q lists i high =>
    some (s, if !s.marked (lists.succs i) then .predNext q lists i high
      else .unlock lists 0 .null high (.retry q))
  | .predNext q lists i high =>
    some (s, if s.next (lists.preds i) i = lists.succs i then
        lockLevel q lists (i + 1) (lists.preds i) high
      else .unlock lists 0 .null high (.retry q))
  | .insertAlloc toplevel lists high =>
    match op with
    | .insert key val =>
      let (s', newNode) := s.allocateSlMarkedUnlinked t key val toplevel
      some (s', .insertFill toplevel lists high newNode 0)
    | _ => some (s, .insertAlloc toplevel lists high)
  | .insertFill toplevel lists high newNode i =>
    if i < toplevel then
      some (s.setNext newNode i (lists.succs i), .insertFill toplevel lists high newNode (i + 1))
    else some (s, .insertLink toplevel lists high newNode 0)
  | .insertLink toplevel lists high newNode i =>
    if i < toplevel then
      some (s.setNext (lists.preds i) i newNode, .insertLink toplevel lists high newNode (i + 1))
    else some (s, .insertFull toplevel lists high newNode)
  | .insertFull _ lists high newNode =>
    some (s.setFullylinked newNode, .unlock lists 0 .null high (.ret (.flag true)))
  | .removeNext lists high node i => some (s, .removeStore lists high node i (s.next node i))
  | .removeStore lists high node i nodeNext =>
    some (s.setNext (lists.preds i) i nodeNext, match i with
      | 0 => .removeVal lists high node
      | i + 1 => .removeNext lists high node i)
  | .removeVal lists high node => some (s, .removeFree lists high node (s.val node))
  | .removeFree lists high node val =>
    some (s.ssmemFree node, .removeUnlock lists high node val)
  | .removeUnlock lists high node val =>
    some (s.release node, .unlock lists 0 .null high (.ret (.val val)))
  | .unlock lists i old high after =>
    if i < high then
      some (if old ≠ lists.preds i then s.release (lists.preds i) else s,
        .unlock lists (i + 1) (lists.preds i) high after)
    else some (s, unlocked after)
  | .done r => some (s, .done r)
  | .unchanged r => some (s, .unchanged r)

def result : Pc T V → Option (Answer V)
  | .done r => some r
  | .unchanged r => some r
  | _ => none

/-- The skip list, for clients that keep to keys strictly between the
sentinels' and values other than 0. A step draws a level from 1 to `levelmax`. -/
def program (T K V : Type*) [DecidableEq T] [LinearOrder K] [BoundedOrder K] [Zero V]
    (levelmax : ℕ) :
    Program T (Call K V) (Answer V) (MarkedSkipHeap T K V) (Pc T V) (Fin levelmax) where
  init := MarkedSkipHeap.empty levelmax
  pre := Client
  start := start
  step i t s op l := step (i + 1) t s op l
  result := result

/-! ### The locks of a call -/

/-- The predecessors below level `high`. -/
def Lists.taken (a : Lists T) (high : ℕ) : Set (Ptr T) := {x | ∃ j < high, x = a.preds j}

def Caller.victim : Caller T → Set (Ptr T)
  | .removing node _ => {node}
  | _ => ∅

def After.victim : After T V → Set (Ptr T)
  | .retry q => q.victim
  | .ret _ => ∅

/-- The locks that the call holds. -/
def holds : Pc T V → Set (Ptr T)
  | .find q | .findNext q _ _ _ _ | .findKey q _ _ _ _ _ | .findMarked q _ _ _ _ _ |
    .findEq q _ _ _ _ _ => q.victim
  | .removeTop _ node | .removeMarked _ node _ | .removeGone node | .removeMark _ node _ => {node}
  | .lock q lists _ high | .predMarked q lists _ high | .succMarked q lists _ high |
    .predNext q lists _ high => q.victim ∪ lists.taken high
  | .insertAlloc _ lists high | .insertFill _ lists high _ _ | .insertLink _ lists high _ _ |
    .insertFull _ lists high _ => lists.taken high
  | .removeNext lists high node _ | .removeStore lists high node _ _ | .removeVal lists high node |
    .removeFree lists high node _ | .removeUnlock lists high node _ => {node} ∪ lists.taken high
  | .unlock lists i _ high after => after.victim ∪ (lists.taken high \ lists.taken i)
  | _ => ∅

/-- Thread `t` holds these locks. -/
def Holds (t : T) (s : MarkedSkipHeap T K V) (l : Pc T V) : Prop := ∀ x ∈ holds l, s.lock x = some t

/-- A step of thread `t` takes and gives back its locks as its local states say. -/
def Locks (t : T) (s : MarkedSkipHeap T K V) (l : Pc T V) (s' : MarkedSkipHeap T K V) (l' : Pc T V) :
    Prop :=
  ∀ x, s'.lock x = some t ↔ x ∈ holds l' ∨ x ∉ holds l ∧ s.lock x = some t

/-! ### What holds at each point of a call -/

open MarkedSkipHeap

variable [BoundedOrder K] {t u : T} {S W : Set (MarkedSkipHeap T K V)} {s s' : MarkedSkipHeap T K V}
  {op : Call K V} {k : K} {levelmax : ℕ} {a : Lists T} {q : Caller T} {found : Option ℕ}
  {i high : ℕ} {n : Ptr T}

/-- A traversal of level `i` is at this node, to the left of the key. -/
def Stand (levelmax : ℕ) (W : Set (MarkedSkipHeap T K V)) (s : MarkedSkipHeap T K V) (k : K) (i : ℕ)
    (x : Ptr T) : Prop :=
  Met (Lnk i) W x ∧ s.key x < k ∧ i < levelmax

/-- It has come to this node; at the end of level 0 the key was absent. -/
def Came (W : Set (MarkedSkipHeap T K V)) (s : MarkedSkipHeap T K V) (k : K) (i : ℕ) (x : Ptr T) :
    Prop :=
  Met (Lnk i) W x ∧ (i = 0 → s.key x ≤ k ∨ NoneSeen W k)

/-- The neighbours of the key from level `i` up: going down, the predecessors
move to the right. -/
structure Lists.At (levelmax : ℕ) (W : Set (MarkedSkipHeap T K V)) (s : MarkedSkipHeap T K V) (k : K)
    (a : Lists T) (i : ℕ) : Prop where
  pred : ∀ j, i ≤ j → j < levelmax → Met (Lnk j) W (a.preds j) ∧ s.key (a.preds j) < k
  succ : ∀ j, i ≤ j → j < levelmax → Met (Lnk j) W (a.succs j) ∧ k ≤ s.key (a.succs j)
  chain : ∀ j, i ≤ j → j + 1 < levelmax →
    a.preds (j + 1) = a.preds j ∨ s.key (a.preds (j + 1)) < s.key (a.preds j)

/-- What the search knows of the levels from `i` up. -/
structure Found (levelmax : ℕ) (W S : Set (MarkedSkipHeap T K V)) (s : MarkedSkipHeap T K V) (k : K)
    (q : Caller T) (a : Lists T) (found : Option ℕ) (i : ℕ) : Prop where
  lists : a.At levelmax W s k i
  first : ∀ f, found = some f → i ≤ f ∧ f < levelmax ∧ s.key (a.succs f) = k
  above : ∀ j, i ≤ j → j < levelmax → (∀ f, found = some f → f < j) →
    k < s.key (a.succs j) ∧ Missed W S s k j
  same : ∀ f, found = some f → ∀ j, i ≤ j → j ≤ f → s.marked (a.succs f) = false →
    a.succs j = a.succs f
  mine : ∀ n top, q = .removing n top → ∀ j, i ≤ j → j < top → a.succs j = n

/-- What the pointer of `pred` said of level `i`, if `pred` had no mark. -/
structure Saw (W S : Set (MarkedSkipHeap T K V)) (s : MarkedSkipHeap T K V) (k : K) (q : Caller T)
    (a : Lists T) (found : Option ℕ) (i : ℕ) (pred curr : Ptr T) : Prop where
  missed : s.marked pred = false → k < s.key curr → Missed W S s k i
  same : s.marked pred = false → k ≤ s.key curr → ∀ f, found = some f →
    s.marked (a.succs f) = false → curr = a.succs f
  mine : s.marked pred = false → k ≤ s.key curr → ∀ n top, q = .removing n top → i < top → curr = n

/-- The search is at `pred` in level `i`. -/
def Finds (levelmax : ℕ) (W S : Set (MarkedSkipHeap T K V)) (s : MarkedSkipHeap T K V) (k : K)
    (q : Caller T) (pred : Ptr T) (i : ℕ) (a : Lists T) (found : Option ℕ) : Prop :=
  Stand levelmax W s k i pred ∧ Found levelmax W S s k q a found (i + 1) ∧
    (i + 1 < levelmax → a.preds (i + 1) = pred ∨ s.key (a.preds (i + 1)) < s.key pred)

/-- The marked node that the call removes, linked below level `i`. -/
structure Victim (levelmax : ℕ) (S : Set (MarkedSkipHeap T K V)) (s : MarkedSkipHeap T K V) (k : K)
    (n : Ptr T) (h i : ℕ) : Prop where
  pub : Pub 0 S n
  key : s.key n = k
  marked : s.marked n = true
  top : s.toplevel n = h
  pos : 0 < h
  le : h ≤ levelmax
  lnk : ∀ j < i, Lnk j s n
  gone : ∀ j, i ≤ j → ¬ Lnk j s n

def Caller.At (levelmax : ℕ) (S : Set (MarkedSkipHeap T K V)) (s : MarkedSkipHeap T K V)
    (op : Call K V) : Caller T → Prop
  | .insert top => (∃ k v, op = .insert k v) ∧ 0 < top ∧ top ≤ levelmax
  | .remove => ∃ k, op = .remove k
  | .removing n top => (∃ k, op = .remove k) ∧ Victim levelmax S s op.key n top top

/-- The key lies between the neighbours; or it is the victim's, and the victim
is the right one. -/
def Caller.Ready (levelmax : ℕ) (s : MarkedSkipHeap T K V) (k : K) (a : Lists T) : Caller T → Prop
  | .insert _ => ∀ j < levelmax, k < s.key (a.succs j)
  | .remove => False
  | .removing n top => ∀ j < top, a.succs j = n

/-- Below level `i` the predecessors are locked and validated. -/
def Lists.Valid (s : MarkedSkipHeap T K V) (a : Lists T) (high i : ℕ) : Prop :=
  ∀ j < i, a.preds j ∈ a.taken high ∧ s.marked (a.preds j) = false ∧
    s.next (a.preds j) j = a.succs j

/-- The loop that locks and validates the predecessors is at level `i`. -/
structure Locking (levelmax : ℕ) (W S : Set (MarkedSkipHeap T K V)) (s : MarkedSkipHeap T K V)
    (op : Call K V) (q : Caller T) (a : Lists T) (i high : ℕ) : Prop where
  caller : q.At levelmax S s op
  lists : a.At levelmax W s op.key 0
  ready : q.Ready levelmax s op.key a
  valid : a.Valid s high i
  level : i ≤ q.toplevel

/-- The new node, linked below level `i`, with its pointers set below level `m`. -/
structure NewNode (levelmax : ℕ) (t : T) (S : Set (MarkedSkipHeap T K V)) (s : MarkedSkipHeap T K V)
    (k : K) (v : V) (h : ℕ) (a : Lists T) (i m : ℕ) (n : Ptr T) : Prop where
  node : ∃ c, n = .node t c ∧ c < s.count t
  key : s.key n = k
  val : s.val n = v
  top : s.toplevel n = h
  le : h ≤ levelmax
  marked : s.marked n = false
  half : s.fullylinked n = false
  pub : ∀ j < i, Pub j S n
  free : ∀ j, i ≤ j → ¬ Pub j S n
  next : ∀ j, i ≤ j → j < m → s.next n j = a.succs j

/-- The assertion at each local state, for thread `t` in call `op`, in a run
through the memories `S` of which `W` since the call. -/
def At (levelmax : ℕ) (t : T) (S W : Set (MarkedSkipHeap T K V)) (s : MarkedSkipHeap T K V)
    (op : Call K V) : Pc T V → Prop
  | .left => ∃ k, op = .search k
  | .leftNext pred i => (∃ k, op = .search k) ∧ Stand levelmax W s op.key i pred
  | .leftKey pred curr i => (∃ k, op = .search k) ∧ Stand levelmax W s op.key i pred ∧
      Came W s op.key i curr
  | .leftEq pred curr i => (∃ k, op = .search k) ∧ Stand levelmax W s op.key i pred ∧
      Came W s op.key i curr ∧ op.key ≤ s.key curr
  | .searchMarked node => (∃ k, op = .search k) ∧ Met (Lnk 0) W node ∧ s.key node = op.key
  | .searchFull node => (∃ k, op = .search k) ∧ Met (Lnk 0) W node ∧ s.key node = op.key ∧
      Shown W s node
  | .searchVal node => (∃ k, op = .search k) ∧ Pub 0 S node ∧ SomeSeen W op.key (s.val node)
  | .insertLevel => ∃ k v, op = .insert k v
  | .find q => q.At levelmax S s op
  | .findNext q pred i lists found => q.At levelmax S s op ∧
      Finds levelmax W S s op.key q pred i lists found
  | .findKey q pred curr i lists found => q.At levelmax S s op ∧
      Finds levelmax W S s op.key q pred i lists found ∧ Came W s op.key i curr ∧
      s.key pred < s.key curr ∧ Saw W S s op.key q lists found i pred curr
  | .findMarked q pred curr i lists found => q.At levelmax S s op ∧
      Finds levelmax W S s op.key q pred i lists found ∧ Came W s op.key i curr ∧
      op.key ≤ s.key curr ∧ Saw W S s op.key q lists found i pred curr
  | .findEq q pred curr i lists found => q.At levelmax S s op ∧
      Finds levelmax W S s op.key q pred i lists found ∧ Came W s op.key i curr ∧
      op.key ≤ s.key curr ∧ lists.preds i = pred ∧ (op.key < s.key curr → Missed W S s op.key i) ∧
      (∀ f, found = some f → s.marked (lists.succs f) = false → curr = lists.succs f) ∧
      ∀ n top, q = .removing n top → i < top → curr = n
  | .insertMarked top node => Caller.At levelmax S s op (.insert top) ∧ Pub 0 S node ∧
      s.key node = op.key
  | .insertSpin node => (∃ k v, op = .insert k v) ∧ Pub 0 S node ∧ s.key node = op.key ∧
      Shown W s node
  | .okFull lists f => (∃ k, op = .remove k) ∧
      Found levelmax W S s op.key .remove lists (some f) 0
  | .okTop lists f => (∃ k, op = .remove k) ∧ Found levelmax W S s op.key .remove lists (some f) 0 ∧
      s.fullylinked (lists.succs f) = true
  | .okMarked lists f => (∃ k, op = .remove k) ∧
      Found levelmax W S s op.key .remove lists (some f) 0 ∧
      s.fullylinked (lists.succs f) = true ∧ s.toplevel (lists.succs f) - 1 = f
  | .removeLock lists n | .removeTop lists n => (∃ k, op = .remove k) ∧
      lists.At levelmax W s op.key 0 ∧ Met (Lnk 0) W n ∧ s.key n = op.key ∧
      s.fullylinked n = true ∧
      (s.marked n = false → ∀ j < s.toplevel n, lists.succs j = n)
  | .removeMarked lists n top => (∃ k, op = .remove k) ∧
      lists.At levelmax W s op.key 0 ∧ Met (Lnk 0) W n ∧ s.key n = op.key ∧
      s.fullylinked n = true ∧ s.toplevel n = top ∧
      (s.marked n = false → ∀ j < top, lists.succs j = n)
  | .removeGone n => (∃ k, op = .remove k) ∧ Pub 0 S n ∧ NoneSeen W op.key
  | .removeMark lists n top => (∃ k, op = .remove k) ∧ lists.At levelmax W s op.key 0 ∧ Pub 0 S n ∧
      s.key n = op.key ∧ s.fullylinked n = true ∧ s.toplevel n = top ∧ s.marked n = false ∧
      ∀ j < top, lists.succs j = n
  | .lock q lists i high => Locking levelmax W S s op q lists i high ∧ i < q.toplevel ∧ high ≤ i ∧
      ∀ j < i, s.key (lists.preds i) < s.key (lists.preds j)
  | .predMarked q lists i high => Locking levelmax W S s op q lists i high ∧ i < q.toplevel ∧
      high ≤ i + 1 ∧ lists.preds i ∈ lists.taken high
  | .succMarked q lists i high => Locking levelmax W S s op q lists i high ∧ i < q.toplevel ∧
      high ≤ i + 1 ∧ lists.preds i ∈ lists.taken high ∧ s.marked (lists.preds i) = false
  | .predNext q lists i high => Locking levelmax W S s op q lists i high ∧ i < q.toplevel ∧
      high ≤ i + 1 ∧ lists.preds i ∈ lists.taken high ∧ s.marked (lists.preds i) = false
  | .insertAlloc top lists high => Locking levelmax W S s op (.insert top) lists top high ∧
      high ≤ top
  | .insertFill top lists high n i => Locking levelmax W S s op (.insert top) lists top high ∧
      high ≤ top ∧ i ≤ top ∧ ∃ k v, op = .insert k v ∧ NewNode levelmax t S s k v top lists 0 i n
  | .insertLink top lists high n i => (∃ k v, op = .insert k v ∧
      NewNode levelmax t S s k v top lists i top n) ∧ 0 < top ∧ i ≤ top ∧ high ≤ top ∧
      lists.At levelmax W s op.key 0 ∧ (∀ j < levelmax, op.key < s.key (lists.succs j)) ∧
      (∀ j < top, lists.preds j ∈ lists.taken high ∧ s.marked (lists.preds j) = false) ∧
      ∀ j, i ≤ j → j < top → s.next (lists.preds j) j = lists.succs j
  | .insertFull top lists high n => (∃ k v, op = .insert k v ∧
      NewNode levelmax t S s k v top lists top top n) ∧ 0 < top ∧ high ≤ top ∧
      lists.At levelmax W s op.key 0
  | .removeNext lists high n i => (∃ k, op = .remove k) ∧ high ≤ levelmax ∧
      lists.At levelmax W s op.key 0 ∧ (∃ top, i < top ∧ Victim levelmax S s op.key n top (i + 1)) ∧
      ∀ j ≤ i, lists.preds j ∈ lists.taken high ∧ s.marked (lists.preds j) = false ∧
        s.next (lists.preds j) j = n
  | .removeStore lists high n i r => (∃ k, op = .remove k) ∧ high ≤ levelmax ∧
      lists.At levelmax W s op.key 0 ∧ (∃ top, i < top ∧ Victim levelmax S s op.key n top (i + 1)) ∧
      (∀ j ≤ i, lists.preds j ∈ lists.taken high ∧ s.marked (lists.preds j) = false ∧
        s.next (lists.preds j) j = n) ∧ s.next n i = r
  | .removeVal lists high n | .removeFree lists high n _ | .removeUnlock lists high n _ =>
      high ≤ levelmax ∧ lists.At levelmax W s op.key 0 ∧ Pub 0 S n ∧ s.key n = op.key
  | .unlock lists i old high after => lists.At levelmax W s op.key 0 ∧ high ≤ levelmax ∧ i ≤ high ∧
      (i = 0 → old = .null) ∧ (∀ j, i = j + 1 → old = lists.preds j) ∧
      ∀ q, after = .retry q → q.At levelmax S s op
  | .done _ => True
  | .unchanged r => ∃ s₀ ∈ W, (mapObject K V).apply op (absMap s₀) = (absMap s₀, r)

/-! ### Stability -/

section stable

variable {x pred curr : Ptr T} (w : Wf levelmax S s) (hW : W ⊆ S) (hk : Keeps t S s s')

include w hW hk

theorem key_of_met (hx : Met (Lnk i) W x) : s'.key x = s.key x := hk.key (pub_of_met w hW hx)

theorem Stand.step (h : Stand levelmax W s k i x) : Stand levelmax (insert s' W) s' k i x :=
  ⟨h.1.insert s', by rw [key_of_met w hW hk h.1]; exact h.2.1, h.2.2⟩

theorem Came.step (h : Came W s k i x) : Came (insert s' W) s' k i x := by
  refine ⟨h.1.insert s', fun hi => ?_⟩
  rw [key_of_met w hW hk h.1]
  exact (h.2 hi).imp_right fun h => h.insert s'

theorem Lists.At.step (h : a.At levelmax W s k i) : a.At levelmax (insert s' W) s' k i := by
  refine ⟨fun j hij hj => ?_, fun j hij hj => ?_, fun j hij hj => ?_⟩
  · obtain ⟨h1, h2⟩ := h.pred j hij hj
    exact ⟨h1.insert s', by rw [key_of_met w hW hk h1]; exact h2⟩
  · obtain ⟨h1, h2⟩ := h.succ j hij hj
    exact ⟨h1.insert s', by rw [key_of_met w hW hk h1]; exact h2⟩
  · rw [key_of_met w hW hk (h.pred j hij (Nat.lt_of_succ_lt hj)).1,
      key_of_met w hW hk (h.pred (j + 1) (Nat.le_succ_of_le hij) hj).1]
    exact h.chain j hij hj

omit w hW in
/-- A node that has no mark now had none before. -/
theorem not_marked_before (hx : Pub 0 S x) (hm : s'.marked x = false) : s.marked x = false := by
  by_contra h
  rw [Bool.not_eq_false] at h
  rw [hk.marks hx h] at hm
  cases hm

theorem Found.step (hs : s ∈ W) (h : Found levelmax W S s k q a found i) :
    Found levelmax (insert s' W) (insert s' S) s' k q a found i := by
  have hsucc := fun j hij hj => (h.lists.succ j hij hj).1
  refine ⟨h.lists.step w hW hk, fun f hf => ?_, fun j hij hj hf => ?_, fun f hf j hij hj hm => ?_,
    h.mine⟩
  · obtain ⟨h1, h2, h3⟩ := h.first f hf
    exact ⟨h1, h2, by rw [key_of_met w hW hk (hsucc f h1 h2)]; exact h3⟩
  · obtain ⟨h1, h2⟩ := h.above j hij hj hf
    exact ⟨by rw [key_of_met w hW hk (hsucc j hij hj)]; exact h1, h2.step w hk hs⟩
  · obtain ⟨h1, h2, -⟩ := h.first f hf
    exact h.same f hf j hij hj (not_marked_before hk (pub_of_met w hW (hsucc f h1 h2)) hm)

theorem Saw.step (hs : s ∈ W) (hp : Met (Lnk i) W pred) (hc : Met (Lnk i) W curr)
    (hf : Found levelmax W S s k q a found (i + 1)) (h : Saw W S s k q a found i pred curr) :
    Saw (insert s' W) (insert s' S) s' k q a found i pred curr := by
  have hpred := fun hm => not_marked_before hk (pub_of_met w hW hp) hm
  have hkey := key_of_met w hW hk hc
  refine ⟨fun hm hlt => ?_, fun hm hle f hf' hmf => ?_, fun hm hle => ?_⟩
  · rw [hkey] at hlt
    exact (h.missed (hpred hm) hlt).step w hk hs
  · rw [hkey] at hle
    obtain ⟨h1, h2, -⟩ := hf.first f hf'
    exact h.same (hpred hm) hle f hf'
      (not_marked_before hk (pub_of_met w hW (hf.lists.succ f h1 h2).1) hmf)
  · rw [hkey] at hle
    exact h.mine (hpred hm) hle

theorem Finds.step (hs : s ∈ W) (h : Finds levelmax W S s k q pred i a found) :
    Finds levelmax (insert s' W) (insert s' S) s' k q pred i a found := by
  obtain ⟨h1, h2, h3⟩ := h
  refine ⟨h1.step w hW hk, h2.step w hW hk hs, fun hi => ?_⟩
  rw [key_of_met w hW hk h1.1, key_of_met w hW hk (h2.lists.pred (i + 1) le_rfl hi).1]
  exact h3 hi

omit w hW in
theorem Victim.step {h : ℕ} (hkept : Kept s s' n) (hv : Victim levelmax S s k n h i) :
    Victim levelmax (insert s' S) s' k n h i := by
  have hm := hk.marks hv.pub hv.marked
  exact ⟨hv.pub.insert s', (hk.key hv.pub).trans hv.key, hm, (hk.top hv.pub).trans hv.top, hv.pos,
    hv.le, fun j hj => (hkept.2 j).2 (hv.lnk j hj), fun j hj hl => hv.gone j hj (hk.gone hm hl)⟩

omit w hW in
theorem caller_step (hkept : ∀ x ∈ q.victim, Kept s s' x) (h : q.At levelmax S s op) :
    q.At levelmax (insert s' S) s' op := by
  cases q with
  | insert => exact h
  | remove => exact h
  | removing n top => exact ⟨h.1, Victim.step hk (hkept n rfl) h.2⟩

theorem ready_step (hl : a.At levelmax W s k 0) (h : q.Ready levelmax s k a) :
    q.Ready levelmax s' k a := by
  cases q with
  | insert =>
    intro j hj
    rw [key_of_met w hW hk (hl.succ j j.zero_le hj).1]
    exact h j hj
  | remove => exact h
  | removing => exact h

omit [LinearOrder K] [Zero V] [BoundedOrder K] w hW hk in
theorem Lists.Valid.step (hkept : ∀ x ∈ a.taken high, Kept s s' x) (h : a.Valid s high i) :
    a.Valid s' high i := by
  intro j hj
  obtain ⟨h1, h2, h3⟩ := h j hj
  obtain ⟨h4, h5⟩ := hkept _ h1
  exact ⟨h1, h4.trans h2, (h5 j).1.trans h3⟩

theorem Locking.step (hkept : ∀ x ∈ q.victim ∪ a.taken high, Kept s s' x)
    (h : Locking levelmax W S s op q a i high) :
    Locking levelmax (insert s' W) (insert s' S) s' op q a i high :=
  ⟨caller_step hk (fun x hx => hkept x (Or.inl hx)) h.caller, h.lists.step w hW hk,
    ready_step w hW hk h.lists h.ready, h.valid.step fun x hx => hkept x (Or.inr hx), h.level⟩

omit w hW in
theorem NewNode.step {v : V} {h m : ℕ} (hu : u ≠ t) (hn : NewNode levelmax u S s k v h a i m n) :
    NewNode levelmax u (insert s' S) s' k v h a i m n := by
  obtain ⟨c, rfl, hc⟩ := hn.node
  have hfields : s'.key (.node u c) = s.key (.node u c) ∧ s'.val (.node u c) = s.val (.node u c) ∧
      s'.toplevel (.node u c) = s.toplevel (.node u c) ∧ s'.marked (.node u c) = false := by
    by_cases h0 : Pub 0 S (.node u c)
    · exact ⟨hk.key h0, hk.val h0, hk.top h0, hk.wake h0 hn.half⟩
    · have hm := hk.others hu h0
      exact ⟨congrArg SlMarked.key hm, congrArg SlMarked.val hm, congrArg SlMarked.toplevel hm,
        (congrArg SlMarked.marked hm).trans hn.marked⟩
  obtain ⟨h1, h2, h3, h4⟩ := hfields
  exact ⟨⟨c, rfl, hc.trans_le (hk.count u)⟩, h1.trans hn.key, h2.trans hn.val, h3.trans hn.top, hn.le,
    h4, hk.half hu hn.half, fun j hj => (hn.pub j hj).insert s',
    fun j hj => (hk.above hu (hn.free j hj)).2,
    fun j hj hjm => (hk.above hu (hn.free j hj)).1.trans (hn.next j hj hjm)⟩

end stable

theorem Caller.At.le (h : q.At levelmax S s op) : q.toplevel ≤ levelmax := by
  cases q with
  | insert top => exact h.2.2
  | remove => exact Nat.zero_le _
  | removing n top => exact h.2.le

theorem Caller.At.victim_pub {x : Ptr T} (h : q.At levelmax S s op) (hx : x ∈ q.victim) :
    Pub 0 S x := by
  cases q with
  | insert => cases hx
  | remove => cases hx
  | removing n top =>
    obtain rfl : x = n := hx
    exact h.2.pub

/-- An assertion stays true in a step that leaves alone the nodes whose locks
the call holds, and the node that it inserts. -/
theorem At.transfer {l : Pc T V} (w : Wf levelmax S s) (w' : Wf levelmax (insert s' S) s')
    (hs : s ∈ W) (hW : W ⊆ S) (hb : ⊥ < op.key) (ht : op.key < ⊤) (hk : Keeps t S s s')
    (hkept : ∀ {x}, x ∈ holds l → Pub 0 S x → Kept s s' x)
    (hnew : ∀ {k v h a i m n}, NewNode levelmax u S s k v h a i m n →
      NewNode levelmax u (insert s' S) s' k v h a i m n)
    (h : At levelmax u S W s op l) : At levelmax u (insert s' S) (insert s' W) s' op l := by
  have hkey : ∀ {i x}, Met (Lnk i) W x → s'.key x = s.key x := fun hx => key_of_met w hW hk hx
  have hpub : ∀ {i x}, Met (Lnk i) W x → Pub 0 S x := fun hx => pub_of_met w hW hx
  have hinner : ∀ {x}, s.key x = op.key → x ≠ .head ∧ x ≠ .tail := fun {x} hx =>
    ⟨w.ne_head_of_lt (k := ⊥) (by rw [hx]; exact hb), w.ne_tail_of_lt (k := ⊤) (by rw [hx]; exact ht)⟩
  have hcaller : ∀ {q : Caller T}, q.victim ⊆ holds l → q.At levelmax S s op →
      q.At levelmax (insert s' S) s' op :=
    fun hq hat => caller_step hk (fun x hx => hkept (hq hx) (hat.victim_pub hx)) hat
  have htaken : ∀ {lists : Lists T} {high}, lists.At levelmax W s op.key 0 → high ≤ levelmax →
      lists.taken high ⊆ holds l → ∀ x ∈ lists.taken high, Kept s s' x := by
    rintro lists high hlists hle hsub x ⟨j, hj, rfl⟩
    exact hkept (hsub ⟨j, hj, rfl⟩) (hpub (hlists.pred j j.zero_le (hj.trans_le hle)).1)
  have hlocking : ∀ {q : Caller T} {lists i high}, q.victim ∪ lists.taken high ⊆ holds l →
      high ≤ levelmax → Locking levelmax W S s op q lists i high →
      Locking levelmax (insert s' W) (insert s' S) s' op q lists i high := by
    intro q lists i high hsub hle hat
    refine hat.step w hW hk fun x hx => ?_
    rcases hx with hx | hx
    · exact hkept (hsub (Or.inl hx)) (hat.caller.victim_pub hx)
    · exact htaken hat.lists hle (fun _ hx => hsub (Or.inr hx)) x hx
  cases l
  case left => exact h
  case leftNext pred i => exact ⟨h.1, h.2.step w hW hk⟩
  case leftKey pred curr i => exact ⟨h.1, h.2.1.step w hW hk, h.2.2.step w hW hk⟩
  case leftEq pred curr i =>
    exact ⟨h.1, h.2.1.step w hW hk, h.2.2.1.step w hW hk, by rw [hkey h.2.2.1.1]; exact h.2.2.2⟩
  case searchMarked node => exact ⟨h.1, h.2.1.insert s', (hkey h.2.1).trans h.2.2⟩
  case searchFull node =>
    obtain ⟨h1, h2, h3, h4⟩ := h
    exact ⟨h1, h2.insert s', (hkey h2).trans h3, h4.step w hk w' (hpub h2) (hinner h3)⟩
  case searchVal node => exact ⟨h.1, h.2.1.insert s', by rw [hk.val h.2.1]; exact h.2.2.insert s'⟩
  case insertLevel => exact h
  case find q => exact hcaller (fun _ hx => hx) h
  case findNext q pred i lists found =>
    exact ⟨hcaller (fun _ hx => hx) h.1, h.2.step w hW hk hs⟩
  case findKey q pred curr i lists found =>
    obtain ⟨h1, h2, h3, h4, h5⟩ := h
    exact ⟨hcaller (fun _ hx => hx) h1, h2.step w hW hk hs, h3.step w hW hk,
      by rw [hkey h2.1.1, hkey h3.1]; exact h4, h5.step w hW hk hs h2.1.1 h3.1 h2.2.1⟩
  case findMarked q pred curr i lists found =>
    obtain ⟨h1, h2, h3, h4, h5⟩ := h
    exact ⟨hcaller (fun _ hx => hx) h1, h2.step w hW hk hs, h3.step w hW hk,
      by rw [hkey h3.1]; exact h4, h5.step w hW hk hs h2.1.1 h3.1 h2.2.1⟩
  case findEq q pred curr i lists found =>
    obtain ⟨h1, h2, h3, h4, h5, h6, h7, h8⟩ := h
    refine ⟨hcaller (fun _ hx => hx) h1, h2.step w hW hk hs, h3.step w hW hk,
      by rw [hkey h3.1]; exact h4, h5, fun hlt => ?_, fun f hf hm => h7 f hf ?_, h8⟩
    · rw [hkey h3.1] at hlt
      exact (h6 hlt).step w hk hs
    · obtain ⟨h1, h2', -⟩ := h2.2.1.first f hf
      exact not_marked_before hk (hpub (h2.2.1.lists.succ f h1 h2').1) hm
  case insertMarked top node => exact ⟨h.1, h.2.1.insert s', (hk.key h.2.1).trans h.2.2⟩
  case insertSpin node =>
    obtain ⟨h1, h2, h3, h4⟩ := h
    exact ⟨h1, h2.insert s', (hk.key h2).trans h3, h4.step w hk w' h2 (hinner h3)⟩
  case okFull lists f => exact ⟨h.1, h.2.step w hW hk hs⟩
  case okTop lists f =>
    obtain ⟨h1, h2, h3⟩ := h
    have hf := h2.first f rfl
    exact ⟨h1, h2.step w hW hk hs, hk.fulls (hpub (h2.lists.succ f hf.1 hf.2.1).1) h3⟩
  case okMarked lists f =>
    obtain ⟨h1, h2, h3, h4⟩ := h
    have hf := h2.first f rfl
    have hp := hpub (h2.lists.succ f hf.1 hf.2.1).1
    exact ⟨h1, h2.step w hW hk hs, hk.fulls hp h3, by rw [hk.top hp]; exact h4⟩
  case removeLock lists n | removeTop lists n =>
    obtain ⟨h1, h2, h3, h4, h5, h6⟩ := h
    refine ⟨h1, h2.step w hW hk, h3.insert s', (hkey h3).trans h4, hk.fulls (hpub h3) h5, fun hm => ?_⟩
    rw [hk.top (hpub h3)]
    exact h6 (not_marked_before hk (hpub h3) hm)
  case removeMarked lists n top =>
    obtain ⟨h1, h2, h3, h4, h5, h6, h7⟩ := h
    exact ⟨h1, h2.step w hW hk, h3.insert s', (hkey h3).trans h4, hk.fulls (hpub h3) h5,
      (hk.top (hpub h3)).trans h6, fun hm => h7 (not_marked_before hk (hpub h3) hm)⟩
  case removeGone n => exact ⟨h.1, h.2.1.insert s', h.2.2.insert s'⟩
  case removeMark lists n top =>
    obtain ⟨h1, h2, h3, h4, h5, h6, h7, h8⟩ := h
    exact ⟨h1, h2.step w hW hk, h3.insert s', (hk.key h3).trans h4, hk.fulls h3 h5,
      (hk.top h3).trans h6, (hkept rfl h3).1.trans h7, h8⟩
  case lock q lists i high =>
    obtain ⟨h1, h2, h3, h4⟩ := h
    have hlt := h2.trans_le h1.caller.le
    refine ⟨hlocking (fun _ hx => hx) (h3.trans hlt.le) h1, h2, h3, fun j hj => ?_⟩
    rw [hkey (h1.lists.pred i i.zero_le hlt).1, hkey (h1.lists.pred j j.zero_le (hj.trans hlt)).1]
    exact h4 j hj
  case predMarked q lists i high =>
    obtain ⟨h1, h2, h3, h4⟩ := h
    exact ⟨hlocking (fun _ hx => hx) (h3.trans (h2.trans_le h1.caller.le)) h1, h2, h3, h4⟩
  case succMarked q lists i high | predNext q lists i high =>
    obtain ⟨h1, h2, h3, h4, h5⟩ := h
    have hle : high ≤ levelmax := h3.trans (h2.trans_le h1.caller.le)
    exact ⟨hlocking (fun _ hx => hx) hle h1, h2, h3, h4,
      (htaken h1.lists hle (fun _ hx => Or.inr hx) _ h4).1.trans h5⟩
  case insertAlloc top lists high =>
    obtain ⟨h1, h2⟩ := h
    refine ⟨hlocking (fun x hx => ?_) (h2.trans h1.caller.le) h1, h2⟩
    exact hx.resolve_left (Set.notMem_empty x)
  case insertFill top lists high n i =>
    obtain ⟨h1, h2, h3, k, v, h4, h5⟩ := h
    refine ⟨hlocking (fun x hx => ?_) (h2.trans h1.caller.le) h1, h2, h3, k, v, h4, hnew h5⟩
    exact hx.resolve_left (Set.notMem_empty x)
  case insertLink top lists high n i =>
    obtain ⟨⟨k, v, h1, h2⟩, h3, h4, h5, h6, h7, h8, h9⟩ := h
    have hle : high ≤ levelmax := h5.trans h2.le
    have htk := htaken h6 hle fun _ hx => hx
    refine ⟨⟨k, v, h1, hnew h2⟩, h3, h4, h5, h6.step w hW hk, fun j hj => ?_,
      fun j hj => ⟨(h8 j hj).1, ((htk _ (h8 j hj).1).1).trans (h8 j hj).2⟩,
      fun j hij hj => ((htk _ (h8 j hj).1).2 j).1.trans (h9 j hij hj)⟩
    rw [hkey (h6.succ j j.zero_le hj).1]
    exact h7 j hj
  case insertFull top lists high n =>
    obtain ⟨⟨k, v, h1, h2⟩, h3, h4, h5⟩ := h
    exact ⟨⟨k, v, h1, hnew h2⟩, h3, h4, h5.step w hW hk⟩
  case removeNext lists high n i =>
    obtain ⟨h1, h2, h3, ⟨top, h4, h5⟩, h6⟩ := h
    have htk := htaken h3 h2 fun _ hx => Or.inr hx
    refine ⟨h1, h2, h3.step w hW hk, ⟨top, h4, Victim.step hk (hkept (Or.inl rfl) h5.pub) h5⟩,
      fun j hj => ?_⟩
    obtain ⟨h7, h8, h9⟩ := h6 j hj
    exact ⟨h7, (htk _ h7).1.trans h8, ((htk _ h7).2 j).1.trans h9⟩
  case removeStore lists high n i r =>
    obtain ⟨h1, h2, h3, ⟨top, h4, h5⟩, h6, h7⟩ := h
    have htk := htaken h3 h2 fun _ hx => Or.inr hx
    have hn := hkept (Or.inl rfl) h5.pub
    refine ⟨h1, h2, h3.step w hW hk, ⟨top, h4, Victim.step hk hn h5⟩, fun j hj => ?_,
      (hn.2 i).1.trans h7⟩
    obtain ⟨h7, h8, h9⟩ := h6 j hj
    exact ⟨h7, (htk _ h7).1.trans h8, ((htk _ h7).2 j).1.trans h9⟩
  case removeVal lists high n | removeFree lists high n _ | removeUnlock lists high n _ =>
    obtain ⟨h1, h2, h3, h4⟩ := h
    exact ⟨h1, h2.step w hW hk, h3.insert s', (hk.key h3).trans h4⟩
  case unlock lists i old high after =>
    obtain ⟨h1, h2, h3, h4, h5, h6⟩ := h
    refine ⟨h1.step w hW hk, h2, h3, h4, h5, fun q hq => hcaller (fun x hx => ?_) (h6 q hq)⟩
    subst hq
    exact Or.inl hx
  case done => trivial
  case unchanged r =>
    obtain ⟨s₀, hs₀, h1⟩ := h
    exact ⟨s₀, Set.mem_insert_of_mem _ hs₀, h1⟩

/-- A step of another thread keeps the assertion. -/
theorem At.step {l : Pc T V} (w : Wf levelmax S s) (w' : Wf levelmax (insert s' S) s') (hs : s ∈ W)
    (hW : W ⊆ S) (hb : ⊥ < op.key) (ht : op.key < ⊤) (hu : u ≠ t) (hk : Keeps t S s s')
    (hl : Holds u s l) (h : At levelmax u S W s op l) :
    At levelmax u (insert s' S) (insert s' W) s' op l :=
  h.transfer w w' hs hW hb ht hk (fun hx hp => hk.locked hu hp (hl _ hx))
    fun h => h.step hk hu

theorem Holds.step {l : Pc T V} (hu : u ≠ t) (hk : Keeps t S s s') (h : Holds u s l) :
    Holds u s' l := fun x hx => (hk.locks hu x).mpr (h x hx)

/-! ### Taking and giving back a lock -/

section locks

variable {l l' : Pc T V} {x : Ptr T}

omit [BoundedOrder K] in
theorem Locks.holds (h : Locks t s l s' l') : Holds t s' l' := fun x hx => (h x).mpr (Or.inl hx)

omit [BoundedOrder K] in
theorem Holds.same (h : Holds t s l) (hs : ∀ y, s'.lock y = s.lock y) (hl : holds l' = holds l) :
    Locks t s l s' l' := by
  intro y
  rw [hs, hl]
  by_cases hy : y ∈ holds l
  · exact iff_of_true (h y hy) (Or.inl hy)
  · exact ⟨fun hl => Or.inr ⟨hy, hl⟩, fun hl => (hl.resolve_left hy).2⟩

omit [BoundedOrder K] in
theorem Holds.acquire (h : Holds t s l) (hl : holds l' = insert x (holds l)) :
    Locks t s l (s.setLock x (some t)) l' := by
  intro y
  rw [lock_setLock, hl]
  by_cases hy : y = x
  · rw [if_pos hy]
    exact iff_of_true rfl (Or.inl (Or.inl hy))
  · rw [if_neg hy, Set.mem_insert_iff, or_iff_right hy]
    exact h.same (fun _ => rfl) rfl y

omit [BoundedOrder K] in
theorem Holds.release (h : Holds t s l) (hx : x ∈ holds l) (hl : holds l' = holds l \ {x}) :
    Locks t s l (s.setLock x none) l' := by
  intro y
  rw [lock_setLock, hl]
  by_cases hy : y = x
  · rw [if_pos hy, hy]
    exact iff_of_false nofun fun h => h.elim (fun h => h.2 rfl) fun h => h.1 hx
  · rw [if_neg hy, Set.mem_sdiff, Set.mem_singleton_iff, and_iff_left hy]
    exact h.same (fun _ => rfl) rfl y

omit [LinearOrder K] [Zero V] [BoundedOrder K] in
theorem taken_zero (a : Lists T) : a.taken 0 = ∅ :=
  Set.eq_empty_of_forall_notMem fun _ ⟨j, hj, _⟩ => j.not_lt_zero hj

/-- A lock changes nothing that an assertion speaks of. -/
theorem At.setLock {o : Option T} (w : Wf levelmax S s) (hs : s ∈ W) (hW : W ⊆ S) (hb : ⊥ < op.key)
    (ht : op.key < ⊤) (hact : Act levelmax t S s (s.setLock x o)) (h : At levelmax t S W s op l) :
    At levelmax t (insert (s.setLock x o) S) (insert (s.setLock x o) W) (s.setLock x o) op l := by
  refine h.transfer w (hact.wf w) hs hW hb ht (hact.keeps w) (fun _ _ => setLock_kept w x _ o) ?_
  intro k v h a i m n hn
  have hpub := fun j => (setLock_same S s x o j).pub (w.listed j) n
  obtain ⟨h1, h2, h3, h4, h5, h6, h7, h8, h9, h10⟩ := hn
  exact ⟨h1, by rwa [key_setLock], by rwa [val_setLock], by rwa [toplevel_setLock], h5,
    by rwa [marked_setLock], by rwa [fullylinked_setLock], fun j hj => (hpub j).mpr (h8 j hj),
    fun j hj hp => h9 j hj ((hpub j).mp hp), fun j hj hjm => by rw [next_setLock]; exact h10 j hj hjm⟩

end locks

/-! ### The steps -/

def Caller.lin (s : MarkedSkipHeap T K V) : Caller T → Option (Answer V)
  | .removing n _ => some (.val (s.val n))
  | _ => none

/-- The result of a call that has taken effect. -/
def lin (s : MarkedSkipHeap T K V) : Call K V → Pc T V → Option (Answer V)
  | _, .find q | _, .findNext q _ _ _ _ | _, .findKey q _ _ _ _ _ | _, .findMarked q _ _ _ _ _ |
    _, .findEq q _ _ _ _ _ | _, .lock q _ _ _ | _, .predMarked q _ _ _ | _, .succMarked q _ _ _ |
    _, .predNext q _ _ _ | _, .unlock _ _ _ _ (.retry q) => q.lin s
  | _, .removeNext _ _ n _ | _, .removeStore _ _ n _ _ | _, .removeVal _ _ n => some (.val (s.val n))
  | _, .removeFree _ _ _ val | _, .removeUnlock _ _ _ val => some (.val val)
  | _, .unlock _ _ _ _ (.ret r) => some r
  | _, .done r => some r
  | _, _ => none

/-- What a step does: it is one of the writes, it changes the locks of the
thread as its next state says, it establishes the next assertion, and it changes
the map only where the call takes effect. -/
structure StepOk (levelmax : ℕ) (t : T) (S W : Set (MarkedSkipHeap T K V)) (s : MarkedSkipHeap T K V)
    (op : Call K V) (l : Pc T V) (s' : MarkedSkipHeap T K V) (l' : Pc T V) : Prop where
  act : Act levelmax t S s s'
  locks : Locks t s l s' l'
  next : At levelmax t (insert s' S) (insert s' W) s' op l'
  point : (lin s' op l' = lin s op l ∧ absMap s' = absMap s) ∨ (lin s op l = none ∧ ∃ r,
    lin s' op l' = some r ∧ (mapObject K V).apply op (absMap s) = (absMap s', r))

theorem lin_congr {l : Pc T V} (h : ∀ x, s'.val x = s.val x) : lin s' op l = lin s op l := by
  have hq : ∀ q : Caller T, q.lin s' = q.lin s := by
    rintro (_ | _ | ⟨n, top⟩)
    · rfl
    · rfl
    · simp only [Caller.lin, h]
  cases l
  case unlock after => cases after with
    | retry q => exact hq q
    | ret r => rfl
  all_goals first
    | rfl
    | exact hq _
    | simp only [lin, h]

/-! ### The arrays -/

omit [LinearOrder K] [Zero V] [BoundedOrder K] in
theorem taken_succ (a : Lists T) (i : ℕ) : a.taken (i + 1) = insert (a.preds i) (a.taken i) := by
  ext x
  constructor
  · rintro ⟨j, hj, rfl⟩
    rcases Nat.lt_succ_iff_lt_or_eq.mp hj with hj | rfl
    · exact Or.inr ⟨j, hj, rfl⟩
    · exact Or.inl rfl
  · rintro (rfl | ⟨j, hj, rfl⟩)
    · exact ⟨i, i.lt_succ_self, rfl⟩
    · exact ⟨j, Nat.lt_succ_of_lt hj, rfl⟩

omit [LinearOrder K] [Zero V] [BoundedOrder K] in
theorem taken_mono {m : ℕ} (h : i ≤ m) : a.taken i ⊆ a.taken m := by
  rintro x ⟨j, hj, rfl⟩
  exact ⟨j, hj.trans_le h, rfl⟩

omit [Zero V] in
theorem Lists.At.antitone (h : a.At levelmax W s k 0) {j : ℕ} (hij : i ≤ j) (hj : j < levelmax) :
    s.key (a.preds j) ≤ s.key (a.preds i) := by
  induction hij with
  | refl => exact le_rfl
  | @step m hm ih =>
    refine le_trans ?_ (ih (Nat.lt_of_succ_lt hj))
    rcases h.chain m m.zero_le hj with he | hlt
    · rw [he]
    · exact hlt.le

omit [Zero V] in
/-- A predecessor that differs from the one below it is to the left of all below it. -/
theorem Lists.At.lt_of_ne (h : a.At levelmax W s k 0) {j m : ℕ} (hm : m + 1 < levelmax)
    (hne : a.preds (m + 1) ≠ a.preds m) (hj : j < m + 1) :
    s.key (a.preds (m + 1)) < s.key (a.preds j) :=
  ((h.chain m m.zero_le hm).resolve_left hne).trans_le
    (h.antitone (Nat.lt_succ_iff.mp hj) (Nat.lt_of_succ_lt hm))

omit [Zero V] in
theorem ne_null (w : Wf levelmax S s) {x : Ptr T} (hx : Pub 0 S x) : x ≠ .null := by
  rintro rfl
  rcases (w.listed 0).alloc _ hx with h | h | ⟨t, m, h, -⟩ <;> cases h

section learn

variable (w : Wf levelmax S s) (hW : W ⊆ S)

include w hW

omit [Zero V] in
theorem inner_of_key {x : Ptr T} (hb : ⊥ < k) (ht : k < ⊤) (hx : s.key x = k) :
    x ≠ .head ∧ x ≠ .tail :=
  ⟨w.ne_head_of_lt (k := ⊥) (by rw [hx]; exact hb), w.ne_tail_of_lt (k := ⊤) (by rw [hx]; exact ht)⟩

omit [Zero V] in
theorem stand_head (hs : s ∈ W) (hb : ⊥ < k) (hi : i < levelmax) : Stand levelmax W s k i .head :=
  ⟨⟨s, hs, linked_head⟩, lt_of_eq_of_lt (w.listed 0).head_key hb, hi⟩

omit [Zero V] in
/-- One step on, along level `i`. -/
theorem Stand.next {x : Ptr T} (hh : Hind W s) (h : Stand levelmax W s k i x) :
    Came W s k i (s.next x i) ∧ s.key x < s.key (s.next x i) := by
  have hxt := w.ne_tail_of_lt h.2.1
  obtain ⟨h1, h2⟩ := met_next w hW hh h.1 hxt
  refine ⟨⟨h1, ?_⟩, h2⟩
  rintro rfl
  exact (NodeView.Passed.next (w.listed 0) hW (hh 0).hind ⟨h.1, Or.inl h.2.1⟩ hxt).2

omit [Zero V] in
/-- The search is done with level `i`. -/
theorem Found.down {pred curr : Ptr T} (h : Finds levelmax W S s k q pred i a found) (hc : Came W s k i curr) (hle : k ≤ s.key curr)
    (hp : a.preds i = pred) (hmiss : k < s.key curr → Missed W S s k i)
    (hsame : ∀ f, found = some f → s.marked (a.succs f) = false → curr = a.succs f)
    (hmine : ∀ n top, q = .removing n top → i < top → curr = n) :
    Found levelmax W S s k q (a.setSucc i curr)
      (if found = none ∧ k = s.key curr then some i else found) i := by
  obtain ⟨h1, h2, h3⟩ := h
  have hself : (a.setSucc i curr).succs i = curr := Function.update_self ..
  have hne : ∀ {j}, j ≠ i → (a.setSucc i curr).succs j = a.succs j :=
    fun hj => Function.update_of_ne hj ..
  refine ⟨⟨fun j hij hj => ?_, fun j hij hj => ?_, fun j hij hj => ?_⟩, fun f hf => ?_,
    fun j hij hj hf => ?_, fun f hf j hij hjf hm => ?_, fun n top hq j hij hj => ?_⟩
  · rcases hij.eq_or_lt with rfl | hij
    · exact ⟨hp ▸ h1.1, hp ▸ h1.2.1⟩
    · exact h2.lists.pred j hij hj
  · rcases hij.eq_or_lt with rfl | hij
    · rw [hself]
      exact ⟨hc.1, hle⟩
    · rw [hne hij.ne']
      exact h2.lists.succ j hij hj
  · rcases hij.eq_or_lt with rfl | hij
    · rw [show (a.setSucc i curr).preds i = pred from hp]
      exact h3 hj
    · exact h2.lists.chain j hij hj
  · split_ifs at hf with hc'
    · cases hf
      exact ⟨le_rfl, h1.2.2, by rw [hself]; exact hc'.2.symm⟩
    · obtain ⟨h4, h5, h6⟩ := h2.first f hf
      exact ⟨Nat.le_of_succ_le h4, h5, by rw [hne (Nat.lt_of_succ_le h4).ne']; exact h6⟩
  · rcases hij.eq_or_lt with rfl | hij
    · rw [hself]
      have hlt : k < s.key curr := by
        refine lt_of_le_of_ne hle fun he => ?_
        rcases hfd : found with _ | f
        · exact lt_irrefl i (hf i (by rw [if_pos ⟨hfd, he⟩]))
        · have hfi := hf f (by rw [if_neg (by rw [hfd]; nofun), hfd])
          exact absurd hfi (not_lt.mpr (Nat.le_of_succ_le (h2.first f hfd).1))
      exact ⟨hlt, hmiss hlt⟩
    · rw [hne hij.ne']
      refine h2.above j hij hj fun f hfd => hf f ?_
      rw [if_neg (by rw [hfd]; nofun)]
      exact hfd
  · split_ifs at hf with hc'
    · cases hf
      rw [le_antisymm hjf hij]
    · have hlt := Nat.lt_of_succ_le (h2.first f hf).1
      rw [hne hlt.ne'] at hm ⊢
      rcases hij.eq_or_lt with rfl | hij
      · rw [hself]
        exact hsame f hf hm
      · rw [hne hij.ne']
        exact h2.same f hf j hij hjf hm
  · rcases hij.eq_or_lt with rfl | hij
    · rw [hself]
      exact hmine n top hq hj
    · rw [hne hij.ne']
      exact h2.mine n top hq j hij hj

/-- The loop that locks goes on with level `i`, or is done. -/
theorem at_lockLevel (prevPred : Ptr T) (h : Locking levelmax W S s op q a i high) (hle : high ≤ i)
    (h0 : i = 0 → prevPred = .null) (hp : ∀ j, i = j + 1 → prevPred = a.preds j) :
    At levelmax t S W s op (lockLevel q a i prevPred high) ∧
      holds (lockLevel q a i prevPred high : Pc T V) = q.victim ∪ a.taken high ∧
      lin s op (lockLevel q a i prevPred high) = q.lin s := by
  unfold lockLevel
  split_ifs with hi hne
  · have hlt := hi.trans_le h.caller.le
    refine ⟨⟨h, hi, hle, fun j hj => ?_⟩, rfl, rfl⟩
    obtain ⟨m, rfl⟩ := Nat.exists_eq_succ_of_ne_zero (Nat.ne_zero_of_lt hj)
    exact h.lists.lt_of_ne hlt (by rw [← hp m rfl]; exact hne) hj
  · have hlt := hi.trans_le h.caller.le
    refine ⟨⟨h, hi, Nat.le_succ_of_le hle, ?_⟩, rfl, rfl⟩
    rw [not_not] at hne
    rcases i with _ | m
    · rw [h0 rfl] at hne
      exact absurd hne (ne_null w (pub_of_met w hW (h.lists.pred 0 le_rfl hlt).1))
    · rw [hne, hp m rfl]
      exact (h.valid m m.lt_succ_self).1
  · obtain rfl : i = q.toplevel := le_antisymm h.level (not_lt.mp hi)
    match q, h with
    | .insert top, h => exact ⟨⟨h, hle⟩, (Set.empty_union _).symm, rfl⟩
    | .remove, h => exact h.ready.elim
    | .removing n 0, h => exact absurd h.caller.2.pos (lt_irrefl 0)
    | .removing n (m + 1), h =>
      refine ⟨⟨h.caller.1, hle.trans h.caller.2.le, h.lists, ⟨m + 1, m.lt_succ_self, h.caller.2⟩,
        fun j hj => ?_⟩, rfl, rfl⟩
      have hj' : j < m + 1 := Nat.lt_succ_of_le hj
      obtain ⟨h4, h5, h6⟩ := h.valid j hj'
      exact ⟨h4, h5, h6.trans (h.ready j hj')⟩

/-- The search returns. -/
theorem at_findDone (hq : q.At levelmax S s op)
    (h : Found levelmax W S s op.key q a found 0) (hn : found = none → NoneSeen W op.key) :
    At levelmax t S W s op (findDone q a found) ∧
      holds (findDone q a found : Pc T V) = q.victim ∧ lin s op (findDone q a found) = q.lin s := by
  have hvalid : a.Valid s 0 0 := fun j hj => absurd hj j.not_lt_zero
  have htaken : ∀ q : Caller T, q.victim ∪ a.taken 0 = q.victim := fun q => by
    rw [taken_zero, Set.union_empty]
  match q, found, hq, h with
  | .insert top, some f, hq, h =>
    obtain ⟨h1, h2, h3⟩ := h.first f rfl
    exact ⟨⟨hq, pub_of_met w hW (h.lists.succ f h1 h2).1, h3⟩, rfl, rfl⟩
  | .insert top, none, hq, h =>
    have hready : Caller.Ready levelmax s op.key a (.insert top) :=
      fun j hj => (h.above j j.zero_le hj nofun).1
    have hat := at_lockLevel (t := t) w hW .null ⟨hq, h.lists, hready, hvalid, Nat.zero_le _⟩ le_rfl
      (fun _ => rfl) (fun j hj => absurd hj (Nat.succ_ne_zero j).symm)
    rw [htaken] at hat
    exact hat
  | .remove, some f, hq, h => exact ⟨⟨hq, h⟩, rfl, rfl⟩
  | .remove, none, hq, h =>
    obtain ⟨s₀, hs₀, h0⟩ := hn rfl
    obtain ⟨k, rfl⟩ := hq
    exact ⟨⟨s₀, hs₀, apply_remove_none h0⟩, rfl, rfl⟩
  | .removing n top, found, hq, h =>
    have hready : Caller.Ready levelmax s op.key a (.removing n top) :=
      fun j hj => h.mine n top rfl j j.zero_le hj
    have hat := at_lockLevel (t := t) w hW .null ⟨hq, h.lists, hready, hvalid, Nat.zero_le _⟩ le_rfl
      (fun _ => rfl) (fun j hj => absurd hj (Nat.succ_ne_zero j).symm)
    rw [htaken] at hat
    exact hat

/-- The search goes down to the next level, or returns. -/
theorem at_findLevel (pred : Ptr T) (hq : q.At levelmax S s op)
    (h : Found levelmax W S s op.key q a found i) (hn : i = 0 → found = none → NoneSeen W op.key)
    (hp : ∀ j, i = j + 1 → Stand levelmax W s op.key j pred ∧
      (i < levelmax → a.preds i = pred ∨ s.key (a.preds i) < s.key pred)) :
    At levelmax t S W s op (findLevel q pred i a found) ∧
      holds (findLevel q pred i a found : Pc T V) = q.victim ∧
      lin s op (findLevel q pred i a found) = q.lin s := by
  cases i with
  | zero => exact at_findDone w hW hq h (hn rfl)
  | succ i =>
    obtain ⟨h1, h2⟩ := hp i rfl
    exact ⟨⟨hq, h1, h, h2⟩, rfl, rfl⟩

end learn

/-- The predecessors with one more level locked. -/
theorem Locking.taken_eq (h : Locking levelmax W S s op q a i high) (hle : high ≤ i) :
    a.taken (i + 1) = insert (a.preds i) (a.taken high) := by
  refine (taken_succ a i).trans (congrArg _ (Set.Subset.antisymm ?_ (taken_mono hle)))
  rintro x ⟨j, hj, rfl⟩
  exact (h.valid j hj).1

omit [Zero V] in
/-- The predecessors are to the left of the victim. -/
theorem Lists.At.not_victim (h : a.At levelmax W s op.key 0) (hi : i < levelmax) {z : After T V}
    (hz : ∀ q, z = .retry q → q.At levelmax S s op) : a.preds i ∉ z.victim := by
  have hlt := (h.pred i i.zero_le hi).2
  rcases z with ⟨_ | _ | ⟨n, top⟩⟩ | r
  · exact Set.notMem_empty _
  · exact Set.notMem_empty _
  · rintro (he : a.preds i = n)
    rw [he, (hz _ rfl).2.key] at hlt
    exact lt_irrefl _ hlt
  · exact Set.notMem_empty _

/-- The way out when a predecessor is not valid. -/
theorem at_retry (hat : Locking levelmax W S s op q a i high) (hle : high ≤ levelmax) :
    At levelmax t S W s op (.unlock a 0 .null high (.retry q)) ∧
      holds (.unlock a 0 .null high (.retry q) : Pc T V) = q.victim ∪ a.taken high := by
  refine ⟨⟨hat.lists, hle, Nat.zero_le _, fun _ => rfl, fun j hj => absurd hj (Nat.succ_ne_zero j).symm,
    fun r hr => ?_⟩, ?_⟩
  · cases hr
    exact hat.caller
  · rw [holds, taken_zero, Set.sdiff_empty]
    rfl

section step

variable {l l' : Pc T V} (w : Wf levelmax S s) (hs : s ∈ W) (hW : W ⊆ S) (hh : Hind W s)
  (hb : ⊥ < op.key) (ht : op.key < ⊤)

include w

/-- A step that only reads. -/
theorem StepOk.read (hs : s ∈ W) (hl : Holds t s l) (hh : holds l' = holds l)
    (h : At levelmax t S W s op l') (hlin : lin s op l' = lin s op l) :
    StepOk levelmax t S W s op l s l' := by
  refine ⟨.skip, hl.same (fun _ => rfl) hh, ?_, Or.inl ⟨hlin, rfl⟩⟩
  rw [Set.insert_eq_of_mem w.mem, Set.insert_eq_of_mem hs]
  exact h

include hs hW hb ht

/-- A step that takes a lock. -/
theorem StepOk.acquire {x : Ptr T} (hl : Holds t s l) (hx : Pub 0 S x) (hf : s.lock x = none)
    (hh : holds l' = insert x (holds l)) (h : At levelmax t S W s op l')
    (hlin : lin s op l' = lin s op l) : StepOk levelmax t S W s op l (s.setLock x (some t)) l' := by
  have hact : Act levelmax t S s (s.setLock x (some t)) := .lock hx (Or.inl hf) (Or.inr rfl)
  exact ⟨hact, hl.acquire hh, h.setLock w hs hW hb ht hact,
    Or.inl ⟨(lin_congr fun y => val_setLock ..).trans hlin, setLock_absMap w x _⟩⟩

/-- A step that gives a lock back. -/
theorem StepOk.release {x : Ptr T} (hl : Holds t s l) (hx : Pub 0 S x) (hm : x ∈ holds l)
    (hh : holds l' = holds l \ {x}) (h : At levelmax t S W s op l')
    (hlin : lin s op l' = lin s op l) : StepOk levelmax t S W s op l (s.release x) l' := by
  have hact : Act levelmax t S s (s.setLock x none) :=
    .lock hx (Or.inr (hl x hm)) (Or.inl rfl)
  exact ⟨hact, hl.release hm hh, h.setLock w hs hW hb ht hact,
    Or.inl ⟨(lin_congr fun y => val_setLock ..).trans hlin, setLock_absMap w x _⟩⟩

variable (hpos : 0 < levelmax) {level : ℕ} (hlevel : 0 < level ∧ level ≤ levelmax)
  (hl : Holds t s l) (h : At levelmax t S W s op l)
  (hstep : step level t s op l = some (s', l'))

include hh hpos hl h hstep

theorem step_ok_search (hlc : l = .left ∨ (∃ p i, l = .leftNext p i) ∨ (∃ p c i, l = .leftKey p c i) ∨
    (∃ p c i, l = .leftEq p c i) ∨ (∃ n, l = .searchMarked n) ∨ (∃ n, l = .searchFull n) ∨
    ∃ n, l = .searchVal n) : StepOk levelmax t S W s op l s' l' := by
  have hlevel : ∀ pred i, (∃ k, op = .search k) → (i = 0 → NoneSeen W op.key) →
      (∀ j, i = j + 1 → Stand levelmax W s op.key j pred) →
      At levelmax t S W s op (leftLevel pred i) ∧ holds (leftLevel pred i : Pc T V) = ∅ ∧
        lin s op (leftLevel pred i) = none := by
    intro pred i hop h0 hst
    cases i with
    | zero =>
      obtain ⟨s₀, hs₀, h0⟩ := h0 rfl
      obtain ⟨k, rfl⟩ := hop
      exact ⟨⟨s₀, hs₀, apply_search_none h0⟩, rfl, rfl⟩
    | succ i => exact ⟨⟨hop, hst i rfl⟩, rfl, rfl⟩
  rcases hlc with rfl | ⟨p, i, rfl⟩ | ⟨p, c, i, rfl⟩ | ⟨p, c, i, rfl⟩ | ⟨n, rfl⟩ | ⟨n, rfl⟩ | ⟨n, rfl⟩ <;>
    cases hstep
  · rw [w.head_top]
    obtain ⟨h1, h2, h3⟩ := hlevel .head levelmax h (fun h0 => absurd h0 hpos.ne')
      fun j hj => stand_head w hW hs hb (by omega)
    exact .read w hs hl h2 h1 h3
  · obtain ⟨h1, h2⟩ := h
    exact .read w hs hl rfl ⟨h1, h2, (h2.next w hW hh).1⟩ rfl
  · obtain ⟨h1, h2, h3⟩ := h
    split_ifs with hlt
    · exact .read w hs hl rfl ⟨h1, h3.1, hlt, h2.2.2⟩ rfl
    · exact .read w hs hl rfl ⟨h1, h2, h3, not_lt.mp hlt⟩ rfl
  · obtain ⟨h1, h2, h3, h4⟩ := h
    split_ifs with he
    · exact .read w hs hl rfl ⟨h1, met_down w hW h3.1 i.zero_le, he.symm⟩ rfl
    · obtain ⟨h5, h6, h7⟩ := hlevel p i h1
        (fun h0 => (h3.2 h0).resolve_left fun hle => he (le_antisymm h4 hle)) fun j hj =>
          ⟨met_down w hW h2.1 (by omega), h2.2.1, by have := h2.2.2; omega⟩
      exact .read w hs hl h6 h5 h7
  · obtain ⟨h1, h2, h3⟩ := h
    rcases hm : s.marked n
    · exact .read w hs hl rfl ⟨h1, h2, h3, .of_not_marked w hs (pub_of_met w hW h2) hm
        (inner_of_key w hW hb ht h3)⟩ rfl
    · obtain ⟨s₀, hs₀, h0⟩ := noneSeen_of_dead w hW hh h2 (Or.inr hm)
      obtain ⟨k, rfl⟩ := h1
      rw [h3] at h0
      exact .read w hs hl rfl ⟨s₀, hs₀, apply_search_none h0⟩ rfl
  · obtain ⟨h1, h2, h3, h4⟩ := h
    rcases hf : s.fullylinked n
    · obtain ⟨s₀, hs₀, h0⟩ := noneSeen_of_dead w hW hh h2 (Or.inl hf)
      obtain ⟨k, rfl⟩ := h1
      rw [h3] at h0
      exact .read w hs hl rfl ⟨s₀, hs₀, apply_search_none h0⟩ rfl
    · have h5 := h4 hf
      rw [h3] at h5
      exact .read w hs hl rfl ⟨h1, pub_of_met w hW h2, h5⟩ rfl
  · obtain ⟨⟨k, rfl⟩, h2, s₀, hs₀, h0⟩ := h
    exact .read w hs hl rfl ⟨s₀, hs₀, apply_search_some h0⟩ rfl

include hlevel in
theorem step_ok_find (hlc : l = .insertLevel ∨ (∃ q, l = .find q) ∨
    (∃ q p i a f, l = .findNext q p i a f) ∨ (∃ q p c i a f, l = .findKey q p c i a f) ∨
    (∃ q p c i a f, l = .findMarked q p c i a f) ∨ ∃ q p c i a f, l = .findEq q p c i a f) :
    StepOk levelmax t S W s op l s' l' := by
  rcases hlc with rfl | ⟨q, rfl⟩ | ⟨q, p, i, a, f, rfl⟩ | ⟨q, p, c, i, a, f, rfl⟩ |
    ⟨q, p, c, i, a, f, rfl⟩ | ⟨q, p, c, i, a, f, rfl⟩ <;> cases hstep
  · exact .read w hs hl rfl ⟨h, hlevel⟩ rfl
  · have hvac : ∀ {j : ℕ}, levelmax ≤ j → j < levelmax → False := fun h1 h2 => by omega
    have hf : Found levelmax W S s op.key q noLists none levelmax := by
      refine ⟨⟨fun j h1 h2 => (hvac h1 h2).elim, fun j h1 h2 => (hvac h1 h2).elim,
        fun j h1 h2 => (hvac h1 (Nat.lt_of_succ_lt h2)).elim⟩, nofun,
        fun j h1 h2 => (hvac h1 h2).elim, nofun, fun n top hq j h1 h2 => ?_⟩
      subst hq
      exact (hvac h1 (h2.trans_le h.2.le)).elim
    obtain ⟨h1, h2, h3⟩ := at_findLevel (t := t) (i := levelmax) w hW .head h hf
      (fun h0 => absurd h0 hpos.ne') fun j hj => ⟨stand_head w hW hs hb (by omega),
        fun hlt => absurd hlt (lt_irrefl _)⟩
    rw [w.head_top]
    exact .read w hs hl h2 h1 h3
  · obtain ⟨h1, h2⟩ := h
    obtain ⟨h3, h4⟩ := h2.1.next w hW hh
    have hp := h2.1.1.mono hW
    -- what the pointer of a node without a mark says of a node of the key
    have hkey : ∀ {n}, s.marked p = false → Lnk i s n → s.key n = op.key →
        op.key ≤ s.key (s.next p i) → s.next p i = n := by
      intro n hm hn hk hle
      refine next_eq_of_lnk w (w.lnk hp hm) hn ?_ (hk ▸ hle)
      rw [hk]
      exact h2.1.2.1
    refine .read w hs hl rfl ⟨h1, h2, h3, h4, fun hm hlt => ?_, fun hm hle m hf hmf => ?_,
      fun hm hle n top hq hi => ?_⟩ rfl
    · exact .of_next w hp hm h2.1.2.1 hlt
    · obtain ⟨h5, h6, h7⟩ := h2.2.1.first m hf
      have hl := w.lnk ((h2.2.1.lists.succ m h5 h6).1.mono hW) hmf
      exact hkey hm (w.down s w.mem (Nat.le_of_succ_le h5) hl) h7 hle
    · subst hq
      exact hkey hm (h1.2.lnk i hi) h1.2.key hle
  · obtain ⟨h1, h2, h3, h4, h5⟩ := h
    split_ifs with hlt
    · refine .read w hs hl rfl ⟨h1, ⟨h3.1, hlt, h2.1.2.2⟩, h2.2.1, fun hi => Or.inr ?_⟩ rfl
      rcases h2.2.2 hi with he | hlt'
      · rw [he]
        exact h4
      · exact hlt'.trans h4
    · exact .read w hs hl rfl ⟨h1, h2, h3, not_lt.mp hlt, h5⟩ rfl
  · obtain ⟨h1, h2, h3, h4, h5⟩ := h
    rcases hm : s.marked p
    · have hne : ∀ {j}, i + 1 ≤ j → (a.setPred i p).preds j = a.preds j :=
        fun hj => Function.update_of_ne (Nat.lt_of_succ_le hj).ne' ..
      have hf : Found levelmax W S s op.key q (a.setPred i p) f (i + 1) := by
        refine ⟨⟨fun j h6 h7 => ?_, h2.2.1.lists.succ, fun j h6 h7 => ?_⟩, h2.2.1.first, h2.2.1.above,
          h2.2.1.same, h2.2.1.mine⟩
        · rw [hne h6]
          exact h2.2.1.lists.pred j h6 h7
        · rw [hne h6, hne (Nat.le_succ_of_le h6)]
          exact h2.2.1.lists.chain j h6 h7
      refine .read w hs hl rfl ⟨h1, ⟨h2.1, hf, fun hi => ?_⟩, h3, h4, Function.update_self .., h5.missed hm,
        h5.same hm h4, h5.mine hm h4⟩ rfl
      rw [hne le_rfl]
      exact h2.2.2 hi
    · exact .read w hs hl rfl h1 rfl
  · obtain ⟨h1, h2, h3, h4, h5, h6, h7, h8⟩ := h
    have hf := Found.down w hW h2 h3 h4 h5 h6 h7 h8
    have hnone : i = 0 → (if f = none ∧ op.key = s.key c then some i else f) = none →
        NoneSeen W op.key := by
      rintro hi hn
      refine (h3.2 hi).resolve_left fun hle => ?_
      split_ifs at hn with hc
      exact hc ⟨hn, le_antisymm h4 hle⟩
    have hnext : ∀ j, i = j + 1 → Stand levelmax W s op.key j p ∧
        (i < levelmax → (a.setSucc i c).preds i = p ∨ s.key ((a.setSucc i c).preds i) < s.key p) := by
      rintro j rfl
      exact ⟨⟨met_down w hW h2.1.1 j.le_succ, h2.1.2.1, Nat.lt_of_succ_lt h2.1.2.2⟩,
        fun _ => Or.inl h5⟩
    obtain ⟨h9, h10, h11⟩ := at_findLevel (t := t) w hW p h1 hf hnone hnext
    exact .read w hs hl h10 h9 h11

theorem step_ok_found (hlc : (∃ m n, l = .insertMarked m n) ∨ (∃ n, l = .insertSpin n) ∨
    (∃ a f, l = .okFull a f) ∨ (∃ a f, l = .okTop a f) ∨ ∃ a f, l = .okMarked a f) :
    StepOk levelmax t S W s op l s' l' := by
  -- the node that the search found was linked at level 0 at some moment
  have hmet : ∀ {a : Lists T} {f}, Found levelmax W S s op.key .remove a (some f) 0 →
      Met (Lnk 0) W (a.succs f) ∧ s.key (a.succs f) = op.key := by
    intro a f hf
    obtain ⟨h1, h2, h3⟩ := hf.first f rfl
    exact ⟨met_down w hW (hf.lists.succ f h1 h2).1 f.zero_le, h3⟩
  have hnone : (∃ k, op = .remove k) → NoneSeen W op.key →
      At levelmax t S W s op (.unchanged (.val 0)) := by
    rintro ⟨k, rfl⟩ ⟨s₀, hs₀, h0⟩
    exact ⟨s₀, hs₀, apply_remove_none h0⟩
  have hdead : ∀ {a : Lists T} {f}, Found levelmax W S s op.key .remove a (some f) 0 →
      s.fullylinked (a.succs f) = false ∨ s.marked (a.succs f) = true → NoneSeen W op.key := by
    intro a f hf hd
    rw [← (hmet hf).2]
    exact noneSeen_of_dead w hW hh (hmet hf).1 hd
  rcases hlc with ⟨m, n, rfl⟩ | ⟨n, rfl⟩ | ⟨a, f, rfl⟩ | ⟨a, f, rfl⟩ | ⟨a, f, rfl⟩ <;> cases hstep
  · obtain ⟨h1, h2, h3⟩ := h
    rcases hm : s.marked n
    · exact .read w hs hl rfl ⟨h1.1, h2, h3, .of_not_marked w hs h2 hm
        (inner_of_key w hW hb ht h3)⟩ rfl
    · exact .read w hs hl rfl h1 rfl
  · obtain ⟨h1, h2, h3, h4⟩ := h
    rcases hf : s.fullylinked n
    · exact .read w hs hl rfl ⟨h1, h2, h3, h4⟩ rfl
    · obtain ⟨s₀, hs₀, h0⟩ := h4 hf
      obtain ⟨k, v, rfl⟩ := h1
      rw [h3] at h0
      exact .read w hs hl rfl ⟨s₀, hs₀, apply_insert_some h0⟩ rfl
  · obtain ⟨h1, h2⟩ := h
    rcases hf : s.fullylinked (a.succs f)
    · exact .read w hs hl rfl (hnone h1 (hdead h2 (Or.inl hf))) rfl
    · exact .read w hs hl rfl ⟨h1, h2, hf⟩ rfl
  · obtain ⟨h1, h2, h3⟩ := h
    split_ifs with htop
    · exact .read w hs hl rfl ⟨h1, h2, h3, htop⟩ rfl
    · -- the search did not see the node at its highest level
      obtain ⟨h4, h5, h6⟩ := h2.first f rfl
      obtain ⟨h7, h8⟩ := inner_of_key w hW hb ht h6
      obtain ⟨h9, h10⟩ := w.tall ((h2.lists.succ f h4 h5).1.mono hW) h7 h8
      obtain ⟨-, hmiss⟩ := h2.above (s.toplevel (a.succs f) - 1) (Nat.zero_le _) (by omega) (by
        intro g hg
        cases hg
        omega)
      refine .read w hs hl rfl (hnone h1 ?_) rfl
      rcases hmiss _ (pub_of_met w hW (hmet h2).1) h6 (by omega) h3 with hm | hn
      · exact hdead h2 (Or.inr hm)
      · exact hn
  · obtain ⟨h1, h2, h3, h4⟩ := h
    rcases hm : s.marked (a.succs f)
    · refine .read w hs hl rfl ⟨h1, h2.lists, (hmet h2).1, (hmet h2).2, h3, fun _ j hj => ?_⟩ rfl
      exact h2.same f rfl j j.zero_le (by omega) hm
    · exact .read w hs hl rfl (hnone h1 (hdead h2 (Or.inr hm))) rfl

theorem step_ok_mark (hlc : (∃ a n, l = .removeLock a n) ∨ (∃ a n, l = .removeTop a n) ∨
    (∃ a n m, l = .removeMarked a n m) ∨ (∃ n, l = .removeGone n) ∨ ∃ a n m, l = .removeMark a n m) :
    StepOk levelmax t S W s op l s' l' := by
  rcases hlc with ⟨a, n, rfl⟩ | ⟨a, n, rfl⟩ | ⟨a, n, m, rfl⟩ | ⟨n, rfl⟩ | ⟨a, n, m, rfl⟩
  · obtain ⟨s₁, ha, he⟩ := Option.map_eq_some_iff.mp hstep
    cases he
    obtain ⟨hf, rfl⟩ := acquire_eq_some ha
    exact .acquire w hs hW hb ht hl (pub_of_met w hW h.2.2.1) hf (insert_empty_eq n).symm h rfl
  · cases hstep
    obtain ⟨h1, h2, h3, h4, h5, h6⟩ := h
    exact .read w hs hl rfl ⟨h1, h2, h3, h4, h5, rfl, h6⟩ rfl
  · cases hstep
    obtain ⟨h1, h2, h3, h4, h5, h6, h7⟩ := h
    rcases hm : s.marked n
    · exact .read w hs hl rfl ⟨h1, h2, pub_of_met w hW h3, h4, h5, h6, hm, h7 hm⟩ rfl
    · have hn := noneSeen_of_dead w hW hh h3 (Or.inr hm)
      rw [h4] at hn
      exact .read w hs hl rfl ⟨h1, pub_of_met w hW h3, hn⟩ rfl
  · cases hstep
    obtain ⟨⟨k, rfl⟩, h2, s₀, hs₀, h0⟩ := h
    exact .release w hs hW hb ht hl h2 rfl Set.sdiff_self.symm ⟨s₀, hs₀, apply_remove_none h0⟩ rfl
  · cases hstep
    obtain ⟨h1, h2, h3, h4, h5, h6, h7, h8⟩ := h
    have hn0 := inner_of_key w hW hb ht h4
    have hact : Act levelmax t S s (s.setMarked n) := .mark (hl n rfl) h3 h5 h7 hn0.1 hn0.2
    have hlnk := fun j => (setMarked_same S s n j).lnk (w.listed j) n
    have htop := w.tall h3 hn0.1 hn0.2
    have hv : Victim levelmax (insert (s.setMarked n) S) (s.setMarked n) op.key n m m := by
      refine ⟨h3.insert _, by rwa [key_setMarked], marked_setMarked_self s n,
        by rwa [toplevel_setMarked], h6 ▸ htop.1, h6 ▸ htop.2, fun j hj => (hlnk j).mpr ?_,
        fun j hj hlj => ?_⟩
      · exact w.lnk_of_full h3 h5 h7 (by omega)
      · have hj' := (w.tall ((w.listed j).pub_lnk ((hlnk j).mp hlj)) hn0.1 hn0.2).1
        omega
    have hlock : Locking levelmax (insert (s.setMarked n) W) (insert (s.setMarked n) S)
        (s.setMarked n) op (.removing n m) a 0 0 :=
      ⟨⟨h1, hv⟩, h2.step w hW (hact.keeps w), h8, fun j hj => absurd hj j.not_lt_zero, Nat.zero_le _⟩
    obtain ⟨h9, h10, h11⟩ := at_lockLevel (t := t) (hact.wf w) (Set.insert_subset_insert hW) .null
      hlock
      le_rfl (fun _ => rfl) fun j hj => absurd hj (Nat.succ_ne_zero j).symm
    refine ⟨hact, hl.same (fun y => lock_setMarked ..) ?_, h9, Or.inr ⟨rfl, _, h11, ?_⟩⟩
    · rw [h10, taken_zero, Set.union_empty]
      rfl
    · obtain ⟨k, rfl⟩ := h1
      have hpres := present w h3 h5 h7 hn0
      have hmark := mark_absMap w h3 h5 h7 hn0
      rw [show s.key n = k from h4] at hpres hmark
      rw [apply_remove_some hpres, ← hmark, val_setMarked]

theorem step_ok_lock (hlc : (∃ q a i m, l = .lock q a i m) ∨ (∃ q a i m, l = .predMarked q a i m) ∨
    (∃ q a i m, l = .succMarked q a i m) ∨ ∃ q a i m, l = .predNext q a i m) :
    StepOk levelmax t S W s op l s' l' := by
  rcases hlc with ⟨q, a, i, m, rfl⟩ | ⟨q, a, i, m, rfl⟩ | ⟨q, a, i, m, rfl⟩ | ⟨q, a, i, m, rfl⟩
  · obtain ⟨h1, h2, h3, h4⟩ := h
    obtain ⟨s₁, ha, he⟩ := Option.map_eq_some_iff.mp hstep
    cases he
    obtain ⟨hf, rfl⟩ := acquire_eq_some ha
    have hlt := h2.trans_le h1.caller.le
    refine .acquire w hs hW hb ht hl (pub_of_met w hW (h1.lists.pred i i.zero_le hlt).1) hf ?_
      ⟨⟨h1.caller, h1.lists, h1.ready, fun j hj => ?_, h1.level⟩, h2, le_rfl, i, i.lt_succ_self, rfl⟩ rfl
    · rw [holds, holds, h1.taken_eq h3, Set.union_insert]
    · obtain ⟨h5, h6⟩ := h1.valid j hj
      exact ⟨taken_mono (Nat.le_succ_of_le h3) h5, h6⟩
  · cases hstep
    obtain ⟨h1, h2, h3, h4⟩ := h
    obtain ⟨h5, h6⟩ := at_retry (t := t) h1 (h3.trans (h2.trans_le h1.caller.le))
    rcases hm : s.marked (a.preds i)
    · cases q with
      | insert => exact .read w hs hl rfl ⟨h1, h2, h3, h4, hm⟩ rfl
      | remove => exact .read w hs hl rfl ⟨h1, h2, h3, h4, hm⟩ rfl
      | removing => exact .read w hs hl rfl ⟨h1, h2, h3, h4, hm⟩ rfl
    · exact .read w hs hl h6 h5 rfl
  · cases hstep
    obtain ⟨h1, h2, h3, h4, h5⟩ := h
    obtain ⟨h6, h7⟩ := at_retry (t := t) h1 (h3.trans (h2.trans_le h1.caller.le))
    split_ifs
    · exact .read w hs hl rfl ⟨h1, h2, h3, h4, h5⟩ rfl
    · exact .read w hs hl h7 h6 rfl
  · cases hstep
    obtain ⟨h1, h2, h3, h4, h5⟩ := h
    split_ifs with hn
    · have hnext : Locking levelmax W S s op q a (i + 1) m := by
        refine ⟨h1.caller, h1.lists, h1.ready, fun j hj => ?_, h2⟩
        rcases Nat.lt_succ_iff_lt_or_eq.mp hj with hj | rfl
        · exact h1.valid j hj
        · exact ⟨h4, h5, hn⟩
      obtain ⟨h6, h7, h8⟩ := at_lockLevel (t := t) w hW (a.preds i) hnext h3
        (fun h0 => absurd h0 i.succ_ne_zero) fun j hj => by rw [Nat.succ_injective hj]
      exact .read w hs hl h7 h6 h8
    · obtain ⟨h6, h7⟩ := at_retry (t := t) h1 (h3.trans (h2.trans_le h1.caller.le))
      exact .read w hs hl h7 h6 rfl

theorem step_ok_insert (hlc : (∃ m a c, l = .insertAlloc m a c) ∨
    (∃ m a c n i, l = .insertFill m a c n i) ∨ (∃ m a c n i, l = .insertLink m a c n i) ∨
    ∃ m a c n, l = .insertFull m a c n) : StepOk levelmax t S W s op l s' l' := by
  rcases hlc with ⟨m, a, c, rfl⟩ | ⟨m, a, c, n, i, rfl⟩ | ⟨m, a, c, n, i, rfl⟩ | ⟨m, a, c, n, rfl⟩
  · obtain ⟨h1, h2⟩ := h
    obtain ⟨⟨k, v, rfl⟩, h3, h4⟩ := id h1.caller
    cases hstep
    have hn : ¬ Pub 0 S (.node t (s.count t)) := (w.listed 0).not_pub_next t
    have he : ∀ x, x ≠ .node t (s.count t) →
        (s.allocateSlMarkedUnlinked t k v m).1.mem x = s.mem x := fun x hx =>
      Memory.mem_allocate_of_ne s x _ t hx
    have hself : (s.allocateSlMarkedUnlinked t k v m).1.mem (.node t (s.count t)) =
        ⟨k, v, m, false, false, none, fun _ => .null⟩ := Memory.mem_allocate_self s _ t
    have hc : ∀ u, s.count u ≤ (s.allocateSlMarkedUnlinked t k v m).1.count u :=
      Memory.count_le_allocate s _ t
    have hact : Act levelmax t S s (s.allocateSlMarkedUnlinked t k v m).1 :=
      .own hn he hc (congrArg SlMarked.lock hself) (congrArg SlMarked.fullylinked hself)
    refine ⟨hact, hl.same (fun y => ?_) rfl, ⟨h1.step w hW (hact.keeps w) fun x hx => ?_, h2,
      Nat.zero_le _, k, v, rfl, ?_⟩, Or.inl ⟨rfl, own_absMap w hn he hc⟩⟩
    · by_cases hy : y = .node t (s.count t)
      · rw [hy, w.unlocked hn]
        exact congrArg SlMarked.lock hself
      · exact congrArg SlMarked.lock (he y hy)
    · refine own_kept w hn he hc ?_
      rcases hx with hx | ⟨j, hj, rfl⟩
      · exact hx.elim
      · exact pub_of_met w hW (h1.lists.pred j j.zero_le (hj.trans_le (h2.trans h4))).1
    · refine ⟨⟨_, rfl, Memory.count_allocate_self s _ t⟩, congrArg SlMarked.key hself,
        congrArg SlMarked.val hself, congrArg SlMarked.toplevel hself, h4,
        congrArg SlMarked.marked hself, congrArg SlMarked.fullylinked hself,
        fun j hj => absurd hj j.not_lt_zero, fun j _ hp => hn ?_, fun j _ hj => absurd hj j.not_lt_zero⟩
      exact w.pub_zero (((w.own_same hn he hc j).pub (w.listed j) _).mp hp)
  · obtain ⟨h1, h2, h3, k, v, rfl, h4⟩ := h
    simp only [step] at hstep
    split_ifs at hstep with hi <;> cases hstep
    · obtain ⟨d, rfl, hd⟩ := h4.node
      have hn : ¬ Pub 0 S (.node t d) := h4.free 0 le_rfl
      have he : ∀ x, x ≠ .node t d → (s.setNext (.node t d) i (a.succs i)).mem x = s.mem x :=
        fun x hx => mem_setNext_of_ne s _ x _ i hx
      have hact : Act levelmax t S s (s.setNext (.node t d) i (a.succs i)) :=
        .own hn he (fun _ => le_rfl) (by rw [lock_setNext]; exact w.unlocked hn)
          (by rw [fullylinked_setNext]; exact h4.half)
      refine ⟨hact, hl.same (fun y => lock_setNext ..) rfl, ⟨h1.step w hW (hact.keeps w) fun x hx => ?_,
        h2, hi, k, v, rfl, ?_⟩, Or.inl ⟨rfl, own_absMap w hn he fun _ => le_rfl⟩⟩
      · refine own_kept w hn he (fun _ => le_rfl) ?_
        rcases hx with hx | ⟨j, hj, rfl⟩
        · exact hx.elim
        · exact pub_of_met w hW (h1.lists.pred j j.zero_le (hj.trans_le (h2.trans h4.le))).1
      · refine ⟨⟨d, rfl, hd⟩, by rw [key_setNext]; exact h4.key, by rw [val_setNext]; exact h4.val,
          by rw [toplevel_setNext]; exact h4.top, h4.le, by rw [marked_setNext]; exact h4.marked,
          by rw [fullylinked_setNext]; exact h4.half, fun j hj => absurd hj j.not_lt_zero,
          fun j _ hp => hn ?_, fun j hj hjm => ?_⟩
        · exact w.pub_zero (((w.own_same hn he (fun _ => le_rfl) j).pub (w.listed j) _).mp hp)
        · rcases Nat.lt_succ_iff_lt_or_eq.mp hjm with hjm | rfl
          · rw [next_setNext_of_ne s _ _ _ i j (Or.inr hjm.ne)]
            exact h4.next j hj hjm
          · exact next_setNext_self ..
    · obtain rfl : i = m := le_antisymm h3 (not_lt.mp hi)
      exact .read w hs hl rfl ⟨⟨k, v, rfl, h4⟩, h1.caller.2.1, Nat.zero_le _, h2, h1.lists, h1.ready,
        fun j hj => ⟨(h1.valid j hj).1, (h1.valid j hj).2.1⟩, fun j _ hj => (h1.valid j hj).2.2⟩ rfl
  · obtain ⟨⟨k, v, rfl, h2⟩, h3, h4, h5, h6, h7, h8, h9⟩ := h
    simp only [step] at hstep
    split_ifs at hstep with hi <;> cases hstep
    · obtain ⟨d, rfl, hd⟩ := id h2.node
      have hlt := hi.trans_le h2.le
      obtain ⟨hp1, hp2⟩ := h6.pred i i.zero_le hlt
      have hp : Lnk i s (a.preds i) := w.lnk (hp1.mono hW) (h8 i hi).2
      have hpt := w.ne_tail_of_lt hp2
      have hn := h2.free i le_rfl
      have hnq : s.next (.node t d) i = s.next (a.preds i) i := by
        rw [h2.next i le_rfl hi, h9 i le_rfl hi]
      have hlnk : ∀ j < i, Lnk j s (.node t d) := fun j hj => w.lnk (h2.pub j hj) h2.marked
      have hsw := setNext_swing s (a.preds i) i (.node t d)
      have hact : Act levelmax t S s (s.setNext (a.preds i) i (.node t d)) := by
        refine .link (hl _ (h8 i hi).1) hp hn hd hlnk hnq (by rw [h2.key]; exact hp2) ?_
          (by rw [h2.top]; exact hi) (by rw [h2.top]; exact h2.le) h2.marked h2.half
        rw [h2.key, h9 i le_rfl hi]
        exact h7 i hlt
      have hpub := hsw.link_pub w.listed hp hpt hn hnq
      refine ⟨hact, hl.same (fun y => lock_setNext ..) rfl, ⟨⟨k, v, rfl, ?_⟩, h3, hi, h5,
        h6.step w hW (hact.keeps w), fun j hj => ?_, fun j hj => ?_, fun j hij hj => ?_⟩,
        Or.inl ⟨rfl, link_absMap w hp hpt hn hnq h2.half⟩⟩
      · refine ⟨⟨d, rfl, hd⟩, by rw [key_setNext]; exact h2.key, by rw [val_setNext]; exact h2.val,
          by rw [toplevel_setNext]; exact h2.top, h2.le, by rw [marked_setNext]; exact h2.marked,
          by rw [fullylinked_setNext]; exact h2.half, fun j hj => (hpub j _).mpr ?_,
          fun j hj hp => ?_, fun j hj hjm => ?_⟩
        · rcases Nat.lt_succ_iff_lt_or_eq.mp hj with hj | rfl
          · exact Or.inl (h2.pub j hj)
          · exact Or.inr ⟨rfl, rfl⟩
        · rcases (hpub j _).mp hp with hp | ⟨rfl, -⟩
          · exact h2.free j (Nat.le_of_succ_le hj) hp
          · exact absurd hj (Nat.not_succ_le_self j)
        · rw [next_setNext_of_ne s _ _ _ i j (Or.inr (Nat.lt_of_succ_le hj).ne')]
          exact h2.next j (Nat.le_of_succ_le hj) hjm
      · rw [key_setNext]
        exact h7 j hj
      · rw [marked_setNext]
        exact h8 j hj
      · rw [next_setNext_of_ne s _ _ _ i j (Or.inr (Nat.lt_of_succ_le hij).ne')]
        exact h9 j (Nat.le_of_succ_le hij) hj
    · obtain rfl : i = m := le_antisymm h4 (not_lt.mp hi)
      exact .read w hs hl rfl ⟨⟨k, v, rfl, h2⟩, h3, h5, h6⟩ rfl
  · obtain ⟨⟨k, v, rfl, h2⟩, h3, h4, h5⟩ := h
    cases hstep
    obtain ⟨d, rfl, hd⟩ := id h2.node
    have hp := h2.pub 0 h3
    have hact : Act levelmax t S s (s.setFullylinked (.node t d)) := by
      refine .full hp (fun i hi => w.lnk (h2.pub i ?_) h2.marked) h2.marked
      rwa [h2.top] at hi
    have habs := full_absMap w hp h2.half ⟨nofun, nofun⟩
    have hnone := absent_of_half w hp h2.half
    rw [h2.key] at habs hnone
    rw [h2.val] at habs
    refine ⟨hact, hl.same (fun y => lock_setFullylinked ..) ?_, ⟨h5.step w hW (hact.keeps w),
      h4.trans h2.le, Nat.zero_le _, fun _ => rfl, fun j hj => absurd hj (Nat.succ_ne_zero j).symm, nofun⟩,
      Or.inr ⟨rfl, _, rfl, ?_⟩⟩
    · show (∅ : Set (Ptr T)) ∪ (a.taken c \ a.taken 0) = a.taken c
      rw [taken_zero, Set.sdiff_empty, Set.empty_union]
    · rw [apply_insert_none hnone, ← habs]

theorem step_ok_remove (hlc : (∃ a m n i, l = .removeNext a m n i) ∨
    (∃ a m n i r, l = .removeStore a m n i r) ∨ (∃ a m n, l = .removeVal a m n) ∨
    (∃ a m n v, l = .removeFree a m n v) ∨ ∃ a m n v, l = .removeUnlock a m n v) :
    StepOk levelmax t S W s op l s' l' := by
  rcases hlc with ⟨a, m, n, i, rfl⟩ | ⟨a, m, n, i, r, rfl⟩ | ⟨a, m, n, rfl⟩ | ⟨a, m, n, v, rfl⟩ |
    ⟨a, m, n, v, rfl⟩ <;> cases hstep
  · obtain ⟨h1, h2, h3, h4, h5⟩ := h
    exact .read w hs hl rfl ⟨h1, h2, h3, h4, h5, rfl⟩ rfl
  · obtain ⟨h1, h2, h3, ⟨top, h4, h5⟩, h6, rfl⟩ := h
    obtain ⟨hp1, hp2⟩ := h3.pred i i.zero_le (h4.trans_le h5.le)
    obtain ⟨h7, h8, h9⟩ := h6 i le_rfl
    have hp : Lnk i s (a.preds i) := w.lnk (hp1.mono hW) h8
    have hpt := w.ne_tail_of_lt hp2
    have hct := (inner_of_key w hW hb ht h5.key).2
    have hsw := setNext_swing s (a.preds i) i (s.next n i)
    have hlnk := hsw.unlink_lnk w.listed hp hpt h9 hct
    have hact : Act levelmax t S s (s.setNext (a.preds i) i (s.next n i)) :=
      .unlink (hl _ (Or.inr h7)) (hl _ (Or.inl rfl)) hp h9 h5.marked hpt hct
        fun j hj => h5.gone j (Nat.succ_le_of_lt hj)
    have hlists := h3.step w hW (hact.keeps w)
    have hvictim : Victim levelmax (insert (s.setNext (a.preds i) i (s.next n i)) S)
        (s.setNext (a.preds i) i (s.next n i)) op.key n top i := by
      refine ⟨h5.pub.insert _, by rw [key_setNext]; exact h5.key, by rw [marked_setNext]; exact h5.marked,
        by rw [toplevel_setNext]; exact h5.top, h5.pos, h5.le, fun j hj => (hlnk j n).mpr ?_,
        fun j hj hlj => ?_⟩
      · exact ⟨h5.lnk j (Nat.lt_succ_of_lt hj), fun h => hj.ne h.1⟩
      · rcases hj.eq_or_lt with rfl | hj
        · exact ((hlnk i n).mp hlj).2 ⟨rfl, rfl⟩
        · exact h5.gone j (Nat.succ_le_of_lt hj) ((hlnk j n).mp hlj).1
    have habs := unlink_absMap w hp hpt h9 hct h5.marked
    cases i with
    | zero =>
      refine ⟨hact, hl.same (fun y => lock_setNext ..) rfl, ⟨h2, hlists, hvictim.pub, hvictim.key⟩,
        Or.inl ⟨?_, habs⟩⟩
      exact congrArg (fun v => some (Answer.val v)) (val_setNext ..)
    | succ i =>
      refine ⟨hact, hl.same (fun y => lock_setNext ..) rfl, ⟨h1, h2, hlists,
        ⟨top, Nat.lt_of_succ_lt h4, hvictim⟩, fun j hj => ?_⟩, Or.inl ⟨?_, habs⟩⟩
      · obtain ⟨h10, h11, h12⟩ := h6 j (Nat.le_succ_of_le hj)
        refine ⟨h10, by rw [marked_setNext]; exact h11, ?_⟩
        rw [next_setNext_of_ne s _ _ _ (i + 1) j (Or.inr (Nat.lt_succ_of_le hj).ne)]
        exact h12
      · exact congrArg (fun v => some (Answer.val v)) (val_setNext ..)
  · exact .read w hs hl rfl h rfl
  · obtain ⟨h1, h2, h3, h4⟩ := h
    have hact : Act levelmax t S s (s.ssmemFree n) := .free n
    exact ⟨hact, hl.same (fun _ => rfl) rfl,
      ⟨h1, h2.step w hW (hact.keeps w), h3.insert _, ((hact.keeps w).key h3).trans h4⟩,
      Or.inl ⟨rfl, rfl⟩⟩
  · obtain ⟨h1, h2, h3, h4⟩ := h
    have hn : n ∉ a.taken m := by
      rintro ⟨j, hj, rfl⟩
      exact (h2.pred j j.zero_le (hj.trans_le h1)).2.ne h4
    refine .release w hs hW hb ht hl h3 (Or.inl rfl) ?_ ⟨h2, h1, Nat.zero_le _, fun _ => rfl,
      fun j hj => absurd hj (Nat.succ_ne_zero j).symm, nofun⟩ rfl
    show ∅ ∪ (a.taken m \ a.taken 0) = ({n} ∪ a.taken m) \ {n}
    rw [taken_zero, Set.sdiff_empty, Set.empty_union, Set.union_sdiff_left,
      Set.sdiff_singleton_eq_self hn]

theorem step_ok_unlock (hlc : (∃ a i old m z, l = .unlock a i old m z) ∨ (∃ r, l = .done r) ∨
    ∃ r, l = .unchanged r) : StepOk levelmax t S W s op l s' l' := by
  rcases hlc with ⟨a, i, old, m, z, rfl⟩ | ⟨r, rfl⟩ | ⟨r, rfl⟩
  · obtain ⟨h1, h2, h3, h4, h5, h6⟩ := h
    simp only [step] at hstep
    split_ifs at hstep with hi hne <;> cases hstep
    · have hlt := hi.trans_le h2
      have hp := (h1.pred i i.zero_le hlt).1
      have hfresh : a.preds i ∉ a.taken i := by
        rintro ⟨j, hj, he⟩
        obtain ⟨r, rfl⟩ := Nat.exists_eq_succ_of_ne_zero (Nat.ne_zero_of_lt hj)
        refine (h1.lt_of_ne hlt (fun h => hne ?_) hj).ne (congrArg s.key he)
        rw [h5 r rfl, ← h]
      refine .release w hs hW hb ht hl (pub_of_met w hW hp) (Or.inr ⟨⟨i, hi, rfl⟩, hfresh⟩) ?_
        ⟨h1, h2, hi, fun h => absurd h i.succ_ne_zero, fun j hj => by rw [Nat.succ_injective hj], h6⟩ ?_
      · rw [holds, holds, taken_succ, ← Set.union_singleton, ← Set.sdiff_sdiff,
          Set.union_sdiff_distrib, Set.sdiff_singleton_eq_self (h1.not_victim hlt h6)]
      · cases z <;> rfl
    · rw [not_not] at hne
      refine .read w hs hl ?_ ⟨h1, h2, hi, fun h => absurd h i.succ_ne_zero,
        fun j hj => by rw [Nat.succ_injective hj], h6⟩ (by cases z <;> rfl)
      have hmem : a.preds i ∈ a.taken i := by
        cases i with
        | zero =>
          exact absurd (hne.symm.trans (h4 rfl))
            (ne_null w (pub_of_met w hW (h1.pred 0 le_rfl (hi.trans_le h2)).1))
        | succ r => exact ⟨r, r.lt_succ_self, by rw [← hne, h5 r rfl]⟩
      rw [holds, holds, taken_succ, Set.insert_eq_of_mem hmem]
    · obtain rfl : i = m := le_antisymm h3 (not_lt.mp hi)
      have hheld : holds (.unlock a i old i z : Pc T V) = z.victim := by
        rw [holds, Set.sdiff_self, Set.union_empty]
      cases z with
      | retry q => exact .read w hs hl hheld.symm (h6 q rfl) rfl
      | ret r => exact .read w hs hl hheld.symm trivial rfl
  · cases hstep
    exact .read w hs hl rfl h rfl
  · cases hstep
    exact .read w hs hl rfl h rfl

include hlevel in
theorem step_ok : StepOk levelmax t S W s op l s' l' := by
  cases l
  case left | leftNext | leftKey | leftEq | searchMarked | searchFull | searchVal =>
    exact step_ok_search w hs hW hh hb ht hpos hl h hstep (by simp)
  case insertLevel | find | findNext | findKey | findMarked | findEq =>
    exact step_ok_find w hs hW hh hb ht hpos hlevel hl h hstep (by simp)
  case insertMarked | insertSpin | okFull | okTop | okMarked =>
    exact step_ok_found w hs hW hh hb ht hpos hl h hstep (by simp)
  case removeLock | removeTop | removeMarked | removeGone | removeMark =>
    exact step_ok_mark w hs hW hh hb ht hpos hl h hstep (by simp)
  case lock | predMarked | succMarked | predNext =>
    exact step_ok_lock w hs hW hh hb ht hpos hl h hstep (by simp)
  case insertAlloc | insertFill | insertLink | insertFull =>
    exact step_ok_insert w hs hW hh hb ht hpos hl h hstep (by simp)
  case removeNext | removeStore | removeVal | removeFree | removeUnlock =>
    exact step_ok_remove w hs hW hh hb ht hpos hl h hstep (by simp)
  case unlock | done | unchanged =>
    exact step_ok_unlock w hs hW hh hb ht hpos hl h hstep (by simp)

end step

/-- A step of another thread does not change the result of a call. -/
theorem lin_step {l : Pc T V} (hk : Keeps t S s s') (h : At levelmax u S W s op l) :
    lin s' op l = lin s op l := by
  have hq : ∀ {q : Caller T}, q.At levelmax S s op → q.lin s' = q.lin s := by
    intro q hat
    cases q with
    | insert => rfl
    | remove => rfl
    | removing n top => exact congrArg (fun v => some (Answer.val v)) (hk.val hat.2.pub)
  cases l
  case find => exact hq h
  case findNext | findKey | findMarked | findEq => exact hq h.1
  case lock | predMarked | succMarked | predNext => exact hq h.1.caller
  case removeNext | removeStore =>
    obtain ⟨-, -, -, ⟨top, -, hv⟩, -⟩ := h
    exact congrArg (fun v => some (Answer.val v)) (hk.val hv.pub)
  case removeVal => exact congrArg (fun v => some (Answer.val v)) (hk.val h.2.2.1)
  case unlock lists i old high after =>
    cases after with
    | retry q => exact hq (h.2.2.2.2.2 q rfl)
    | ret r => rfl
  all_goals rfl

/-! ### Runs -/

theorem start_at (op : Call K V) : At levelmax t S W s op (start op) := by
  rcases op with k | ⟨k, v⟩ | k
  · exact ⟨k, rfl⟩
  · exact ⟨k, v, rfl⟩
  · exact ⟨k, rfl⟩

omit [LinearOrder K] [BoundedOrder K] in
theorem holds_start (op : Call K V) : holds (start op : Pc T V) = ∅ := by cases op <;> rfl

variable [Nontrivial K]

/-- The proof outline. -/
def outline (hpos : 0 < levelmax) :
    Outline (program T K V levelmax) (fun _ _ _ _ => True) fun _ _ => False where
  glob es s := Wf levelmax ((program T K V levelmax).seen es) s
  loc t W₀ W s op l := W ⊆ W₀ ∧ Hind W s ∧ Client op ∧ Holds t s l ∧ At levelmax t W₀ W s op l
  pair _ _ := True
  pair_symm := id
  init := .initial levelmax
  frame := by
    intro es s e th hw _
    rw [Program.seen, Set.insert_eq_of_mem hw.mem]
    exact hw
  call t _ hs hp := ⟨Set.singleton_subset_iff.mpr hs, fun _ => .singleton _, hp,
    fun x hx => absurd hx (by rw [program, holds_start]; exact Set.notMem_empty x), start_at _⟩
  call_pair := trivial
  tau := by
    intro es c t op l i s' l' hr ht hres hstep _ hw hloc
    obtain ⟨hW, hh, hc, hl, hat⟩ := hloc
    have hok := step_ok hw (hr.shared_mem_window _ ht) hW hh hc.1 hc.2.1 hpos
      ⟨Nat.succ_pos i, i.2⟩ hl hat hstep
    have hk := hok.act.keeps hw
    rw [extend_of_not id]
    refine ⟨hok.act.wf hw, ⟨Set.insert_subset_insert hW, hok.act.hindsight hw hW hh, hc,
      hok.locks.holds, hok.next⟩, fun u op₁ l₁ hu hcu hloc₁ _ => ⟨?_, trivial⟩⟩
    obtain ⟨hW₁, hh₁, hc₁, hl₁, hat₁⟩ := hloc₁
    exact ⟨Set.insert_subset_insert hW₁, hok.act.hindsight hw hW₁ hh₁, hc₁, hl₁.step hu hk,
      hat₁.step hw (hok.act.wf hw) (hr.shared_mem_window _ hcu) hW₁ hc₁.1 hc₁.2.1 hu hk hl₁⟩

section run

variable (hpos : 0 < levelmax)
  {es : Trace T (Call K V) (Answer V) (MarkedSkipHeap T K V) (Pc T V)}
  {c : Config T (Call K V) (MarkedSkipHeap T K V) (Pc T V)}

include hpos

theorem step_ok_of_run (hr : (program T K V levelmax).Run es c) {l l' : Pc T V} (i : Fin levelmax)
    (ht : c.threads t = some (op, l)) (hstep : step (i + 1) t c.shared op l = some (s', l')) :
    StepOk levelmax t ((program T K V levelmax).seen es) (since t es) c.shared op l s' l' := by
  obtain ⟨hW, hh, hc, hl, hat⟩ := ((outline hpos).holds hr).loc t op l ht
  exact step_ok ((outline hpos).holds hr).glob (hr.shared_mem_window _ ht) hW hh hc.1 hc.2.1 hpos
    ⟨Nat.succ_pos i, i.2⟩ hl hat hstep

theorem linearizable [Fintype T] :
    Linearizable (mapObject K V) (program T K V levelmax) absMap :=
  Concur.linearizable <| (outline hpos).points lin (empty_absMap levelmax)
    (fun s op => by cases op <;> rfl)
    (fun {es c t op l i s' l'} hr hh ht _ hstep _ => by
      have hok := step_ok_of_run hpos hr i ht hstep
      refine ⟨hok.point, fun u op₁ l₁ _ hc => ?_⟩
      exact lin_step (hok.act.keeps hh.glob) (hh.loc u op₁ l₁ hc).2.2.2.2)
    fun {es c t op l r} hr hh ht hres => by
      obtain ⟨-, -, -, -, hat⟩ := hh.loc t op l ht
      cases l <;> cases hres
      case done => exact Or.inl rfl
      case unchanged => exact Or.inr ⟨rfl, hat⟩

end run

/-- **The skip list with optimistic locks is a map.** Its calls are
linearizable, and a key is present exactly while a node with that key is fully
linked and not marked. -/
theorem herlihy_lb_linearizable [Fintype T] [DecidableEq V] (hpos : 0 < levelmax) :
    Linearizable (mapObject K V) (program T K V levelmax) absMap ∧
    ∀ es c, (program T K V levelmax).Run es c → {k | absMap c.shared k ≠ none}.Finite ∧
      ∀ k, absMap c.shared k ≠ none ↔ ∃ x, c.shared.fullylinked x = true ∧
        c.shared.marked x = false ∧ (x ≠ .head ∧ x ≠ .tail) ∧ c.shared.key x = k :=
  ⟨linearizable hpos, fun _ _ hr => ⟨LinearizableIf.finite (linearizable hpos)
    (fun _ _ h => h.2.2 _ _ rfl) hr, fun _ => absMap_iff ((outline hpos).holds hr).glob⟩⟩

/-- Three threads, keys 1 to 8, and nodes of up to four levels. -/
theorem herlihy_lb_linearizable_three :
    Linearizable (mapObject (Fin 10) ℕ) (program (Fin 3) (Fin 10) ℕ 4) absMap :=
  (herlihy_lb_linearizable (by decide)).1

end SkiplistHerlihyLB

end Ascylib
