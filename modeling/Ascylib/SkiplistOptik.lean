/-
# The skip list with OPTIK locks

`src/algorithms/skiplist_optik.h` with integer words, one local state for each
access to shared memory and for the heads of the loops over the levels. A search
reads the word of a node before it reads its pointers. `insert` locks the
predecessors of its key from level 0 up, each with the version that the search
read, and links its node level by level. When a lock cannot be taken it gives all
back and starts again at that level, with its node linked below it. `remove`
deletes its node by its word, which nobody undoes, and then tries until it has
locked all predecessors.

What a thread has locked and deleted is known at every point of a call (`holds`,
`victims`), and so is what it knows of the list (`At`). The other threads leave
that alone (`At.transfer`).

Key definitions: `step`, `program`, `holds`, `victims`, `At`.
Key theorem: `At.transfer`.
-/
import Ascylib.SlLockedWrites

set_option linter.unusedSectionVars false

namespace Ascylib

open Concur Chain

namespace SkiplistOptik

variable {T K V : Type*} [DecidableEq T] [LinearOrder K]

/-- The arrays `preds` and `predsv`. -/
structure Preds (T : Type*) where
  preds : ℕ → Ptr T
  predsv : ℕ → OptikT

/-- `preds[i] = pred; predsv[i] = predv`. -/
def Preds.set (a : Preds T) (i : ℕ) (pred : Ptr T) (predv : OptikT) : Preds T :=
  ⟨Function.update a.preds i pred, Function.update a.predsv i predv⟩

/-- The arrays before anything is written to them. -/
def noPreds : Preds T := ⟨fun _ => .null, fun _ => 0⟩

/-- Who called `sl_optik_search`. -/
inductive Caller (T : Type*) where
  /-- `insert`, whose node is linked below `inserted_upto`; `node_new` may still
  be `NULL` -/
  | insert (toplevel insertedUpto : ℕ) (nodeNew : Ptr T)
  /-- `remove`, while `my_delete` is 0 -/
  | remove
  /-- `remove`, once `my_delete` is 1; the code does not keep the node that it
  has deleted -/
  | removing (node : Ptr T)

/-- Who locks the predecessors. -/
inductive Locker (T : Type*) where
  /-- `insert`, from `inserted_upto` up -/
  | insert (toplevel insertedUpto : ℕ) (nodeNew : Ptr T)
  /-- `remove` of `node_found` -/
  | remove (node : Ptr T) (toplevel : ℕ)

/-- The level from which on it locks. -/
def Locker.low : Locker T → ℕ
  | .insert _ insertedUpto _ => insertedUpto
  | .remove _ _ => 0

/-- The level up to which it locks. -/
def Locker.top : Locker T → ℕ
  | .insert toplevel _ _ => toplevel
  | .remove _ toplevel => toplevel

/-- What a search is for when level `i` could not be locked. -/
def Locker.again (i : ℕ) : Locker T → Caller T
  | .insert toplevel _ nodeNew => .insert toplevel i nodeNew
  | .remove node _ => .removing node

/-- What follows `unlock_levels_down`. -/
inductive After (T : Type*) where
  /-- `goto restart` -/
  | restart (q : Caller T)
  /-- `return 1` -/
  | inserted
  /-- `ssmem_free(alloc, node_found)` -/
  | removed (node : Ptr T)

/-- Where a call is, with the local variables that are live there. `found` is
`node_found` with `*node_foundv`. -/
inductive Pc (T V : Type*) where
  /-- `sl_optik_left_search`: `i = pred->toplevel-1`, for `pred = head` -/
  | left
  /-- `curr = pred->next[i]` -/
  | leftNext (pred : Ptr T) (i : ℕ)
  /-- `key > curr->key` -/
  | leftKey (pred : Ptr T) (i : ℕ) (curr : Ptr T)
  /-- `key == curr->key` -/
  | leftEq (pred : Ptr T) (i : ℕ) (curr : Ptr T)
  /-- `search`: `!optik_is_deleted(node->lock)` -/
  | searchDeleted (node : Ptr T)
  /-- `result = node->val` -/
  | searchVal (node : Ptr T)
  /-- `insert`: `toplevel = get_rand_level()` -/
  | insertLevel
  /-- `sl_optik_search`: `predv = head->lock` -/
  | find (q : Caller T)
  /-- `i = pred->toplevel-1`, for `pred = head` -/
  | findTop (q : Caller T) (predv : OptikT)
  /-- `curr = pred->next[i]` -/
  | findNext (q : Caller T) (pred : Ptr T) (predv : OptikT) (i : ℕ) (a : Preds T)
      (found : Option (Ptr T × OptikT))
  /-- `currv = curr->lock` -/
  | findLock (q : Caller T) (pred : Ptr T) (predv : OptikT) (i : ℕ) (a : Preds T)
      (found : Option (Ptr T × OptikT)) (curr : Ptr T)
  /-- `key > curr->key`, `optik_is_deleted(predv)` -/
  | findKey (q : Caller T) (pred : Ptr T) (predv : OptikT) (i : ℕ) (a : Preds T)
      (found : Option (Ptr T × OptikT)) (curr : Ptr T) (currv : OptikT)
  /-- `key == curr->key` -/
  | findEq (q : Caller T) (pred : Ptr T) (predv : OptikT) (i : ℕ) (a : Preds T)
      (found : Option (Ptr T × OptikT)) (curr : Ptr T) (currv : OptikT)
  /-- `insert`: `!optik_is_deleted(node_found->lock)` -/
  | insertDeleted (toplevel : ℕ) (nodeNew nodeFound : Ptr T)
  /-- `ssmem_free(alloc, node_new)` -/
  | insertFree (nodeNew : Ptr T)
  /-- `node_new = allocate_sl_locked_unlinked(key, val, .., toplevel, 0)` -/
  | insertAlloc (toplevel insertedUpto : ℕ) (a : Preds T)
  /-- `pred_prev != pred && !optik_trylock_version(&pred->lock, predsv[i])`: the
  tests -/
  | lock (q : Locker T) (a : Preds T) (i : ℕ) (predPrev : Ptr T)
  /-- and the CAS -/
  | lockCas (q : Locker T) (a : Preds T) (i : ℕ)
  /-- `pred->next[i]` -/
  | insertNext (toplevel insertedUpto : ℕ) (nodeNew : Ptr T) (a : Preds T) (i : ℕ)
  /-- `node_new->next[i] = ..` -/
  | insertFill (toplevel insertedUpto : ℕ) (nodeNew : Ptr T) (a : Preds T) (i : ℕ) (next : Ptr T)
  /-- `pred->next[i] = node_new` -/
  | insertLink (toplevel insertedUpto : ℕ) (nodeNew : Ptr T) (a : Preds T) (i : ℕ)
  /-- `node_new->state = 1` -/
  | insertState (toplevel insertedUpto : ℕ) (nodeNew : Ptr T) (a : Preds T)
  /-- `remove`: `optik_is_deleted(node_found->lock)` -/
  | removeDeleted (a : Preds T) (nodeFound : Ptr T) (nodeFoundv : OptikT)
  /-- `!node_found->state` -/
  | removeState (a : Preds T) (nodeFound : Ptr T) (nodeFoundv : OptikT)
  /-- `optik_trylock_vdelete(&node_found->lock, node_foundv)`: the test -/
  | removeTry (a : Preds T) (nodeFound : Ptr T) (nodeFoundv : OptikT)
  /-- and the CAS -/
  | removeCas (a : Preds T) (nodeFound : Ptr T) (nodeFoundv : OptikT)
  /-- `optik_is_deleted(node_found->lock)`, when it was not deleted -/
  | removeFailed (nodeFound : Ptr T)
  /-- `toplevel_nf = node_found->toplevel` -/
  | removeTop (a : Preds T) (nodeFound : Ptr T)
  /-- `node_found->next[i]` -/
  | removeNext (a : Preds T) (node : Ptr T) (toplevel i : ℕ)
  /-- `preds[i]->next[i] = ..` -/
  | removeStore (a : Preds T) (node : Ptr T) (toplevel i : ℕ) (next : Ptr T)
  /-- `unlock_levels_down(preds, low, i-1)`: `old != nodes[i]`, and the load of
  `optik_unlock(&nodes[i]->lock)` -/
  | unlock (a : Preds T) (low i : ℕ) (old : Ptr T) (after : After T)
  /-- and the store -/
  | unlockStore (a : Preds T) (low i : ℕ) (after : After T) (ver : OptikT)
  /-- `ssmem_free(alloc, node_found)` -/
  | removeFree (node : Ptr T)
  /-- `return node_found->val` -/
  | removeVal (node : Ptr T)
  /-- `return r` from a call that took effect -/
  | done (r : Answer V)
  /-- `return r` from a call that changed nothing -/
  | unchanged (r : Answer V)

variable [Zero V]

def start : Call K V → Pc T V
  | .search _ => .left
  | .insert _ _ => .insertLevel
  | .remove _ => .find .remove

/-- `sl_optik_left_search` goes down a level. -/
def leftLevel (pred : Ptr T) : ℕ → Pc T V
  | 0 => .unchanged (.val 0)
  | i + 1 => .leftNext pred i

/-- Level `i` is locked. -/
def locked (q : Locker T) (a : Preds T) (i : ℕ) : Pc T V :=
  match q with
  | .insert toplevel insertedUpto nodeNew => .insertNext toplevel insertedUpto nodeNew a i
  | .remove _ _ => .lock q a (i + 1) (a.preds i)

/-- All levels are locked. -/
def allLocked (q : Locker T) (a : Preds T) : Pc T V :=
  match q with
  | .insert toplevel insertedUpto nodeNew => .insertState toplevel insertedUpto nodeNew a
  | .remove node toplevel => .removeNext a node toplevel 0

/-- Level `i` could not be locked. -/
def failed (q : Locker T) (a : Preds T) (i : ℕ) : Pc T V :=
  .unlock a q.low i .null (.restart (q.again i))

/-- `insert` has searched and found no node that stands in its way. -/
def insertNew (toplevel insertedUpto : ℕ) (nodeNew : Ptr T) (a : Preds T) : Pc T V :=
  if nodeNew = .null then .insertAlloc toplevel insertedUpto a
  else .lock (.insert toplevel insertedUpto nodeNew) a insertedUpto .null

/-- `sl_optik_search` returns `found`. -/
def findDone (q : Caller T) (a : Preds T) (found : Option (Ptr T × OptikT)) : Pc T V :=
  match q, found with
  | .insert toplevel 0 nodeNew, some (nodeFound, _) => .insertDeleted toplevel nodeNew nodeFound
  | .insert toplevel insertedUpto nodeNew, _ => insertNew toplevel insertedUpto nodeNew a
  | .remove, some (nodeFound, nodeFoundv) => .removeDeleted a nodeFound nodeFoundv
  | .removing _, some (nodeFound, _) => .removeTop a nodeFound
  | _, none => .unchanged (.val 0)

/-- `sl_optik_search` is done with level `i`. -/
def findLevel (q : Caller T) (pred : Ptr T) (predv : OptikT) (i : ℕ) (a : Preds T)
    (found : Option (Ptr T × OptikT)) : Pc T V :=
  match i with
  | 0 => findDone q a found
  | i + 1 => .findNext q pred predv i a found

/-- `unlock_levels_down` returns. -/
def unlocked : After T → Pc T V
  | .restart q => .find q
  | .inserted => .done (.flag true)
  | .removed node => .removeFree node

/-- The next access to shared memory of thread `t`, and what follows from it.
`level` is what `get_rand_level()` draws. -/
def step (level : ℕ) (t : T) (s : LockedSkipHeap T K V) (op : Call K V) :
    Pc T V → LockedSkipHeap T K V × Pc T V
  | .left => (s, leftLevel .head (s.toplevel .head))
  | .leftNext pred i => (s, .leftKey pred i (s.next pred i))
  | .leftKey pred i curr =>
    (s, if s.key curr < op.key then .leftNext curr i else .leftEq pred i curr)
  | .leftEq pred i curr =>
    (s, if op.key = s.key curr then .searchDeleted curr else leftLevel pred i)
  | .searchDeleted node =>
    (s, if s.lock node = optikDeleted then .unchanged (.val 0) else .searchVal node)
  | .searchVal node => (s, .unchanged (.val (s.val node)))
  | .insertLevel => (s, .find (.insert level 0 .null))
  | .find q => (s, .findTop q (s.lock .head))
  | .findTop q predv => (s, findLevel q .head predv (s.toplevel .head) noPreds none)
  | .findNext q pred predv i a found => (s, .findLock q pred predv i a found (s.next pred i))
  | .findLock q pred predv i a found curr =>
    (s, .findKey q pred predv i a found curr (s.lock curr))
  | .findKey q pred predv i a found curr currv =>
    (s, if s.key curr < op.key then .findNext q curr currv i a found
      else if predv = optikDeleted then .find q
      else .findEq q pred predv i (a.set i pred predv) found curr currv)
  | .findEq q pred predv i a found curr currv =>
    (s, findLevel q pred predv i a (if op.key = s.key curr then some (curr, currv) else found))
  | .insertDeleted toplevel nodeNew nodeFound =>
    (s, if s.lock nodeFound = optikDeleted then .find (.insert toplevel 0 nodeNew)
      else if nodeNew ≠ .null then .insertFree nodeNew else .unchanged (.flag false))
  | .insertFree nodeNew => (s.ssmemFree nodeNew, .unchanged (.flag false))
  | .insertAlloc toplevel insertedUpto a =>
    match op with
    | .insert key val =>
      let (s', nodeNew) := s.allocateSlLockedUnlinked t key val toplevel
      (s', .lock (.insert toplevel insertedUpto nodeNew) a insertedUpto .null)
    | _ => (s, .insertAlloc toplevel insertedUpto a)
  | .lock q a i predPrev =>
    (s, if i < q.top then
        if predPrev = a.preds i then locked q a i
        else if optikOutdated (s.lock (a.preds i)) (a.predsv i) then failed q a i
        else .lockCas q a i
      else allLocked q a)
  | .lockCas q a i =>
    match s.casLock (a.preds i) (a.predsv i) (a.predsv i + 1) with
    | (true, s') => (s', locked q a i)
    | (false, s') => (s', failed q a i)
  | .insertNext toplevel insertedUpto nodeNew a i =>
    (s, .insertFill toplevel insertedUpto nodeNew a i (s.next (a.preds i) i))
  | .insertFill toplevel insertedUpto nodeNew a i next =>
    (s.setNext nodeNew i next, .insertLink toplevel insertedUpto nodeNew a i)
  | .insertLink toplevel insertedUpto nodeNew a i =>
    (s.setNext (a.preds i) i nodeNew,
      .lock (.insert toplevel insertedUpto nodeNew) a (i + 1) (a.preds i))
  | .insertState toplevel insertedUpto nodeNew a =>
    (s.setState nodeNew, .unlock a insertedUpto toplevel .null .inserted)
  | .removeDeleted a nodeFound nodeFoundv =>
    (s, if s.lock nodeFound = optikDeleted then .unchanged (.val 0)
      else .removeState a nodeFound nodeFoundv)
  | .removeState a nodeFound nodeFoundv =>
    (s, if s.state nodeFound then .removeTry a nodeFound nodeFoundv else .unchanged (.val 0))
  | .removeTry a nodeFound nodeFoundv =>
    (s, if optikOutdated (s.lock nodeFound) nodeFoundv then .removeFailed nodeFound
      else .removeCas a nodeFound nodeFoundv)
  | .removeCas a nodeFound nodeFoundv =>
    match s.casLock nodeFound nodeFoundv optikDeleted with
    | (true, s') => (s', .removeTop a nodeFound)
    | (false, s') => (s', .removeFailed nodeFound)
  | .removeFailed nodeFound =>
    (s, if s.lock nodeFound = optikDeleted then .unchanged (.val 0) else .find .remove)
  | .removeTop a nodeFound => (s, .lock (.remove nodeFound (s.toplevel nodeFound)) a 0 .null)
  | .removeNext a node toplevel i =>
    if i < toplevel then (s, .removeStore a node toplevel i (s.next node i))
    else (s, .unlock a 0 toplevel .null (.removed node))
  | .removeStore a node toplevel i next =>
    (s.setNext (a.preds i) i next, .removeNext a node toplevel (i + 1))
  | .unlock a low i old after =>
    (s, match i with
      | 0 => unlocked after
      | i + 1 =>
        if low ≤ i then
          if old = a.preds i then .unlock a low i old after
          else .unlockStore a low i after (s.lock (a.preds i))
        else unlocked after)
  | .unlockStore a low i after ver =>
    (s.setLock (a.preds i) (ver + 1), .unlock a low i (a.preds i) after)
  | .removeFree node => (s.ssmemFree node, .removeVal node)
  | .removeVal node => (s, .done (.val (s.val node)))
  | .done r => (s, .done r)
  | .unchanged r => (s, .unchanged r)

def result : Pc T V → Option (Answer V)
  | .done r => some r
  | .unchanged r => some r
  | _ => none

/-- The skip list, for clients that keep to keys strictly between the
sentinels' and values other than 0. A step draws a level from 1 to `levelmax`. -/
def program (T K V : Type*) [DecidableEq T] [LinearOrder K] [BoundedOrder K] [Zero V]
    (levelmax : ℕ) :
    Program T (Call K V) (Answer V) (LockedSkipHeap T K V) (Pc T V) (Fin levelmax) where
  init := LockedSkipHeap.empty levelmax
  pre := Client
  start := start
  step i t s op l := some (step (i + 1) t s op l)
  result := result

/-! ### What a call holds -/

/-- The predecessors from level `low` up to level `i`. -/
def Preds.taken (a : Preds T) (low i : ℕ) : Set (Ptr T) :=
  {x | ∃ j, low ≤ j ∧ j < i ∧ x = a.preds j}

/-- The locks that the call holds. -/
def holds : Pc T V → Set (Ptr T)
  | .lock q a i _ | .lockCas q a i => a.taken q.low i
  | .insertNext _ upto _ a i | .insertFill _ upto _ a i _ | .insertLink _ upto _ a i =>
    a.taken upto (i + 1)
  | .insertState toplevel upto _ a => a.taken upto toplevel
  | .removeNext a _ toplevel _ | .removeStore a _ toplevel _ _ => a.taken 0 toplevel
  | .unlock a low i old _ => a.taken low i \ {old}
  | .unlockStore a low i _ _ => a.taken low (i + 1)
  | _ => ∅

def Caller.victims : Caller T → Set (Ptr T)
  | .removing node => {node}
  | _ => ∅

def Locker.victims : Locker T → Set (Ptr T)
  | .remove node _ => {node}
  | _ => ∅

def After.victims : After T → Set (Ptr T)
  | .restart q => q.victims
  | _ => ∅

/-- The node that the call has deleted and has not unlinked at all levels. -/
def victims : Pc T V → Set (Ptr T)
  | .find q | .findTop q _ | .findNext q _ _ _ _ _ | .findLock q _ _ _ _ _ _ |
    .findKey q _ _ _ _ _ _ _ | .findEq q _ _ _ _ _ _ _ => q.victims
  | .lock q _ _ _ | .lockCas q _ _ => q.victims
  | .removeTop _ node | .removeStore _ node _ _ _ => {node}
  | .removeNext _ node toplevel i => if i < toplevel then {node} else ∅
  | .unlock _ _ _ _ after | .unlockStore _ _ _ after _ => after.victims
  | _ => ∅

/-- A call that returns holds nothing. -/
theorem returned_holds {l : Pc T V} {r : Answer V} (h : result l = some r) :
    holds l = ∅ ∧ victims l = ∅ := by
  cases l <;> first | exact ⟨rfl, rfl⟩ | cases h

/-! ### What holds at each point of a call -/

open LockedSkipHeap

variable [BoundedOrder K] {t u : T} {S W : Set (LockedSkipHeap T K V)} {s s' : LockedSkipHeap T K V}
  {op : Call K V} {k : K} {levelmax : ℕ} {a : Preds T} {q : Caller T} {z : Locker T}
  {found : Option (Ptr T × OptikT)} {i j m : ℕ} {n x pred curr : Ptr T} {predv : OptikT}
  {b shown : Prop} {H X : Set (Ptr T)}

abbrev Since (s : LockedSkipHeap T K V) (x : Ptr T) (v : OptikT) : Prop := (optik T K V).Since s x v

/-- A traversal of level `i` is at this node, to the left of the key. -/
structure Stand (levelmax : ℕ) (W : Set (LockedSkipHeap T K V)) (s : LockedSkipHeap T K V) (k : K)
    (i : ℕ) (x : Ptr T) : Prop where
  met : Met (LnkFrom i) W x
  lt : s.key x < k
  le : i < levelmax

/-- It has come to this node. -/
structure Came (W S : Set (LockedSkipHeap T K V)) (s : LockedSkipHeap T K V) (k : K) (i : ℕ)
    (pred : Ptr T) (predv : OptikT) (curr : Ptr T) : Prop where
  seen : Seen i W k curr
  version : Version i S pred predv curr
  lt : s.key pred < s.key curr

/-- The predecessor of level `i`, with its version: its pointer led to the key or
past it, past it if `b`. -/
structure Preds.Spot (S : Set (LockedSkipHeap T K V)) (s : LockedSkipHeap T K V) (k : K)
    (a : Preds T) (b : Prop) (i : ℕ) : Prop where
  pub : Pub i S (a.preds i)
  lt : s.key (a.preds i) < k
  version : ∃ q, Version i S (a.preds i) (a.predsv i) q ∧ Pub i S q ∧ k ≤ s.key q ∧
    (b → s.key q ≠ k)

/-- The predecessors from level `i` up: going down, they move to the right. -/
structure Preds.At (levelmax : ℕ) (S : Set (LockedSkipHeap T K V)) (s : LockedSkipHeap T K V)
    (k : K) (a : Preds T) (b : Prop) (i : ℕ) : Prop where
  spot : ∀ j, i ≤ j → j < levelmax → a.Spot S s k b j
  chain : ∀ j, i ≤ j → j + 1 < levelmax →
    a.preds (j + 1) = a.preds j ∧ a.predsv (j + 1) = a.predsv j ∨
    s.key (a.preds (j + 1)) < s.key (a.preds j)

/-- The search is at `pred` in level `i`. -/
structure Finds (levelmax : ℕ) (W S : Set (LockedSkipHeap T K V)) (s : LockedSkipHeap T K V) (k : K)
    (pred : Ptr T) (predv : OptikT) (i : ℕ) (a : Preds T) (found : Option (Ptr T × OptikT)) :
    Prop where
  stand : Stand levelmax W s k i pred
  since : Since s pred predv
  preds : a.At levelmax S s k (found = none) (i + 1)
  chain : i + 1 < levelmax → a.preds (i + 1) = pred ∧ a.predsv (i + 1) = predv ∨
    s.key (a.preds (i + 1)) < s.key pred
  found : ∀ c v, found = some (c, v) → Met (LnkFrom 0) W c ∧ s.key c = k

/-- The node that the call removes, unlinked below level `i`. -/
structure Victim (S : Set (LockedSkipHeap T K V)) (s : LockedSkipHeap T K V) (k : K) (n : Ptr T)
    (h i : ℕ) : Prop where
  pub : Pub 0 S n
  key : s.key n = k
  deleted : s.lock n = optikDeleted
  top : s.toplevel n = h
  pos : 0 < h
  lnk : ∀ j, i ≤ j → j < h → Lnk j s n
  gone : ∀ j < i, ¬ Lnk j s n

/-- The node that the call inserts, linked below level `i`. -/
structure NewNode (levelmax : ℕ) (t : T) (S : Set (LockedSkipHeap T K V)) (s : LockedSkipHeap T K V)
    (k : K) (v : V) (h i : ℕ) (n : Ptr T) : Prop where
  node : ∃ c, n = .node t c ∧ c < s.count t
  key : s.key n = k
  val : s.val n = v
  top : s.toplevel n = h
  le : h ≤ levelmax
  half : s.state n = false
  pub : ∀ j < i, Pub j S n
  free : ∀ j, i ≤ j → ¬ Pub j S n

def Caller.At (levelmax : ℕ) (t : T) (S : Set (LockedSkipHeap T K V)) (s : LockedSkipHeap T K V)
    (op : Call K V) : Caller T → Prop
  | .insert top upto n => upto < top ∧ top ≤ levelmax ∧ ∃ k v, op = .insert k v ∧
      (upto = 0 ∧ n = .null ∨ NewNode levelmax t S s k v top upto n)
  | .remove => ∃ k, op = .remove k
  | .removing n => (∃ k, op = .remove k) ∧ Victim S s op.key n (s.toplevel n) 0

/-- The victim is linked all the while. -/
def Caller.Linked (W : Set (LockedSkipHeap T K V)) (q : Caller T) : Prop :=
  ∀ n, q = .removing n → ∀ s ∈ W, Lnk 0 s n

/-- Up to level `i` the locker has done its work. -/
def Locker.At (levelmax : ℕ) (t : T) (S : Set (LockedSkipHeap T K V)) (s : LockedSkipHeap T K V)
    (op : Call K V) (i : ℕ) : Locker T → Prop
  | .insert top upto n => upto < top ∧ upto ≤ i ∧ i ≤ top ∧ top ≤ levelmax ∧
      ∃ k v, op = .insert k v ∧ NewNode levelmax t S s k v top i n
  | .remove n top => (∃ k, op = .remove k) ∧ i ≤ top ∧ top ≤ levelmax ∧ Victim S s op.key n top 0

/-- The first node with its key is linked where there is none. -/
def Locker.Fresh : Locker T → Prop
  | .insert _ upto _ => upto = 0
  | .remove _ _ => False

/-- The locked predecessors lead to the key, or past it. -/
def Preds.Held (levelmax : ℕ) (s : LockedSkipHeap T K V) (k : K) (a : Preds T) (H : Set (Ptr T)) :
    Prop :=
  ∀ j < levelmax, a.preds j ∈ H → k ≤ s.key (s.next (a.preds j) j)

/-- The loop over the levels is at level `i`; the levels below `m` are locked. -/
structure Locking (levelmax : ℕ) (t : T) (S : Set (LockedSkipHeap T K V)) (s : LockedSkipHeap T K V)
    (op : Call K V) (z : Locker T) (a : Preds T) (i m : ℕ) : Prop where
  locker : z.At levelmax t S s op i
  preds : a.At levelmax S s op.key z.Fresh 0
  held : a.Held levelmax s op.key (a.taken z.low m)
  first : z.Fresh → i = 0 → 0 < m → op.key < s.key (s.next (a.preds 0) 0)

def After.At (levelmax : ℕ) (t : T) (S : Set (LockedSkipHeap T K V)) (s : LockedSkipHeap T K V)
    (op : Call K V) : After T → Prop
  | .restart q => q.At levelmax t S s op
  | .inserted => True
  | .removed n => Pub 0 S n

/-- What the caller has seen of a node with its key. -/
def Sight (W : Set (LockedSkipHeap T K V)) (s : LockedSkipHeap T K V) (k : K) (x : Ptr T) : Prop :=
  Met (LnkFrom 0) W x ∧ s.key x = k

/-- The assertion at each local state, for thread `t` in call `op`, in a run
through the memories `S` of which `W` since it last started to search. An answer
is right if no call has taken a node to be present too early (`shown`). -/
def At (levelmax : ℕ) (shown : Prop) (t : T) (S W : Set (LockedSkipHeap T K V))
    (s : LockedSkipHeap T K V) (op : Call K V) : Pc T V → Prop
  | .left => ∃ k, op = .search k
  | .leftNext pred i => (∃ k, op = .search k) ∧ Stand levelmax W s op.key i pred
  | .leftKey pred i curr => (∃ k, op = .search k) ∧ Stand levelmax W s op.key i pred ∧
      Seen i W op.key curr
  | .leftEq pred i curr => (∃ k, op = .search k) ∧ Stand levelmax W s op.key i pred ∧
      Seen i W op.key curr ∧ op.key ≤ s.key curr
  | .searchDeleted n => (∃ k, op = .search k) ∧ Sight W s op.key n
  | .searchVal n => (∃ k, op = .search k) ∧ Pub 0 S n ∧
      (shown → ∃ s₀ ∈ W, absMap s₀ op.key = some (s.val n))
  | .insertLevel => ∃ k v, op = .insert k v
  | .find q => q.At levelmax t S s op
  | .findTop q predv => q.At levelmax t S s op ∧ q.Linked W ∧ Since s .head predv
  | .findNext q pred predv i a found => q.At levelmax t S s op ∧ q.Linked W ∧
      Finds levelmax W S s op.key pred predv i a found
  | .findLock q pred predv i a found curr => q.At levelmax t S s op ∧ q.Linked W ∧
      Finds levelmax W S s op.key pred predv i a found ∧ Came W S s op.key i pred predv curr
  | .findKey q pred predv i a found curr currv => q.At levelmax t S s op ∧ q.Linked W ∧
      Finds levelmax W S s op.key pred predv i a found ∧ Came W S s op.key i pred predv curr ∧
      Since s curr currv
  | .findEq q pred predv i a found curr _ => q.At levelmax t S s op ∧ q.Linked W ∧
      Finds levelmax W S s op.key pred predv i a found ∧ Came W S s op.key i pred predv curr ∧
      a.preds i = pred ∧ a.predsv i = predv ∧ op.key ≤ s.key curr
  | .insertDeleted top n node => Caller.At levelmax t S s op (.insert top 0 n) ∧
      Sight W s op.key node
  | .insertFree _ => shown → ∃ s₀ ∈ W,
      (mapObject K V).apply op (absMap s₀) = (absMap s₀, .flag false)
  | .insertAlloc top upto a => upto = 0 ∧ 0 < top ∧ top ≤ levelmax ∧ (∃ k v, op = .insert k v) ∧
      a.At levelmax S s op.key True 0
  | .lock z a i prev => Locking levelmax t S s op z a i i ∧
      (prev = .null ∧ i = z.low ∨ z.low < i ∧ prev = a.preds (i - 1))
  | .lockCas z a i => Locking levelmax t S s op z a i i ∧ i < z.top ∧
      optikIsLocked (a.predsv i) = false
  | .insertNext top upto n a i => Locking levelmax t S s op (.insert top upto n) a i (i + 1) ∧
      i < top
  | .insertFill top upto n a i next => Locking levelmax t S s op (.insert top upto n) a i (i + 1) ∧
      i < top ∧ s.next (a.preds i) i = next
  | .insertLink top upto n a i => Locking levelmax t S s op (.insert top upto n) a i (i + 1) ∧
      i < top ∧ s.next n i = s.next (a.preds i) i
  | .insertState top upto n a => Locking levelmax t S s op (.insert top upto n) a top top
  | .removeDeleted a n _ => (∃ k, op = .remove k) ∧ a.At levelmax S s op.key False 0 ∧
      Sight W s op.key n
  | .removeState a n _ => (∃ k, op = .remove k) ∧ a.At levelmax S s op.key False 0 ∧
      Sight W s op.key n
  | .removeTry a n _ => (∃ k, op = .remove k) ∧ a.At levelmax S s op.key False 0 ∧
      Sight W s op.key n ∧ s.state n = true
  | .removeCas a n v => (∃ k, op = .remove k) ∧ a.At levelmax S s op.key False 0 ∧
      Sight W s op.key n ∧ s.state n = true ∧ optikIsLocked v = false
  | .removeFailed n => (∃ k, op = .remove k) ∧ Sight W s op.key n
  | .removeTop a n => (∃ k, op = .remove k) ∧ a.At levelmax S s op.key False 0 ∧
      Victim S s op.key n (s.toplevel n) 0
  | .removeNext a n top i => (∃ k, op = .remove k) ∧ i ≤ top ∧ top ≤ levelmax ∧
      a.At levelmax S s op.key False 0 ∧ a.Held levelmax s op.key (a.taken 0 top) ∧
      Victim S s op.key n top i
  | .removeStore a n top i next => (∃ k, op = .remove k) ∧ i < top ∧ top ≤ levelmax ∧
      a.At levelmax S s op.key False 0 ∧ a.Held levelmax s op.key (a.taken 0 top) ∧
      Victim S s op.key n top i ∧ s.next n i = next
  | .unlock a _ i old z => a.At levelmax S s op.key False 0 ∧ i ≤ levelmax ∧
      (old = .null ∨ old = a.preds i ∧ i < levelmax) ∧ z.At levelmax t S s op
  | .unlockStore a low i z ver => a.At levelmax S s op.key False 0 ∧ low ≤ i ∧ i < levelmax ∧
      z.At levelmax t S s op ∧ s.lock (a.preds i) = ver
  | .removeFree n => Pub 0 S n
  | .removeVal n => Pub 0 S n
  | .done _ => True
  | .unchanged r => shown → ∃ s₀ ∈ W, (mapObject K V).apply op (absMap s₀) = (absMap s₀, r)

/-! ### Stability -/

section stable

variable (w : Wf levelmax S s) (hW : W ⊆ S) (hk : Keeps t H X S s s')

include w hk

omit hW in
theorem key_of_pub (hx : Pub i S x) : s'.key x = s.key x := hk.key (w.pub_zero hx)

omit hk in
theorem since_step (w' : Wf levelmax (insert s' S) s') {v : OptikT} (h : Since s x v) :
    Since s' x v :=
  OptikView.Since.step h (Set.mem_insert_of_mem _ w.mem) w'.versioned

theorem Stand.step (hW : W ⊆ S) (h : Stand levelmax W s k i x) :
    Stand levelmax (insert s' W) s' k i x :=
  ⟨h.met.insert s', by rw [key_of_pub w hk (pub_of_met w hW h.met)]; exact h.lt, h.le⟩

theorem Came.step (hp : Pub i S pred) (hc : Pub i S curr) (h : Came W S s k i pred predv curr) :
    Came (insert s' W) (insert s' S) s' k i pred predv curr :=
  ⟨h.seen.insert s', h.version.insert s', by
    rw [key_of_pub w hk hp, key_of_pub w hk hc]
    exact h.lt⟩

theorem Preds.Spot.step (h : a.Spot S s k b i) : a.Spot (insert s' S) s' k b i := by
  obtain ⟨h1, h2, q, h3, h4, h5, h6⟩ := h
  refine ⟨h1.insert s', ?_, q, h3.insert s', h4.insert s', ?_, ?_⟩
  · rw [key_of_pub w hk h1]
    exact h2
  · rw [key_of_pub w hk h4]
    exact h5
  · rw [key_of_pub w hk h4]
    exact h6

theorem Preds.At.step (h : a.At levelmax S s k b i) : a.At levelmax (insert s' S) s' k b i := by
  refine ⟨fun j hij hj => (h.spot j hij hj).step w hk, fun j hij hj => ?_⟩
  rw [key_of_pub w hk (h.spot j hij (Nat.lt_of_succ_lt hj)).pub,
    key_of_pub w hk (h.spot (j + 1) (Nat.le_succ_of_le hij) hj).pub]
  exact h.chain j hij hj

theorem Sight.step (hW : W ⊆ S) (h : Sight W s k x) : Sight (insert s' W) s' k x :=
  ⟨h.1.insert s', (key_of_pub w hk (pub_of_met w hW h.1)).trans h.2⟩

theorem Finds.step (hW : W ⊆ S) (w' : Wf levelmax (insert s' S) s')
    (h : Finds levelmax W S s k pred predv i a found) :
    Finds levelmax (insert s' W) (insert s' S) s' k pred predv i a found := by
  refine ⟨h.stand.step w hk hW, since_step w w' h.since, h.preds.step w hk, fun hi => ?_,
    fun c v hf => Sight.step w hk hW (h.found c v hf)⟩
  rw [key_of_pub w hk (pub_of_met w hW h.stand.met),
    key_of_pub w hk (h.preds.spot (i + 1) le_rfl hi).pub]
  exact h.chain hi

omit w in
theorem Victim.step {h : ℕ} (hkept : i < h → ∀ j, Lnk j s n → Lnk j s' n)
    (hv : Victim S s k n h i) :
    Victim (insert s' S) s' k n h i :=
  ⟨hv.pub.insert s', (hk.key hv.pub).trans hv.key, hk.dels hv.deleted, (hk.top hv.pub).trans hv.top,
    hv.pos, fun j hij hj => hkept (hij.trans_lt hj) j (hv.lnk j hij hj),
    fun j hj hl => hv.gone j hj (hk.gone (hk.dels hv.deleted) hl)⟩

theorem Preds.Held.step {A : Set (Ptr T)} (ha : a.At levelmax S s k b 0)
    (hnext : ∀ x ∈ A, ∀ i, Pub i S x → s'.next x i = s.next x i) (h : a.Held levelmax s k A) :
    a.Held levelmax s' k A := by
  intro j hj hm
  have hs := ha.spot j j.zero_le hj
  rw [hnext _ hm j hs.pub, key_of_pub w hk (w.up hs.pub (w.ne_tail_of_lt hs.lt)).1]
  exact h j hj hm

omit w in
theorem NewNode.step {v : V} {h : ℕ} (hu : u ≠ t) (hn : NewNode levelmax u S s k v h i n) :
    NewNode levelmax u (insert s' S) s' k v h i n ∧ s'.next n i = s.next n i := by
  obtain ⟨c, rfl, hc⟩ := hn.node
  have hfields : s'.key (.node u c) = s.key (.node u c) ∧ s'.val (.node u c) = s.val (.node u c) ∧
      s'.toplevel (.node u c) = s.toplevel (.node u c) := by
    by_cases h0 : Pub 0 S (.node u c)
    · exact ⟨hk.key h0, hk.val h0, hk.top h0⟩
    · have hm := hk.others hu h0
      exact ⟨congrArg SlLocked.key hm, congrArg SlLocked.val hm, congrArg SlLocked.toplevel hm⟩
  obtain ⟨h1, h2, h3⟩ := hfields
  exact ⟨⟨⟨c, rfl, hc.trans_le (hk.count u)⟩, h1.trans hn.key, h2.trans hn.val, h3.trans hn.top,
    hn.le, hk.half hu hn.half, fun j hj => (hn.pub j hj).insert s',
    fun j hj => (hk.above hu (hn.free j hj)).2⟩, (hk.above hu (hn.free i le_rfl)).1⟩

end stable

/-- An insert that starts at level 0 holds the predecessor of level 0. -/
theorem Locking.fresh_low (h : Locking levelmax t S s op z a i m) (hf : z.Fresh) :
    z.low = 0 ∧ 0 < levelmax := by
  cases z with
  | insert top upto n =>
    obtain ⟨h1, -, -, h2, -⟩ := h.locker
    exact ⟨hf, (Nat.zero_le upto).trans_lt (h1.trans_le h2)⟩
  | remove => exact hf.elim

theorem Locking.step (w : Wf levelmax S s) (hk : Keeps t H X S s s')
    (hnext : ∀ x ∈ a.taken z.low m, ∀ i, Pub i S x → s'.next x i = s.next x i)
    (hvic : ∀ x ∈ z.victims, ∀ j, Lnk j s x → Lnk j s' x)
    (hnew : ∀ {k v h i n}, NewNode levelmax u S s k v h i n →
      NewNode levelmax u (insert s' S) s' k v h i n)
    (h : Locking levelmax u S s op z a i m) : Locking levelmax u (insert s' S) s' op z a i m := by
  refine ⟨?_, h.preds.step w hk, h.held.step w hk h.preds hnext, fun hf hi hm => ?_⟩
  · have hat := h.locker
    cases z with
    | insert top upto n =>
      obtain ⟨h1, h2, h3, h4, k, v, h5, h6⟩ := hat
      exact ⟨h1, h2, h3, h4, k, v, h5, hnew h6⟩
    | remove n top => exact ⟨hat.1, hat.2.1, hat.2.2.1, hat.2.2.2.step hk fun _ => hvic n rfl⟩
  · obtain ⟨h1, h2⟩ := h.fresh_low hf
    have hs0 := h.preds.spot 0 le_rfl h2
    rw [hnext _ ⟨0, h1.le, hm, rfl⟩ 0 hs0.pub,
      key_of_pub w hk (w.up hs0.pub (w.ne_tail_of_lt hs0.lt)).1]
    exact h.first hf hi hm

/-- An assertion stays true in a step that leaves alone the pointers of the nodes
whose locks the call holds, its victim, and the node that it inserts. -/
theorem At.transfer {l : Pc T V} (w : Wf levelmax S s) (w' : Wf levelmax (insert s' S) s')
    (hs : s ∈ W) (hW : W ⊆ S) (hk : Keeps t H X S s s')
    (hnext : ∀ x ∈ holds l, ∀ i, Pub i S x → s'.next x i = s.next x i)
    (hver : ∀ a low i z ver, l = .unlockStore a low i z ver →
      s'.lock (a.preds i) = s.lock (a.preds i))
    (hvic : ∀ x ∈ victims l, ∀ j, Lnk j s x → Lnk j s' x)
    (hnew : ∀ {k v h i n}, NewNode levelmax u S s k v h i n →
      NewNode levelmax u (insert s' S) s' k v h i n ∧ s'.next n i = s.next n i)
    (h : At levelmax shown u S W s op l) :
    At levelmax shown u (insert s' S) (insert s' W) s' op l := by
  have hcaller : ∀ {q : Caller T}, q.victims ⊆ victims l → q.At levelmax u S s op →
      q.At levelmax u (insert s' S) s' op := by
    intro q hq hat
    cases q with
    | insert top upto n =>
      obtain ⟨h1, h2, k, v, h3, h4⟩ := hat
      exact ⟨h1, h2, k, v, h3, h4.imp_right fun h => (hnew h).1⟩
    | remove => exact hat
    | removing n =>
      refine ⟨hat.1, ?_⟩
      rw [hk.top hat.2.pub]
      exact hat.2.step hk fun _ => hvic n (hq rfl)
  have hlinked : ∀ {q : Caller T}, q.victims ⊆ victims l → q.Linked W → q.Linked (insert s' W) := by
    intro q hq hl n hn s₀ h0
    subst hn
    rcases Set.mem_insert_iff.mp h0 with rfl | h0
    · exact hvic n (hq rfl) 0 (hl n rfl s hs)
    · exact hl n rfl s₀ h0
  have hafter : ∀ {z : After T}, z.victims ⊆ victims l → z.At levelmax u S s op →
      z.At levelmax u (insert s' S) s' op := by
    intro z hz hat
    cases z with
    | restart q => exact hcaller hz hat
    | inserted => trivial
    | removed n => exact hat.insert s'
  have hlocking : ∀ {z : Locker T} {a : Preds T} {i m}, z.victims ⊆ victims l →
      a.taken z.low m ⊆ holds l → Locking levelmax u S s op z a i m →
      Locking levelmax u (insert s' S) s' op z a i m := fun hz hsub hat =>
    hat.step w hk (fun x hx => hnext x (hsub hx)) (fun x hx => hvic x (hz hx)) fun h => (hnew h).1
  have hfinds : ∀ {pred predv i a found}, Finds levelmax W S s op.key pred predv i a found →
      Finds levelmax (insert s' W) (insert s' S) s' op.key pred predv i a found :=
    fun h => h.step w hk hW w'
  have hcame : ∀ {pred predv i a found curr}, Finds levelmax W S s op.key pred predv i a found →
      Came W S s op.key i pred predv curr →
      Came (insert s' W) (insert s' S) s' op.key i pred predv curr := fun hf hc =>
    hc.step w hk (pub_of_met w hW hf.stand.met) ((hc.seen.met w hW).mono hW)
  have hseen : ∀ {i curr}, Seen i W op.key curr → op.key ≤ s.key curr → op.key ≤ s'.key curr :=
    fun h hle => by rwa [key_of_pub w hk ((h.met w hW).mono hW)]
  cases l
  case left => exact h
  case leftNext pred i => exact ⟨h.1, h.2.step w hk hW⟩
  case leftKey pred i curr => exact ⟨h.1, h.2.1.step w hk hW, h.2.2.insert s'⟩
  case leftEq pred i curr =>
    exact ⟨h.1, h.2.1.step w hk hW, h.2.2.1.insert s', hseen h.2.2.1 h.2.2.2⟩
  case searchDeleted n => exact ⟨h.1, h.2.step w hk hW⟩
  case searchVal n =>
    refine ⟨h.1, h.2.1.insert s', fun hsh => ?_⟩
    obtain ⟨s₀, h0, h1⟩ := h.2.2 hsh
    exact ⟨s₀, Set.mem_insert_of_mem _ h0, by rw [hk.val h.2.1]; exact h1⟩
  case insertLevel => exact h
  case find q => exact hcaller le_rfl h
  case findTop q predv => exact ⟨hcaller le_rfl h.1, hlinked le_rfl h.2.1, since_step w w' h.2.2⟩
  case findNext q pred predv i a found =>
    exact ⟨hcaller le_rfl h.1, hlinked le_rfl h.2.1, hfinds h.2.2⟩
  case findLock q pred predv i a found curr =>
    obtain ⟨h1, h2, h3, h4⟩ := h
    exact ⟨hcaller le_rfl h1, hlinked le_rfl h2, hfinds h3, hcame h3 h4⟩
  case findKey q pred predv i a found curr currv =>
    obtain ⟨h1, h2, h3, h4, h5⟩ := h
    exact ⟨hcaller le_rfl h1, hlinked le_rfl h2, hfinds h3, hcame h3 h4, since_step w w' h5⟩
  case findEq q pred predv i a found curr currv =>
    obtain ⟨h1, h2, h3, h4, h5, h6, h7⟩ := h
    exact ⟨hcaller le_rfl h1, hlinked le_rfl h2, hfinds h3, hcame h3 h4, h5, h6, hseen h4.seen h7⟩
  case insertDeleted top n node =>
    exact ⟨hcaller (q := .insert top 0 n) (Set.empty_subset _) h.1, h.2.step w hk hW⟩
  case insertFree n =>
    intro hsh
    obtain ⟨s₀, h0, h1⟩ := h hsh
    exact ⟨s₀, Set.mem_insert_of_mem _ h0, h1⟩
  case insertAlloc top upto a =>
    obtain ⟨h1, h2, h3, h4, h5⟩ := h
    exact ⟨h1, h2, h3, h4, h5.step w hk⟩
  case lock z a i prev => exact ⟨hlocking le_rfl le_rfl h.1, h.2⟩
  case lockCas z a i => exact ⟨hlocking le_rfl le_rfl h.1, h.2⟩
  case insertNext top upto n a i => exact ⟨hlocking (Set.empty_subset _) le_rfl h.1, h.2⟩
  case insertFill top upto n a i next =>
    obtain ⟨h1, h2, h3⟩ := h
    have hlt : i < levelmax := h2.trans_le h1.locker.2.2.2.1
    refine ⟨hlocking (Set.empty_subset _) le_rfl h1, h2, ?_⟩
    rw [hnext _ ⟨i, h1.locker.2.1, i.lt_succ_self, rfl⟩ i (h1.preds.spot i i.zero_le hlt).pub]
    exact h3
  case insertLink top upto n a i =>
    obtain ⟨h1, h2, h3⟩ := h
    have hlt : i < levelmax := h2.trans_le h1.locker.2.2.2.1
    refine ⟨hlocking (Set.empty_subset _) le_rfl h1, h2, ?_⟩
    obtain ⟨-, -, -, -, k, v, -, h4⟩ := h1.locker
    rw [hnext _ ⟨i, h1.locker.2.1, i.lt_succ_self, rfl⟩ i (h1.preds.spot i i.zero_le hlt).pub,
      (hnew h4).2]
    exact h3
  case insertState top upto n a => exact hlocking (Set.empty_subset _) le_rfl h
  case removeDeleted a n v => exact ⟨h.1, h.2.1.step w hk, h.2.2.step w hk hW⟩
  case removeState a n v => exact ⟨h.1, h.2.1.step w hk, h.2.2.step w hk hW⟩
  case removeTry a n v =>
    obtain ⟨h1, h2, h3, h4⟩ := h
    exact ⟨h1, h2.step w hk, h3.step w hk hW, hk.states (pub_of_met w hW h3.1) h4⟩
  case removeCas a n v =>
    obtain ⟨h1, h2, h3, h4, h5⟩ := h
    exact ⟨h1, h2.step w hk, h3.step w hk hW, hk.states (pub_of_met w hW h3.1) h4, h5⟩
  case removeFailed n => exact ⟨h.1, h.2.step w hk hW⟩
  case removeTop a n =>
    obtain ⟨h1, h2, h3⟩ := h
    refine ⟨h1, h2.step w hk, ?_⟩
    rw [hk.top h3.pub]
    exact h3.step hk fun _ => hvic n rfl
  case removeNext a n top i =>
    obtain ⟨h1, h2, h3, h4, h5, h6⟩ := h
    refine ⟨h1, h2, h3, h4.step w hk, h5.step w hk h4 hnext, h6.step hk fun hi => hvic n ?_⟩
    rw [victims, if_pos hi]
    rfl
  case removeStore a n top i next =>
    obtain ⟨h1, h2, h3, h4, h5, h6, h7⟩ := h
    refine ⟨h1, h2, h3, h4.step w hk, h5.step w hk h4 hnext, h6.step hk fun _ => hvic n rfl, ?_⟩
    rw [hk.still h6.deleted (w.pub_lnk (h6.lnk i le_rfl h2))]
    exact h7
  case unlock a low i old z => exact ⟨h.1.step w hk, h.2.1, h.2.2.1, hafter le_rfl h.2.2.2⟩
  case unlockStore a low i z ver =>
    obtain ⟨h1, h2, h3, h4, h5⟩ := h
    exact ⟨h1.step w hk, h2, h3, hafter le_rfl h4, (hver a low i z ver rfl).trans h5⟩
  case removeFree n => exact h.insert s'
  case removeVal n => exact h.insert s'
  case done => trivial
  case unchanged r =>
    intro hsh
    obtain ⟨s₀, h0, h1⟩ := h hsh
    exact ⟨s₀, Set.mem_insert_of_mem _ h0, h1⟩

end SkiplistOptik

end Ascylib
