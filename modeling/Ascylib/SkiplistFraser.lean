/-
# Fraser's skip list

`src/algorithms/skiplist_fraser.h`, one local state for each access to shared
memory. Every call begins with `fraser_search`, which unlinks the marked nodes
it meets at every level and starts again when it finds that its left node has
been marked, or that its CAS fails.

A call takes effect where it links its node at level 0, or counts the node's
`deleted` up from 0. What else a call answers was so at some moment of it: at
level 0 the search has seen two neighbours with the key between them, and the
node it found was deleted before, or was not.

`insert` rewrites `succ` when the successor at an upper level holds its own
key: `succ->next` is the address of an array inside the node, so the CAS that
follows expects a value that no pointer holds, and fails (`linkInside`).
-/
import Ascylib.FraserHeap

set_option linter.unusedSectionVars false

namespace Ascylib

open Concur Chain

namespace SkiplistFraser

variable {T K V : Type*} [DecidableEq T] [LinearOrder K]

/-- The arrays a search fills: `preds` and `succs`. -/
structure Lists (T : Type*) where
  preds : ℕ → Ptr T
  succs : ℕ → Ptr T

/-- The arrays before anything is written to them. -/
def noLists : Lists T := ⟨fun _ => .null, fun _ => .null⟩

/-- Who called `fraser_search`, with the caller's live variables. -/
inductive Caller (T V : Type*) where
  | search
  | insert (newNode : Ptr T)
  /-- `insert`, while it links `new_node` at level `i` -/
  | link (newNode : Ptr T) (i : ℕ)
  | remove
  /-- `remove`, after it has freed its node -/
  | removed (result : V)

/-- `if (left_list != NULL) left_list[i] = left; ...`: only `insert` passes
`preds`, and the last search of `remove` passes neither array. -/
def Lists.record (a : Lists T) (c : Caller T V) (i : ℕ) (left right : Ptr T) : Lists T :=
  match c with
  | .insert _ | .link _ _ => ⟨Function.update a.preds i left, Function.update a.succs i right⟩
  | .search | .remove => ⟨a.preds, Function.update a.succs i right⟩
  | .removed _ => a

/-- Who called `mark_node_ptrs`. -/
inductive Marker (T : Type*) where
  /-- `insert`, which then looks for its place again -/
  | insert (newNode : Ptr T)
  | remove

/-- Where a call is, with the local variables that are live there. -/
inductive Pc (T V : Type*) where
  /-- `fraser_search`: `left_next = left->next[i]`, `is_marked(left_next)` -/
  | fraser (c : Caller T V) (left : Ptr T) (i : ℕ) (lists : Lists T)
  /-- `right_next = right->next[i]`, `is_marked(right_next)` -/
  | fraserNext (c : Caller T V) (left leftNext right : Ptr T) (i : ℕ) (lists : Lists T)
  /-- `right->key >= key` -/
  | fraserKey (c : Caller T V) (left leftNext right rightNext : Ptr T) (i : ℕ) (lists : Lists T)
  /-- `ATOMIC_CAS_MB(&left->next[i], left_next, right)` -/
  | fraserCas (c : Caller T V) (left leftNext right : Ptr T) (i : ℕ) (lists : Lists T)
  /-- `fraser_search` returns -/
  | fraserRet (c : Caller T V) (lists : Lists T)
  /-- `search`: `succs[0]->key == key` -/
  | searchKey (node : Ptr T)
  /-- `!succs[0]->deleted` -/
  | searchDeleted (node : Ptr T)
  /-- `result = succs[0]->val` -/
  | searchVal (node : Ptr T)
  /-- `new_node = allocate_sl_simple_unlinked(key, val, .., get_rand_level(), 0)` -/
  | insertAlloc
  /-- `succs[0]->key == key` -/
  | insertKey (newNode : Ptr T) (lists : Lists T)
  /-- `if (succs[0]->deleted)` -/
  | insertDeleted (newNode : Ptr T) (lists : Lists T)
  /-- `sl_simple_delete(new_node)` -/
  | insertFree (newNode : Ptr T)
  /-- `i < new_node->toplevel`, `new_node->next[i] = succs[i]`: the node is
  still the thread's own -/
  | insertFill (newNode : Ptr T) (i : ℕ) (lists : Lists T)
  /-- `ATOMIC_CAS_MB(&preds[0]->next[0], succs[0], new_node)` -/
  | insertCas (newNode : Ptr T) (lists : Lists T)
  /-- `i < new_node->toplevel` -/
  | linkTop (newNode : Ptr T) (i : ℕ) (lists : Lists T)
  /-- `new_next = new_node->next[i]`, `is_marked(new_next)`, `new_next != succ` -/
  | linkNext (newNode : Ptr T) (i : ℕ) (lists : Lists T)
  /-- `ATOMIC_CAS_MB(&new_node->next[i], unset_mark(new_next), succ)` -/
  | linkSwing (newNode newNext : Ptr T) (i : ℕ) (lists : Lists T)
  /-- `succ->key == key` -/
  | linkKey (newNode : Ptr T) (i : ℕ) (lists : Lists T)
  /-- `ATOMIC_CAS_MB(&pred->next[i], succ, new_node)` -/
  | linkCas (newNode : Ptr T) (i : ℕ) (lists : Lists T)
  /-- the same with `succ = unset_mark(succ->next)` -/
  | linkInside (newNode : Ptr T) (i : ℕ) (lists : Lists T)
  /-- `mark_node_ptrs`: `i = node->toplevel - 1` -/
  | markTop (m : Marker T) (node : Ptr T)
  /-- `node_next = node->next[i]`, `is_marked(node_next)` -/
  | markNext (m : Marker T) (node : Ptr T) (i : ℕ)
  /-- `ATOMIC_CAS_MB(&node->next[i], node_next, set_mark(node_next))` -/
  | markCas (m : Marker T) (node nodeNext : Ptr T) (i : ℕ)
  /-- `remove`: `succs[0]->key != key` -/
  | removeKey (node : Ptr T)
  /-- `if (succs[0]->deleted)` -/
  | removeDeleted (node : Ptr T)
  /-- `ATOMIC_FETCH_AND_INC_FULL(&succs[0]->deleted) == 0` -/
  | removeInc (node : Ptr T)
  /-- `result = succs[0]->val` -/
  | removeVal (node : Ptr T)
  /-- `ssmem_free(alloc, succs[0])` -/
  | removeFree (node : Ptr T) (result : V)
  /-- `return r` from a call that took effect -/
  | done (r : Answer V)
  /-- `return r` from a call that changed nothing -/
  | unchanged (r : Answer V)

variable [Zero V] (levelmax : ℕ)

/-- `fraser_search` begins, or begins again. -/
def begin (c : Caller T V) (lists : Lists T) : Pc T V := .fraser c .head (levelmax - 1) lists

def start : Call K V → Pc T V
  | .search _ => begin levelmax .search noLists
  | .insert _ _ => .insertAlloc
  | .remove _ => begin levelmax .remove noLists

/-- The search is done with level `i`. -/
def fraserLevel (c : Caller T V) (left right : Ptr T) (i : ℕ) (lists : Lists T) : Pc T V :=
  match i with
  | 0 => .fraserRet c (lists.record c 0 left right)
  | j + 1 => .fraser c left j (lists.record c (j + 1) left right)

/-- What the caller of `fraser_search` does next. -/
def fraserRet (lists : Lists T) : Caller T V → Pc T V
  | .search => .searchKey (lists.succs 0)
  | .insert newNode => .insertKey newNode lists
  | .link newNode i => .linkNext newNode i lists
  | .remove => .removeKey (lists.succs 0)
  | .removed result => .done (.val result)

/-- `mark_node_ptrs` is done with level `i`. -/
def markLevel (m : Marker T) (node : Ptr T) (i : ℕ) : Pc T V :=
  match i with
  | 0 =>
    match m with
    | .insert newNode => begin levelmax (.insert newNode) noLists
    | .remove => .removeVal node
  | i + 1 => .markNext m node i

/-- The next access to shared memory of thread `t`, and what follows from it.
A new node draws `level` levels. -/
def step (level : ℕ) (t : T) (s : FraserHeap T K V) (op : Call K V) :
    Pc T V → FraserHeap T K V × Pc T V
  | .fraser c left i lists =>
    (s, if isMarked (s.heap.next left i) then begin levelmax c lists
      else .fraserNext c left (s.heap.next left i).ptr (s.heap.next left i).ptr i lists)
  | .fraserNext c left leftNext right i lists =>
    (s, if isMarked (s.heap.next right i) then
        .fraserNext c left leftNext (unsetMark (s.heap.next right i)).ptr i lists
      else .fraserKey c left leftNext right (s.heap.next right i).ptr i lists)
  | .fraserKey c left leftNext right rightNext i lists =>
    (s, if op.key ≤ s.heap.key right then
        if leftNext ≠ right then .fraserCas c left leftNext right i lists
        else fraserLevel c left right i lists
      else .fraserNext c right rightNext rightNext i lists)
  | .fraserCas c left leftNext right i lists =>
    match s.cas left i leftNext.ref right.ref with
    | (true, s') => (s', fraserLevel c left right i lists)
    | (false, s') => (s', begin levelmax c lists)
  | .fraserRet c lists => (s, fraserRet lists c)
  | .searchKey node =>
    (s, if s.heap.key node = op.key then .searchDeleted node else .unchanged (.val 0))
  | .searchDeleted node => (s, if s.deleted node = 0 then .searchVal node else .unchanged (.val 0))
  | .searchVal node => (s, .unchanged (.val (s.heap.val node)))
  | .insertAlloc =>
    match op with
    | .insert key val =>
      let (s', newNode) := s.allocate t key val level
      (s', begin levelmax (.insert newNode) noLists)
    | _ => (s, .insertAlloc)
  | .insertKey newNode lists =>
    (s, if s.heap.key (lists.succs 0) = op.key then .insertDeleted newNode lists
      else .insertFill newNode 0 lists)
  | .insertDeleted newNode lists =>
    (s, if s.deleted (lists.succs 0) ≠ 0 then .markTop (.insert newNode) (lists.succs 0)
      else .insertFree newNode)
  | .insertFree newNode => (s.ssmemFree newNode, .unchanged (.flag false))
  | .insertFill newNode i lists =>
    if i < s.heap.toplevel newNode then
      (s.setNext newNode i (lists.succs i).ref, .insertFill newNode (i + 1) lists)
    else (s, .insertCas newNode lists)
  | .insertCas newNode lists =>
    match s.cas (lists.preds 0) 0 (lists.succs 0).ref newNode.ref with
    | (true, s') => (s', .linkTop newNode 1 lists)
    | (false, s') => (s', begin levelmax (.insert newNode) lists)
  | .linkTop newNode i lists =>
    (s, if i < s.heap.toplevel newNode then .linkNext newNode i lists else .done (.flag true))
  | .linkNext newNode i lists =>
    (s, if isMarked (s.heap.next newNode i) then .done (.flag true)
      else if (s.heap.next newNode i).ptr ≠ lists.succs i then
        .linkSwing newNode (s.heap.next newNode i).ptr i lists
      else .linkKey newNode i lists)
  | .linkSwing newNode newNext i lists =>
    match s.cas newNode i newNext.ref (lists.succs i).ref with
    | (true, s') => (s', .linkKey newNode i lists)
    | (false, s') => (s', .linkTop newNode (i + 1) lists)
  | .linkKey newNode i lists =>
    (s, if s.heap.key (lists.succs i) = op.key then .linkInside newNode i lists
      else .linkCas newNode i lists)
  | .linkCas newNode i lists =>
    match s.cas (lists.preds i) i (lists.succs i).ref newNode.ref with
    | (true, s') => (s', .linkTop newNode (i + 1) lists)
    | (false, s') => (s', begin levelmax (.link newNode i) lists)
  | .linkInside newNode i lists => (s, begin levelmax (.link newNode i) lists)
  | .markTop m node =>
    (s, match s.heap.toplevel node with
      | 0 => markLevel levelmax m node 0
      | i + 1 => .markNext m node i)
  | .markNext m node i =>
    (s, if isMarked (s.heap.next node i) then markLevel levelmax m node i
      else .markCas m node (s.heap.next node i).ptr i)
  | .markCas m node nodeNext i =>
    match s.cas node i nodeNext.ref (setMark nodeNext.ref) with
    | (true, s') => (s', markLevel levelmax m node i)
    | (false, s') => (s', .markNext m node i)
  | .removeKey node =>
    (s, if s.heap.key node ≠ op.key then .unchanged (.val 0) else .removeDeleted node)
  | .removeDeleted node => (s, if s.deleted node ≠ 0 then .unchanged (.val 0) else .removeInc node)
  | .removeInc node =>
    match s.fetchAndInc node with
    | (0, s') => (s', .markTop .remove node)
    | (_ + 1, s') => (s', .unchanged (.val 0))
  | .removeVal node => (s, .removeFree node (s.heap.val node))
  | .removeFree node result => (s.ssmemFree node, begin levelmax (.removed result) noLists)
  | .done r => (s, .done r)
  | .unchanged r => (s, .unchanged r)

def result : Pc T V → Option (Answer V)
  | .done r => some r
  | .unchanged r => some r
  | _ => none

/-- The skip list, for clients that keep to keys strictly between the
sentinels' and to values other than 0. A step draws a level from 1 to
`levelmax`. -/
def program (T K V : Type*) [DecidableEq T] [LinearOrder K] [BoundedOrder K] [Zero V]
    (levelmax : ℕ) :
    Program T (Call K V) (Answer V) (FraserHeap T K V) (Pc T V) (Fin levelmax) where
  init := FraserHeap.empty levelmax
  pre := Client
  start := start levelmax
  step i t s op l := some (step levelmax (i + 1) t s op l)
  result := result

/-! ### What holds at each point of a call -/

open FraserHeap
open SkipHeap (LnkAt PubAt Leveled Write Stays Doomed MarkedTo)

variable [BoundedOrder K] {late : Prop} {t u : T} {S W : Set (FraserHeap T K V)} {s s' : FraserHeap T K V}
  {op : Call K V} {levelmax}

/-- A node of level `i` to the left of the key. -/
def Left (S : Set (FraserHeap T K V)) (s : FraserHeap T K V) (k : K) (i : ℕ) (x : Ptr T) : Prop :=
  Pub i S x ∧ s.heap.key x < k

/-- From level `i` up the arrays hold nodes to the left and to the right. -/
def Lists.At (levelmax : ℕ) (S : Set (FraserHeap T K V)) (s : FraserHeap T K V) (k : K) (i : ℕ)
    (a : Lists T) : Prop :=
  ∀ j, i ≤ j → j < levelmax →
    Left S s k j (a.preds j) ∧ Pub j S (a.succs j) ∧ k ≤ s.heap.key (a.succs j)

/-- At some moment of the window the node was the first one at level 0 that
is not to the left of the key. -/
def Found (W : Set (FraserHeap T K V)) (s : FraserHeap T K V) (k : K) (x : Ptr T) : Prop :=
  ∃ p, Edge W 0 p x ∧ s.heap.key p < k ∧ k ≤ s.heap.key x

/-- A node of thread `t` that is not linked yet. -/
structure Private (t : T) (S : Set (FraserHeap T K V)) (s : FraserHeap T K V) (k : K) (v : V)
    (toplevel : ℕ) (x : Ptr T) : Prop where
  not_pub : ¬ Pub 0 S x
  node : ∃ m, x = .node t m ∧ m < s.heap.count t
  key : s.heap.key x = k
  val : s.heap.val x = v
  top : s.heap.toplevel x = toplevel
  deleted : s.deleted x = 0

/-- The node of an insert that has not taken effect. -/
def New (levelmax : ℕ) (t : T) (S : Set (FraserHeap T K V)) (s : FraserHeap T K V) (op : Call K V)
    (x : Ptr T) : Prop :=
  ∃ k v h, op = .insert k v ∧ 0 < h ∧ h ≤ levelmax ∧ Private t S s k v h x

/-- The node of an insert that took effect, not linked from level `i` up. -/
structure Inserted (levelmax : ℕ) (t : T) (S : Set (FraserHeap T K V)) (s : FraserHeap T K V)
    (op : Call K V) (i : ℕ) (x : Ptr T) : Prop where
  call : ∃ k v, op = .insert k v
  node : ∃ m, x = .node t m ∧ m < s.heap.count t
  pub : Pub 0 S x
  key : s.heap.key x = op.key
  top : s.heap.toplevel x ≤ levelmax
  pos : i ≠ 0
  le : i ≤ s.heap.toplevel x
  out : ∀ j, i ≤ j → ¬ Pub j S x
  below : (∀ j < i, Pub j S x) ∨ ∀ j, i ≤ j → j < s.heap.toplevel x → s.heap.Marked x j

/-- And linked at all levels below. -/
def Linking (levelmax : ℕ) (t : T) (S : Set (FraserHeap T K V)) (s : FraserHeap T K V)
    (op : Call K V) (i : ℕ) (x : Ptr T) : Prop :=
  Inserted levelmax t S s op i x ∧ i < s.heap.toplevel x ∧ ∀ j < i, Pub j S x

/-- A deleted node of the key. -/
def Dead (S : Set (FraserHeap T K V)) (s : FraserHeap T K V) (op : Call K V) (x : Ptr T) : Prop :=
  Pub 0 S x ∧ s.heap.key x = op.key ∧ s.deleted x ≠ 0

/-- A node of the key, of the window. -/
def Hit (W : Set (FraserHeap T K V)) (s : FraserHeap T K V) (op : Call K V) (x : Ptr T) : Prop :=
  Pub 0 W x ∧ s.heap.key x = op.key

def Caller.At (levelmax : ℕ) (t : T) (S : Set (FraserHeap T K V)) (s : FraserHeap T K V)
    (op : Call K V) : Caller T V → Prop
  | .search => ∃ k, op = .search k
  | .insert newNode => New levelmax t S s op newNode
  | .link newNode i => Linking levelmax t S s op i newNode
  | .remove => ∃ k, op = .remove k
  | .removed _ => ∃ k, op = .remove k

/-- The arrays of a search that is done with the levels from `i` up. -/
def Caller.Fills (levelmax : ℕ) (S : Set (FraserHeap T K V)) (s : FraserHeap T K V) (k : K) (i : ℕ)
    (a : Lists T) : Caller T V → Prop
  | .insert _ => a.At levelmax S s k i
  | .link _ _ => a.At levelmax S s k 0
  | _ => True

/-- What a search has found at level 0. -/
def Caller.Finds (W : Set (FraserHeap T K V)) (s : FraserHeap T K V) (k : K) (a : Lists T) :
    Caller T V → Prop
  | .removed _ => True
  | _ => Found W s k (a.succs 0)

def Marker.At (levelmax : ℕ) (t : T) (S : Set (FraserHeap T K V)) (s : FraserHeap T K V)
    (op : Call K V) : Marker T → Prop
  | .insert newNode => New levelmax t S s op newNode
  | .remove => ∃ k, op = .remove k

/-- The assertion at each local state, for thread `t` in call `op`, in a run
through the memories `S` of which `W` since the call. -/
def At (levelmax : ℕ) (t : T) (S W : Set (FraserHeap T K V)) (s : FraserHeap T K V) (op : Call K V) :
    Pc T V → Prop
  | .fraser c left i lists => c.At levelmax t S s op ∧ Left S s op.key i left ∧
      c.Fills levelmax S s op.key (i + 1) lists
  | .fraserNext c left leftNext right i lists => c.At levelmax t S s op ∧ Left S s op.key i left ∧
      Pub i S leftNext ∧ Pub i S right ∧ MarkedTo i s.heap leftNext right ∧ Edge W i left leftNext ∧
      c.Fills levelmax S s op.key (i + 1) lists
  | .fraserKey c left leftNext right rightNext i lists => c.At levelmax t S s op ∧
      Left S s op.key i left ∧ Pub i S leftNext ∧ Pub i S right ∧
      MarkedTo i s.heap leftNext right ∧ Edge W i left leftNext ∧
      (right ≠ .tail → Pub i S rightNext) ∧ Edge W i right rightNext ∧
      c.Fills levelmax S s op.key (i + 1) lists
  | .fraserCas c left leftNext right i lists => c.At levelmax t S s op ∧ Left S s op.key i left ∧
      Pub i S leftNext ∧ Pub i S right ∧ MarkedTo i s.heap leftNext right ∧
      op.key ≤ s.heap.key right ∧ c.Fills levelmax S s op.key (i + 1) lists
  | .fraserRet c lists => c.At levelmax t S s op ∧ c.Fills levelmax S s op.key 0 lists ∧
      c.Finds W s op.key lists
  | .searchKey node => (∃ k, op = .search k) ∧ Found W s op.key node
  | .searchDeleted node => (∃ k, op = .search k) ∧ Hit W s op node
  | .searchVal node => (∃ k, op = .search k) ∧ Pub 0 S node ∧ SomeSeen W op.key (s.heap.val node)
  | .insertAlloc => ∃ k v, op = .insert k v
  | .insertKey newNode lists => New levelmax t S s op newNode ∧ lists.At levelmax S s op.key 0 ∧
      Found W s op.key (lists.succs 0)
  | .insertDeleted newNode lists => New levelmax t S s op newNode ∧ Hit W s op (lists.succs 0)
  | .insertFree _ => ∃ k v w, op = .insert k v ∧ SomeSeen W k w
  | .insertFill newNode i lists => ∃ k v h, op = .insert k v ∧ i ≤ h ∧ 0 < h ∧ h ≤ levelmax ∧
      Private t S s k v h newNode ∧ (∀ j < i, s.heap.next newNode j = (lists.succs j).ref) ∧
      lists.At levelmax S s k 0 ∧ k < s.heap.key (lists.succs 0)
  | .insertCas newNode lists => ∃ k v h, op = .insert k v ∧ 0 < h ∧ h ≤ levelmax ∧
      Private t S s k v h newNode ∧ (∀ j < h, s.heap.next newNode j = (lists.succs j).ref) ∧
      lists.At levelmax S s k 0 ∧ k < s.heap.key (lists.succs 0)
  | .linkTop newNode i lists => Inserted levelmax t S s op i newNode ∧
      lists.At levelmax S s op.key 0
  | .linkNext newNode i lists => Inserted levelmax t S s op i newNode ∧
      i < s.heap.toplevel newNode ∧ lists.At levelmax S s op.key 0
  | .linkSwing newNode newNext i lists => Linking levelmax t S s op i newNode ∧
      lists.At levelmax S s op.key 0 ∧ (s.heap.next newNode i).ptr = newNext
  | .linkKey newNode i lists => Linking levelmax t S s op i newNode ∧
      lists.At levelmax S s op.key 0 ∧ (s.heap.next newNode i).ptr = lists.succs i
  | .linkCas newNode i lists => Linking levelmax t S s op i newNode ∧
      lists.At levelmax S s op.key 0 ∧ (s.heap.next newNode i).ptr = lists.succs i ∧
      s.heap.key (lists.succs i) ≠ op.key
  | .linkInside newNode i lists => Linking levelmax t S s op i newNode ∧
      lists.At levelmax S s op.key 0
  | .markTop m node => m.At levelmax t S s op ∧ Dead S s op node
  | .markNext m node i => m.At levelmax t S s op ∧ Dead S s op node ∧ i < s.heap.toplevel node ∧
      ∀ j, i < j → j < s.heap.toplevel node → s.heap.Marked node j
  | .markCas m node _ i => m.At levelmax t S s op ∧ Dead S s op node ∧ i < s.heap.toplevel node ∧
      ∀ j, i < j → j < s.heap.toplevel node → s.heap.Marked node j
  | .removeKey node => (∃ k, op = .remove k) ∧ Found W s op.key node
  | .removeDeleted node => (∃ k, op = .remove k) ∧ Hit W s op node
  | .removeInc node => (∃ k, op = .remove k) ∧ Hit W s op node
  | .removeVal node => (∃ k, op = .remove k) ∧ Doomed (heaps S) s.heap node ∧
      s.heap.key node = op.key
  | .removeFree node _ => (∃ k, op = .remove k) ∧ Doomed (heaps S) s.heap node ∧
      s.heap.key node = op.key
  | .done _ => True
  | .unchanged r => ∃ s₀ ∈ W, (mapObject K V).apply op (absMap s₀) = (absMap s₀, r)

section stable

variable (a : Act late t S s s') (w : Wf S s)

theorem Found.step {x : Ptr T} {k : K} (h : Found W s k x) (hW : W ⊆ S) (a : Act late t S s s')
    (w : Wf S s) : Found (insert s' W) s' k x := by
  obtain ⟨p, h1, h2, h3⟩ := h
  have hpt := w.leveled.ne_tail_of_lt h2
  obtain ⟨hp, hx⟩ := h1.lnk w hW hpt
  refine ⟨p, h1.insert s', ?_, ?_⟩
  · rwa [(a.stays w).key p (hp.mono hW)]
  · rwa [(a.stays w).key x (hx.mono hW)]

include a w

theorem Left.step {k : K} {i : ℕ} {x : Ptr T} (h : Left S s k i x) :
    Left (insert s' S) s' k i x :=
  ⟨h.1.insert s', by rw [(a.stays w).key x (w.leveled.pub_zero h.1)]; exact h.2⟩

theorem Lists.At.step {k : K} {i : ℕ} {x : Lists T} (h : x.At levelmax S s k i) :
    x.At levelmax (insert s' S) s' k i := by
  intro j hij hj
  obtain ⟨h1, h2, h3⟩ := h j hij hj
  exact ⟨h1.step a w, h2.insert s', by rw [(a.stays w).key _ (w.leveled.pub_zero h2)]; exact h3⟩

theorem Hit.step {x : Ptr T} (h : Hit W s op x) (hW : W ⊆ S) : Hit (insert s' W) s' op x :=
  ⟨h.1.insert s', by rw [(a.stays w).key x (h.1.mono hW)]; exact h.2⟩

theorem Dead.step {x : Ptr T} (h : Dead S s op x) : Dead (insert s' S) s' op x :=
  ⟨h.1.insert s', by rw [(a.stays w).key x h.1]; exact h.2.1,
    fun h0 => h.2.2 (Nat.le_zero.mp (h0 ▸ a.mono x h.1))⟩

omit a w in
theorem Private.keep {k : K} {v : V} {h : ℕ} {x : Ptr T} (hx : Private u S s k v h x)
    (hp : ¬ Pub 0 (insert s' S) x) (hmem : s'.heap.mem x = s.heap.mem x)
    (hd : s'.deleted x = s.deleted x) (hc : ∀ u, s.heap.count u ≤ s'.heap.count u) :
    Private u (insert s' S) s' k v h x := by
  obtain ⟨m, rfl, hm⟩ := hx.node
  refine ⟨hp, ⟨m, rfl, hm.trans_le (hc u)⟩, ?_, ?_, ?_, hd.trans hx.deleted⟩
  · rw [SkipHeap.key, hmem]
    exact hx.key
  · rw [SkipHeap.val, hmem]
    exact hx.val
  · rw [SkipHeap.toplevel, hmem]
    exact hx.top

theorem Private.step {k : K} {v : V} {h : ℕ} {x : Ptr T} (hx : Private u S s k v h x) (hu : u ≠ t) :
    Private u (insert s' S) s' k v h x ∧ s'.heap.mem x = s.heap.mem x := by
  obtain ⟨m, rfl, hm⟩ := hx.node
  have hk := a.stays w
  have hmem := hk.others u m hu hx.not_pub
  refine ⟨hx.keep ?_ hmem (a.others u m hu hx.not_pub) hk.count, hmem⟩
  rw [Pub, heaps_insert]
  exact a.write.unpublished w.leveled hu hx.not_pub

theorem New.step {x : Ptr T} (h : New levelmax u S s op x) (hu : u ≠ t) :
    New levelmax u (insert s' S) s' op x := by
  obtain ⟨k, v, m, h1, h2, h3, h4⟩ := h
  exact ⟨k, v, m, h1, h2, h3, (h4.step a w hu).1⟩

theorem Inserted.keep {i : ℕ} {x : Ptr T} (h : Inserted levelmax u S s op i x)
    (hout : ∀ j, i ≤ j → ¬ Pub j (insert s' S) x) : Inserted levelmax u (insert s' S) s' op i x := by
  obtain ⟨m, rfl, hm⟩ := h.node
  have hk := a.stays w
  have htop := hk.top _ h.pub
  refine ⟨h.call, ⟨m, rfl, hm.trans_le (hk.count u)⟩, h.pub.insert s', ?_, ?_, h.pos, ?_, hout, ?_⟩
  · rw [hk.key _ h.pub]
    exact h.key
  · rw [htop]
    exact h.top
  · rw [htop]
    exact h.le
  · rw [htop]
    exact h.below.imp (fun h j hj => (h j hj).insert s') fun h' j hij hj => hk.marked h.pub (h' j hij hj)

theorem Linking.keep {i : ℕ} {x : Ptr T} (h : Linking levelmax u S s op i x)
    (hout : ∀ j, i ≤ j → ¬ Pub j (insert s' S) x) : Linking levelmax u (insert s' S) s' op i x :=
  ⟨h.1.keep a w hout, by rw [(a.stays w).top x h.1.pub]; exact h.2.1,
    fun j hj => (h.2.2 j hj).insert s'⟩

theorem Inserted.out_step {i : ℕ} {x : Ptr T} (h : Inserted levelmax u S s op i x) (hu : u ≠ t)
    (j : ℕ) (hj : i ≤ j) :
    ¬ Pub j (insert s' S) x ∧ (s'.heap.next x j).ptr = (s.heap.next x j).ptr := by
  obtain ⟨m, rfl, -⟩ := h.node
  have hj' := h.out j hj
  refine ⟨?_, (a.stays w).apart u m j hu hj'⟩
  rw [Pub, heaps_insert]
  exact a.write.unpublished w.leveled hu hj'

theorem Inserted.step {i : ℕ} {x : Ptr T} (h : Inserted levelmax u S s op i x) (hu : u ≠ t) :
    Inserted levelmax u (insert s' S) s' op i x :=
  h.keep a w fun j hj => (h.out_step a w hu j hj).1

theorem Linking.step {i : ℕ} {x : Ptr T} (h : Linking levelmax u S s op i x) (hu : u ≠ t) :
    Linking levelmax u (insert s' S) s' op i x ∧
      (s'.heap.next x i).ptr = (s.heap.next x i).ptr :=
  ⟨Linking.keep a w h fun j hj => (h.1.out_step a w hu j hj).1, (h.1.out_step a w hu i le_rfl).2⟩

theorem caller_step {c : Caller T V} (h : c.At levelmax u S s op) (hu : u ≠ t) :
    c.At levelmax u (insert s' S) s' op := by
  cases c with
  | search | remove | removed => exact h
  | insert newNode => exact New.step a w h hu
  | link newNode i => exact (Linking.step a w h hu).1

theorem fills_step {c : Caller T V} {k : K} {i : ℕ} {x : Lists T}
    (h : c.Fills levelmax S s k i x) : c.Fills levelmax (insert s' S) s' k i x := by
  cases c with
  | insert | link => exact Lists.At.step a w h
  | search | remove | removed => trivial

theorem finds_step {c : Caller T V} {k : K} {x : Lists T} (h : c.Finds W s k x) (hW : W ⊆ S) :
    c.Finds (insert s' W) s' k x := by
  cases c with
  | removed => trivial
  | search | insert | link | remove => exact Found.step h hW a w

theorem marker_step {m : Marker T} (h : m.At levelmax u S s op) (hu : u ≠ t) :
    m.At levelmax u (insert s' S) s' op := by
  cases m with
  | insert newNode => exact New.step a w h hu
  | remove => exact h

theorem marked_above_step {x : Ptr T} {i : ℕ} (hp : Pub 0 S x)
    (h : i < s.heap.toplevel x ∧ ∀ j, i < j → j < s.heap.toplevel x → s.heap.Marked x j) :
    i < s'.heap.toplevel x ∧ ∀ j, i < j → j < s'.heap.toplevel x → s'.heap.Marked x j := by
  rw [(a.stays w).top x hp]
  exact ⟨h.1, fun j hij hj => (a.stays w).marked hp (h.2 j hij hj)⟩

theorem markedTo_step {i : ℕ} {x y : Ptr T} (h : MarkedTo i s.heap x y) (hx : Pub i S x) :
    MarkedTo i s'.heap x y := h.step w.leveled hx (a.stays w)

end stable

/-- A step of another thread keeps the assertion. -/
theorem At.step {l : Pc T V} (a : Act late t S s s') (w : Wf S s) (h : At levelmax u S W s op l)
    (hW : W ⊆ S) (hu : u ≠ t) : At levelmax u (insert s' S) (insert s' W) s' op l := by
  have hk := a.stays w
  cases l with
  | fraser c left i lists =>
    exact ⟨caller_step a w h.1 hu, h.2.1.step a w, fills_step a w h.2.2⟩
  | fraserNext c left leftNext right i lists =>
    obtain ⟨h1, h2, h3, h4, h5, h6, h7⟩ := h
    exact ⟨caller_step a w h1 hu, h2.step a w, h3.insert s', h4.insert s', markedTo_step a w h5 h3,
      h6.insert s', fills_step a w h7⟩
  | fraserKey c left leftNext right rightNext i lists =>
    obtain ⟨h1, h2, h3, h4, h5, h6, h7, h8, h9⟩ := h
    exact ⟨caller_step a w h1 hu, h2.step a w, h3.insert s', h4.insert s', markedTo_step a w h5 h3,
      h6.insert s', fun hr => (h7 hr).insert s', h8.insert s', fills_step a w h9⟩
  | fraserCas c left leftNext right i lists =>
    obtain ⟨h1, h2, h3, h4, h5, h6, h7⟩ := h
    exact ⟨caller_step a w h1 hu, h2.step a w, h3.insert s', h4.insert s', markedTo_step a w h5 h3,
      by rw [hk.key right (w.leveled.pub_zero h4)]; exact h6, fills_step a w h7⟩
  | fraserRet c lists =>
    exact ⟨caller_step a w h.1 hu, fills_step a w h.2.1, finds_step a w h.2.2 hW⟩
  | searchKey node | removeKey node => exact ⟨h.1, h.2.step hW a w⟩
  | searchDeleted node | removeDeleted node | removeInc node => exact ⟨h.1, h.2.step a w hW⟩
  | searchVal node =>
    obtain ⟨h1, h2, h3⟩ := h
    exact ⟨h1, h2.insert s', by rw [hk.val node h2]; exact h3.insert s'⟩
  | insertAlloc => exact h
  | insertKey newNode lists =>
    exact ⟨h.1.step a w hu, h.2.1.step a w, h.2.2.step hW a w⟩
  | insertDeleted newNode lists => exact ⟨h.1.step a w hu, h.2.step a w hW⟩
  | insertFree newNode =>
    obtain ⟨k, v, x, h1, h2⟩ := h
    exact ⟨k, v, x, h1, h2.insert s'⟩
  | insertFill newNode i lists =>
    obtain ⟨k, v, m, h1, h2, h3, h4, h5, h6, h7, h8⟩ := h
    obtain ⟨hp, hmem⟩ := h5.step a w hu
    have hs : 0 < levelmax := h3.trans_le h4
    refine ⟨k, v, m, h1, h2, h3, h4, hp, fun j hj => ?_, h7.step a w, ?_⟩
    · rw [SkipHeap.next, hmem]
      exact h6 j hj
    · rwa [hk.key _ (h7 0 le_rfl hs).2.1]
  | insertCas newNode lists =>
    obtain ⟨k, v, m, h1, h3, h4, h5, h6, h7, h8⟩ := h
    obtain ⟨hp, hmem⟩ := h5.step a w hu
    have hs : 0 < levelmax := h3.trans_le h4
    refine ⟨k, v, m, h1, h3, h4, hp, fun j hj => ?_, h7.step a w, ?_⟩
    · rw [SkipHeap.next, hmem]
      exact h6 j hj
    · rwa [hk.key _ (h7 0 le_rfl hs).2.1]
  | linkTop newNode i lists => exact ⟨h.1.step a w hu, h.2.step a w⟩
  | linkNext newNode i lists =>
    exact ⟨h.1.step a w hu, by rw [hk.top _ h.1.pub]; exact h.2.1, h.2.2.step a w⟩
  | linkSwing newNode newNext i lists | linkKey newNode i lists =>
    exact ⟨(h.1.step a w hu).1, h.2.1.step a w, (h.1.step a w hu).2.trans h.2.2⟩
  | linkCas newNode i lists =>
    obtain ⟨h1, h2, h3, h4⟩ := h
    have hi : i < levelmax := h1.2.1.trans_le h1.1.top
    refine ⟨(h1.step a w hu).1, h2.step a w, (h1.step a w hu).2.trans h3, ?_⟩
    rwa [hk.key _ (w.leveled.pub_zero (h2 i i.zero_le hi).2.1)]
  | linkInside newNode i lists => exact ⟨(h.1.step a w hu).1, h.2.step a w⟩
  | markTop m node => exact ⟨marker_step a w h.1 hu, h.2.step a w⟩
  | markNext m node i =>
    exact ⟨marker_step a w h.1 hu, h.2.1.step a w, marked_above_step a w h.2.1.1 h.2.2⟩
  | markCas m node nodeNext i =>
    exact ⟨marker_step a w h.1 hu, h.2.1.step a w, marked_above_step a w h.2.1.1 h.2.2⟩
  | removeVal node | removeFree node result =>
    obtain ⟨h1, h2, h3⟩ := h
    refine ⟨h1, ?_, by rw [hk.key node h2.1]; exact h3⟩
    rw [heaps_insert]
    exact h2.step hk
  | done r => trivial
  | unchanged r =>
    obtain ⟨s₀, hs₀, h1⟩ := h
    exact ⟨s₀, Set.mem_insert_of_mem _ hs₀, h1⟩

/-! ### The steps -/

def Caller.lin : Caller T V → Option (Answer V)
  | .link _ _ => some (.flag true)
  | .removed result => some (.val result)
  | _ => none

def Marker.lin (s : FraserHeap T K V) (node : Ptr T) : Marker T → Option (Answer V)
  | .insert _ => none
  | .remove => some (.val (s.heap.val node))

/-- The result of a call that has taken effect. -/
def lin (s : FraserHeap T K V) : Call K V → Pc T V → Option (Answer V)
  | _, .fraser c _ _ _ => c.lin
  | _, .fraserNext c _ _ _ _ _ => c.lin
  | _, .fraserKey c _ _ _ _ _ _ => c.lin
  | _, .fraserCas c _ _ _ _ _ => c.lin
  | _, .fraserRet c _ => c.lin
  | _, .linkTop _ _ _ => some (.flag true)
  | _, .linkNext _ _ _ => some (.flag true)
  | _, .linkSwing _ _ _ _ => some (.flag true)
  | _, .linkKey _ _ _ => some (.flag true)
  | _, .linkCas _ _ _ => some (.flag true)
  | _, .linkInside _ _ _ => some (.flag true)
  | _, .markTop m node => m.lin s node
  | _, .markNext m node _ => m.lin s node
  | _, .markCas m node _ _ => m.lin s node
  | _, .removeVal node => some (.val (s.heap.val node))
  | _, .removeFree _ result => some (.val result)
  | _, .done r => some r
  | _, _ => none

/-- The step links no marked node, but if `late`. -/
def Late (late : Prop) (s : FraserHeap T K V) (l : Pc T V) : Prop :=
  ∀ newNode i lists, l = .linkCas newNode i lists →
    s.heap.next (lists.preds i) i = (lists.succs i).ref → s.heap.Marked newNode i → late

/-- What a step does: it is one of the writes, it establishes the next
assertion, and it changes the map only where the call takes effect. -/
structure StepOk (late : Prop) (levelmax : ℕ) (t : T) (S W : Set (FraserHeap T K V)) (s : FraserHeap T K V)
    (op : Call K V) (l : Pc T V) (q : FraserHeap T K V × Pc T V) : Prop where
  act : Act late t S s q.1
  next : At levelmax t (insert q.1 S) (insert q.1 W) q.1 op q.2
  point : (lin q.1 op q.2 = lin s op l ∧ absMap q.1 = absMap s) ∨
    (lin s op l = none ∧ ∃ r, lin q.1 op q.2 = some r ∧
      (mapObject K V).apply op (absMap s) = (absMap q.1, r))

/-- A step that only reads. -/
theorem StepOk.read {l l' : Pc T V} (w : Wf S s) (hs : s ∈ W) (h : At levelmax t S W s op l')
    (hl : lin s op l' = lin s op l) : StepOk late levelmax t S W s op l (s, l') := by
  refine ⟨act_skip, ?_, Or.inl ⟨hl, rfl⟩⟩
  rw [Set.insert_eq_of_mem w.mem, Set.insert_eq_of_mem hs]
  exact h

section step

variable (hpos : 0 < levelmax) (w : Wf S s) (hs : s ∈ W) (hW : W ⊆ S) (hh : Hind W s)
  (hb : ⊥ < op.key) (ht : op.key < ⊤) {level : ℕ} (hlevel : 0 < level ∧ level ≤ levelmax)

include w hb hpos

/-- A search begins, or begins again. -/
theorem at_begin {c : Caller T V} {lists : Lists T} (h : c.At levelmax t S s op)
    (hl : ∀ n i, c = .link n i → lists.At levelmax S s op.key 0) :
    At levelmax t S W s op (begin levelmax c lists) := by
  refine ⟨h, ⟨w.leveled.pub_head _, lt_of_eq_of_lt w.leveled.head_key hb⟩, ?_⟩
  cases c with
  | insert n => exact fun j hij hj => by omega
  | link n i => exact hl n i rfl
  | search | remove | removed => trivial

omit hpos w hb in
theorem lists_of_fills {c : Caller T V} {i : ℕ} {lists : Lists T}
    (h : c.Fills levelmax S s op.key i lists) (n : Ptr T) (j : ℕ) (hc : c = .link n j) :
    lists.At levelmax S s op.key 0 := by
  subst hc
  exact h

omit hpos hb in
/-- The search is done with level `i`. -/
theorem at_fraserLevel {c : Caller T V} {left right : Ptr T} {i : ℕ} {lists : Lists T}
    (h1 : c.At levelmax t S s op) (h2 : Left S s op.key i left) (h3 : Pub i S right)
    (hle : op.key ≤ s.heap.key right) (h4 : Edge W i left right)
    (h5 : c.Fills levelmax S s op.key (i + 1) lists) :
    At levelmax t S W s op (fraserLevel c left right i lists) ∧
      lin s op (fraserLevel c left right i lists) = c.lin := by
  have hset : ∀ {a : Lists T} {m : ℕ}, a.At levelmax S s op.key m → m ≤ i + 1 →
      Lists.At levelmax S s op.key (min m i)
        ⟨Function.update a.preds i left, Function.update a.succs i right⟩ := by
    intro a m ha hm j hij hj
    by_cases he : j = i
    · subst he
      simp only [Function.update_self]
      exact ⟨h2, h3, hle⟩
    · simp only [Function.update_of_ne he]
      exact ha j (by omega) hj
  have hfill : c.Fills levelmax S s op.key i (lists.record c i left right) := by
    cases c with
    | insert n =>
      have := hset h5 le_rfl
      rwa [Nat.min_eq_right i.le_succ] at this
    | link n m =>
      have := hset (m := 0) h5 (Nat.zero_le _)
      rwa [Nat.zero_min] at this
    | search | remove | removed => trivial
  cases i with
  | zero =>
    refine ⟨⟨h1, hfill, ?_⟩, rfl⟩
    cases c with
    | removed r => trivial
    | search | insert | link | remove =>
      simp only [Caller.Finds, Lists.record, Function.update_self]
      exact ⟨left, h4, h2.2, hle⟩
  | succ i => exact ⟨⟨h1, ⟨w.leveled.down h2.1 i.le_succ, h2.2⟩, hfill⟩, rfl⟩

include hs in
theorem step_ok_fraser {l : Pc T V} (h : At levelmax t S W s op l)
    (hl : (∃ c a i x, l = .fraser c a i x) ∨ (∃ c a b y i x, l = .fraserNext c a b y i x) ∨
      (∃ c a b y z i x, l = .fraserKey c a b y z i x) ∨ (∃ c a b y i x, l = .fraserCas c a b y i x)) :
    StepOk late levelmax t S W s op l (step levelmax level t s op l) := by
  rcases hl with ⟨c, a, i, x, rfl⟩ | ⟨c, a, b, y, i, x, rfl⟩ | ⟨c, a, b, y, z, i, x, rfl⟩ |
    ⟨c, a, b, y, i, x, rfl⟩
  · obtain ⟨h1, h2, h3⟩ := h
    by_cases hm : s.heap.Marked a i
    · simp only [step, isMarked, show (s.heap.next a i).mark = true from hm, if_true]
      exact .read w hs (at_begin hpos w hb h1 (lists_of_fills h3)) rfl
    · simp only [step, isMarked, show (s.heap.next a i).mark = false by simpa [SkipHeap.Marked] using hm]
      have hn := SkipHeap.next_eq_ref hm
      have hnext := (w.leveled.next h2.1 (w.leveled.ne_tail_of_lt h2.2)).1
      exact .read w hs ⟨h1, h2, hnext, hnext, .refl,
        ⟨s, hs, w.leveled.lnk_of_next h2.1 hn, hn⟩, h3⟩ rfl
  · obtain ⟨h1, h2, h3, h4, h5, h6, h7⟩ := h
    by_cases hm : s.heap.Marked y i
    · simp only [step, isMarked, show (s.heap.next y i).mark = true from hm, if_true]
      have hyt : y ≠ .tail := fun he => w.leveled.tail_mark i (he ▸ hm)
      exact .read w hs ⟨h1, h2, h3, (w.leveled.next h4 hyt).1, h5.tail ⟨hm, rfl⟩, h6, h7⟩ rfl
    · simp only [step, isMarked, show (s.heap.next y i).mark = false by simpa [SkipHeap.Marked] using hm]
      have hn := SkipHeap.next_eq_ref hm
      exact .read w hs ⟨h1, h2, h3, h4, h5, h6, fun hyt => (w.leveled.next h4 hyt).1,
        ⟨s, hs, w.leveled.lnk_of_next h4 hn, hn⟩, h7⟩ rfl
  · obtain ⟨h1, h2, h3, h4, h5, h6, h7, h8, h9⟩ := h
    by_cases hle : op.key ≤ s.heap.key y
    · by_cases hby : b = y
      · simp only [step, hle, if_true, hby, ne_eq, not_true_eq_false, if_false]
        obtain ⟨h10, h11⟩ := at_fraserLevel w h1 h2 h4 hle (hby ▸ h6) h9
        exact .read w hs h10 h11
      · simp only [step, hle, if_true, ne_eq, hby, not_false_eq_true]
        exact .read w hs ⟨h1, h2, h3, h4, h5, hle, h9⟩ rfl
    · simp only [step, hle, if_false]
      have hlt := not_le.mp hle
      have hz := h7 (w.leveled.ne_tail_of_lt hlt)
      exact .read w hs ⟨h1, ⟨h4, hlt⟩, hz, hz, .refl, h8, h9⟩ rfl
  · obtain ⟨h1, h2, h3, h4, h5, h6, h7⟩ := h
    rcases hc : s.cas a i b.ref y.ref with ⟨⟨⟩, s'⟩
    · simp only [step, hc]
      rw [(cas_false hc).2]
      exact .read w hs (at_begin hpos w hb h1 (lists_of_fills h7)) rfl
    · simp only [step, hc]
      obtain ⟨hn, rfl⟩ := cas_true hc
      obtain ⟨hact, habs, hpub⟩ := splice_act late (t := t) w h2.1 hn h5 (h2.2.trans_le h6)
      have hw := hact.wf w
      have hn' : (s.setNext a i y.ref).heap.next a i = y.ref := SkipHeap.next_setNext_self _ _ _ _
      have hc' : c.At levelmax t (insert (s.setNext a i y.ref) S) (s.setNext a i y.ref) op := by
        cases c with
        | search | remove | removed => exact h1
        | insert n =>
          obtain ⟨k, v, m, h11, h12, h13, h14⟩ := h1
          refine ⟨k, v, m, h11, h12, h13, h14.keep (fun h => h14.not_pub ((hpub 0 n).mp h)) ?_ rfl
            fun _ => le_rfl⟩
          refine SkipHeap.mem_setNext_of_ne _ _ _ _ _ fun he => h14.not_pub ?_
          exact he ▸ w.leveled.pub_zero h2.1
        | link n j => exact Linking.keep hact w h1 fun m hm h => h1.1.out m hm ((hpub m n).mp h)
      have hle' : op.key ≤ (s.setNext a i y.ref).heap.key y := by
        rw [(hact.stays w).key y (w.leveled.pub_zero h4)]
        exact h6
      obtain ⟨h8, h9⟩ := at_fraserLevel (t := t) hw hc' (h2.step hact w) (h4.insert _) hle'
        ⟨_, Set.mem_insert _ W, hw.leveled.lnk_of_next (h2.1.insert _) hn', hn'⟩ (fills_step hact w h7)
      exact ⟨hact, h8, Or.inl ⟨h9, habs⟩⟩

omit hpos hb in
include hs in
theorem step_ok_ret {c : Caller T V} {x : Lists T} (h : At levelmax t S W s op (.fraserRet c x)) :
    StepOk late levelmax t S W s op (.fraserRet c x) (step levelmax level t s op (.fraserRet c x)) := by
  obtain ⟨h1, h2, h3⟩ := h
  cases c with
  | search => exact .read w hs ⟨h1, h3⟩ rfl
  | insert n => exact .read w hs ⟨h1, h2, h3⟩ rfl
  | link n i => exact .read w hs ⟨h1.1, h1.2.1, h2⟩ rfl
  | remove => exact .read w hs ⟨h1, h3⟩ rfl
  | removed r => exact .read w hs trivial rfl

omit hpos hb in
include hW in
/-- What a search has found. -/
theorem Found.cases {x : Ptr T} (h : Found W s op.key x) :
    (s.heap.key x = op.key → Hit W s op x) ∧ (s.heap.key x ≠ op.key → NoneSeen W op.key) := by
  obtain ⟨p, h1, h2, h3⟩ := h
  exact ⟨fun he => ⟨(h1.lnk w hW (w.leveled.ne_tail_of_lt h2)).2, he⟩,
    fun hne => h1.noneSeen w hW h2 (lt_of_le_of_ne h3 (Ne.symm hne))⟩

omit hpos hb in
include hW hh in
theorem Hit.noneSeen {x : Ptr T} (h : Hit W s op x) (hd : s.deleted x ≠ 0) : NoneSeen W op.key := by
  rw [← h.2]
  exact w.noneSeen_of_deleted hW hh h.1 hd

omit hpos in
include hW hh ht in
theorem Hit.someSeen {x : Ptr T} (h : Hit W s op x) (hd : s.deleted x = 0) :
    SomeSeen W op.key (s.heap.val x) := by
  rw [← h.2]
  exact w.someSeen_of_not_deleted hW hh h.1 hd
    (w.leveled.ne_head_of_lt (k := ⊥) (by rw [h.2]; exact hb))
    (w.leveled.ne_tail_of_lt (k := ⊤) (by rw [h.2]; exact ht))

omit hpos in
include hs hW hh ht in
theorem step_ok_search {l : Pc T V} (h : At levelmax t S W s op l)
    (hl : (∃ n, l = .searchKey n) ∨ (∃ n, l = .searchDeleted n) ∨ ∃ n, l = .searchVal n) :
    StepOk late levelmax t S W s op l (step levelmax level t s op l) := by
  rcases hl with ⟨n, rfl⟩ | ⟨n, rfl⟩ | ⟨n, rfl⟩
  · obtain ⟨⟨k, rfl⟩, h2⟩ := h
    obtain ⟨hhit, hnone⟩ := h2.cases w hW
    by_cases he : s.heap.key n = (Call.search k : Call K V).key
    · rw [step, if_pos he]
      exact .read w hs ⟨⟨k, rfl⟩, hhit he⟩ rfl
    · rw [step, if_neg he]
      obtain ⟨s₀, hs₀, h0⟩ := hnone he
      exact .read w hs ⟨s₀, hs₀, apply_search_none h0⟩ rfl
  · obtain ⟨⟨k, rfl⟩, h2⟩ := h
    by_cases hd : s.deleted n = 0
    · rw [step, if_pos hd]
      exact .read w hs ⟨⟨k, rfl⟩, h2.1.mono hW, h2.someSeen w hW hh hb ht hd⟩ rfl
    · rw [step, if_neg hd]
      obtain ⟨s₀, hs₀, h0⟩ := h2.noneSeen w hW hh hd
      exact .read w hs ⟨s₀, hs₀, apply_search_none h0⟩ rfl
  · obtain ⟨⟨k, rfl⟩, -, s₀, hs₀, h0⟩ := h
    exact .read w hs ⟨s₀, hs₀, apply_search_some h0⟩ rfl

include hs hW hh ht hlevel in
theorem step_ok_insert {l : Pc T V} (h : At levelmax t S W s op l)
    (hl : l = .insertAlloc ∨ (∃ n x, l = .insertKey n x) ∨ (∃ n x, l = .insertDeleted n x) ∨
      (∃ n, l = .insertFree n) ∨ (∃ n i x, l = .insertFill n i x) ∨ ∃ n x, l = .insertCas n x) :
    StepOk late levelmax t S W s op l (step levelmax level t s op l) := by
  rcases hl with rfl | ⟨n, x, rfl⟩ | ⟨n, x, rfl⟩ | ⟨n, rfl⟩ | ⟨n, i, x, rfl⟩ | ⟨n, x, rfl⟩
  · obtain ⟨k, v, rfl⟩ := h
    obtain ⟨hact, habs, hn, hmem⟩ := allocate_act late w t k v level
    have hpriv : Private t (insert (s.allocate t k v level).1 S) (s.allocate t k v level).1 k v level
        (s.allocate t k v level).2 := by
      refine ⟨hn, ⟨_, rfl, Memory.count_allocate_self s.heap _ t⟩, ?_, ?_, ?_, Function.update_self _ _ _⟩
      · rw [SkipHeap.key, hmem]
      · rw [SkipHeap.val, hmem]
      · rw [SkipHeap.toplevel, hmem]
    exact ⟨hact, at_begin hpos (hact.wf w) hb ⟨k, v, level, rfl, hlevel.1, hlevel.2, hpriv⟩
      (fun _ _ h => by cases h), Or.inl ⟨rfl, habs⟩⟩
  · obtain ⟨h1, h2, h3⟩ := h
    obtain ⟨hhit, -⟩ := h3.cases w hW
    by_cases he : s.heap.key (x.succs 0) = op.key
    · simp only [step, he, if_true]
      exact .read w hs ⟨h1, hhit he⟩ rfl
    · simp only [step, he, if_false]
      obtain ⟨p, -, -, h4⟩ := h3
      obtain ⟨k, v, m, rfl, h5, h6, h7⟩ := h1
      exact .read w hs ⟨k, v, m, rfl, m.zero_le, h5, h6, h7, fun _ h => absurd h (Nat.not_lt_zero _),
        h2, lt_of_le_of_ne h4 (Ne.symm he)⟩ rfl
  · obtain ⟨h1, h2⟩ := h
    by_cases hd : s.deleted (x.succs 0) = 0
    · simp only [step, hd, ne_eq, not_true_eq_false, if_false]
      obtain ⟨k, v, m, rfl, -⟩ := h1
      exact .read w hs ⟨k, v, _, rfl, h2.someSeen w hW hh hb ht hd⟩ rfl
    · simp only [step, ne_eq, hd, not_false_eq_true, if_true]
      exact .read w hs ⟨h1, h2.1.mono hW, h2.2, hd⟩ rfl
  · obtain ⟨k, v, v', rfl, s₀, hs₀, h0⟩ := h
    exact ⟨act_free n, ⟨s₀, Set.mem_insert_of_mem _ hs₀, apply_insert_some h0⟩, Or.inl ⟨rfl, rfl⟩⟩
  · obtain ⟨k, v, m, rfl, h2, h3, h4, h5, h6, h7, h8⟩ := h
    by_cases hi : i < s.heap.toplevel n
    · simp only [step, hi, if_true]
      obtain ⟨m', rfl, hm'⟩ := h5.node
      obtain ⟨hact, habs, hn⟩ := fill_act late w h5.not_pub hm' i (x.succs i)
      have hk := hact.stays w
      refine ⟨hact, ⟨k, v, m, rfl, h5.top ▸ hi, h3, h4, ⟨hn, ⟨m', rfl, hm'⟩, ?_, ?_, ?_, h5.deleted⟩,
        fun j hj => ?_, h7.step hact w, ?_⟩, Or.inl ⟨rfl, habs⟩⟩
      · exact (SkipHeap.key_setNext _ _ _ _ _).trans h5.key
      · exact (SkipHeap.val_setNext _ _ _ _ _).trans h5.val
      · exact (SkipHeap.toplevel_setNext _ _ _ _ _).trans h5.top
      · rcases Nat.lt_succ_iff_lt_or_eq.mp hj with hj | rfl
        · exact (SkipHeap.next_setNext_of_ne _ _ _ _ _ _ (Or.inr hj.ne)).trans (h6 j hj)
        · exact SkipHeap.next_setNext_self _ _ _ _
      · rwa [hk.key _ (h7 0 le_rfl hpos).2.1]
    · simp only [step, hi, if_false]
      have he : i = m := le_antisymm h2 (h5.top ▸ not_lt.mp hi)
      exact .read w hs ⟨k, v, m, rfl, h3, h4, h5, he ▸ h6, h7, h8⟩ rfl
  · obtain ⟨k, v, m, rfl, h3, h4, h5, h6, h7, h8⟩ := h
    obtain ⟨⟨hp, hlt⟩, hq, -⟩ := h7 0 le_rfl hpos
    rcases hc : s.cas (x.preds 0) 0 (x.succs 0).ref n.ref with ⟨⟨⟩, s'⟩
    · simp only [step, hc]
      rw [(cas_false hc).2]
      exact .read w hs (at_begin hpos w hb ⟨k, v, m, rfl, h3, h4, h5⟩ fun _ _ h => by cases h) rfl
    · simp only [step, hc]
      obtain ⟨hn, rfl⟩ := cas_true hc
      obtain ⟨m', rfl, hm'⟩ := h5.node
      have hnq := h6 0 h3
      have hnp : (s.heap.next (.node t m') 0).ptr = x.succs 0 := by rw [hnq]; rfl
      obtain ⟨hact, -, hpub⟩ := link_act late w hn hp h5.not_pub hm' hnp
        (fun h => absurd h (SkipHeap.not_marked_of_next hnq)) (lt_of_lt_of_eq hlt h5.key.symm) (lt_of_eq_of_lt h5.key h8) (h3.trans_eq h5.top.symm)
        fun j hj => absurd hj j.not_lt_zero
      refine ⟨hact, ⟨⟨⟨k, v, rfl⟩, ⟨m', rfl, hm'⟩, (hpub 0 _).mpr (Or.inr ⟨rfl, rfl⟩), ?_, ?_,
        one_ne_zero, ?_, fun j hj hpj => ?_, Or.inl fun j hj => ?_⟩, h7.step hact w⟩,
        Or.inr ⟨rfl, _, rfl, w.link_map hp hn h5.not_pub hnq h5.deleted h5.key h5.val hlt h8⟩⟩
      · exact (SkipHeap.key_setNext _ _ _ _ _).trans h5.key
      · exact ((SkipHeap.toplevel_setNext _ _ _ _ _).trans h5.top).trans_le h4
      · exact h3.trans_eq ((SkipHeap.toplevel_setNext _ _ _ _ _).trans h5.top).symm
      · rcases (hpub j _).mp hpj with hpj | ⟨rfl, -⟩
        · exact h5.not_pub (w.leveled.pub_zero hpj)
        · exact absurd hj (by decide)
      · obtain rfl : j = 0 := Nat.lt_one_iff.mp hj
        exact (hpub 0 _).mpr (Or.inr ⟨rfl, rfl⟩)

include hs in
theorem step_ok_link {l : Pc T V} (h : At levelmax t S W s op l) (hlate : Late late s l)
    (hl : (∃ n i x, l = .linkTop n i x) ∨ (∃ n i x, l = .linkNext n i x) ∨
      (∃ n y i x, l = .linkSwing n y i x) ∨ (∃ n i x, l = .linkKey n i x) ∨
      (∃ n i x, l = .linkCas n i x) ∨ ∃ n i x, l = .linkInside n i x) :
    StepOk late levelmax t S W s op l (step levelmax level t s op l) := by
  rcases hl with ⟨n, i, x, rfl⟩ | ⟨n, i, x, rfl⟩ | ⟨n, y, i, x, rfl⟩ | ⟨n, i, x, rfl⟩ |
    ⟨n, i, x, rfl⟩ | ⟨n, i, x, rfl⟩
  · obtain ⟨h1, h2⟩ := h
    by_cases hi : i < s.heap.toplevel n
    · simp only [step, hi, if_true]
      exact .read w hs ⟨h1, hi, h2⟩ rfl
    · simp only [step, hi, if_false]
      exact .read w hs trivial rfl
  · obtain ⟨h1, h2, h3⟩ := h
    by_cases hm : s.heap.Marked n i
    · simp only [step, isMarked, show (s.heap.next n i).mark = true from hm, if_true]
      exact .read w hs trivial rfl
    · simp only [step, isMarked, show (s.heap.next n i).mark = false by simpa [SkipHeap.Marked] using hm]
      -- a node that is not marked has not skipped a level
      have hlink : Linking levelmax t S s op i n :=
        ⟨h1, h2, h1.below.resolve_right fun h => hm (h i le_rfl h2)⟩
      by_cases he : (s.heap.next n i).ptr = x.succs i
      · simp only [he, ne_eq, not_true_eq_false, if_false]
        exact .read w hs ⟨hlink, h3, he⟩ rfl
      · simp only [ne_eq, he, not_false_eq_true, if_true]
        exact .read w hs ⟨hlink, h3, rfl⟩ rfl
  · obtain ⟨h1, h2, h3⟩ := h
    rcases hc : s.cas n i y.ref (x.succs i).ref with ⟨⟨⟩, s'⟩
    · simp only [step, hc]
      obtain ⟨hne, rfl⟩ := cas_false hc
      -- only a mark changes the pointer of a node that is not linked there
      have hm : s'.heap.Marked n i := by
        by_contra hm
        exact hne (by rw [SkipHeap.next_eq_ref hm, h3])
      obtain ⟨h4, h5, h6⟩ := h1
      refine .read w hs ⟨⟨h4.call, h4.node, h4.pub, h4.key, h4.top, i.succ_ne_zero, h5,
        fun j hj => h4.out j (Nat.le_of_succ_le hj), Or.inr fun j hj hjt => ?_⟩, h2⟩ rfl
      exact (w.marks hm).2.2 j hj hjt
    · simp only [step, hc]
      obtain ⟨hn, rfl⟩ := cas_true hc
      obtain ⟨m, rfl, -⟩ := h1.1.node
      obtain ⟨hact, habs, hpub⟩ := swing_act late w (h1.1.out i le_rfl) (SkipHeap.not_marked_of_next hn)
        (x.succs i)
      refine ⟨hact, ⟨Linking.keep hact w h1 fun j hj h => h1.1.out j hj ((hpub j _).mp h),
        h2.step hact w, ?_⟩, Or.inl ⟨rfl, habs⟩⟩
      exact congrArg Ref.ptr (SkipHeap.next_setNext_self _ _ _ _)
  · obtain ⟨h1, h2, h3⟩ := h
    by_cases he : s.heap.key (x.succs i) = op.key
    · simp only [step, he, if_true]
      exact .read w hs ⟨h1, h2⟩ rfl
    · simp only [step, he, if_false]
      exact .read w hs ⟨h1, h2, h3, he⟩ rfl
  · obtain ⟨h1, h2, h3, h4⟩ := h
    obtain ⟨h5, h6, h7⟩ := h1
    have hi : i < levelmax := h6.trans_le h5.top
    obtain ⟨⟨hp, hlt⟩, -, hle⟩ := h2 i i.zero_le hi
    rcases hc : s.cas (x.preds i) i (x.succs i).ref n.ref with ⟨⟨⟩, s'⟩
    · simp only [step, hc]
      rw [(cas_false hc).2]
      refine .read w hs (at_begin hpos w hb (c := .link n i) ⟨h5, h6, h7⟩ ?_) rfl
      rintro n' i' hc
      exact h2
    · simp only [step, hc]
      obtain ⟨hn, rfl⟩ := cas_true hc
      obtain ⟨m, rfl, hm⟩ := h5.node
      obtain ⟨hact, habs, hpub⟩ := link_act late w hn hp (h5.out i le_rfl) hm h3 (hlate _ i x rfl hn)
        (lt_of_lt_of_eq hlt h5.key.symm) (h5.key.trans_lt (lt_of_le_of_ne hle (Ne.symm h4))) h6 h7
      have hk := hact.stays w
      have htop := hk.top _ h5.pub
      refine ⟨hact, ⟨⟨h5.call, ⟨m, rfl, hm⟩, h5.pub.insert _, ?_, ?_, i.succ_ne_zero, ?_,
        fun j hj hpj => ?_, Or.inl fun j hj => ?_⟩, h2.step hact w⟩, Or.inl ⟨rfl, habs h5.pos⟩⟩
      · rw [hk.key _ h5.pub]
        exact h5.key
      · rw [htop]
        exact h5.top
      · rw [htop]
        exact h6
      · rcases (hpub j _).mp hpj with hpj | ⟨rfl, -⟩
        · exact h5.out j (Nat.le_of_succ_le hj) hpj
        · exact absurd hj (Nat.not_succ_le_self j)
      · rcases (Nat.le_of_lt_succ hj).lt_or_eq with hj | rfl
        · exact (h7 j hj).insert _
        · exact (hpub j _).mpr (Or.inr ⟨rfl, rfl⟩)
  · obtain ⟨h1, h2⟩ := h
    refine .read w hs (at_begin hpos w hb (c := .link n i) h1 ?_) rfl
    rintro n' i' hc
    exact h2

/-- `mark_node_ptrs` is done with level `i`. -/
theorem at_markLevel {m : Marker T} {n : Ptr T} {i : ℕ} (h1 : m.At levelmax t S s op)
    (h2 : Dead S s op n) (h3 : ∀ j, i ≤ j → j < s.heap.toplevel n → s.heap.Marked n j)
    (h4 : i < s.heap.toplevel n) :
    At levelmax t S W s op (markLevel levelmax m n i) ∧
      lin s op (markLevel levelmax m n i) = m.lin s n := by
  cases i with
  | zero =>
    cases m with
    | insert n' => exact ⟨at_begin hpos w hb (c := .insert n') h1 nofun, rfl⟩
    | remove => exact ⟨⟨h1, ⟨h2.1, fun j hj => h3 j j.zero_le hj⟩, h2.2.1⟩, rfl⟩
  | succ i => exact ⟨⟨h1, h2, Nat.lt_of_succ_lt h4, fun j hij hj => h3 j hij hj⟩, rfl⟩

include hs ht in
theorem step_ok_mark {l : Pc T V} (h : At levelmax t S W s op l)
    (hl : (∃ m n, l = .markTop m n) ∨ (∃ m n i, l = .markNext m n i) ∨
      ∃ m n y i, l = .markCas m n y i) :
    StepOk late levelmax t S W s op l (step levelmax level t s op l) := by
  rcases hl with ⟨m, n, rfl⟩ | ⟨m, n, i, rfl⟩ | ⟨m, n, y, i, rfl⟩
  · obtain ⟨h1, h2⟩ := h
    have htop := w.leveled.top h2.1 (w.leveled.ne_head_of_lt (k := ⊥) (by rw [h2.2.1]; exact hb))
      (w.leveled.ne_tail_of_lt (k := ⊤) (by rw [h2.2.1]; exact ht))
    obtain ⟨i, hi⟩ := Nat.exists_eq_succ_of_ne_zero htop.ne'
    simp only [step, hi]
    exact .read w hs ⟨h1, h2, by omega, fun j _ _ => by omega⟩ rfl
  · obtain ⟨h1, h2, h3, h4⟩ := h
    by_cases hm : s.heap.Marked n i
    · simp only [step, isMarked, show (s.heap.next n i).mark = true from hm, if_true]
      obtain ⟨h5, h6⟩ := at_markLevel (t := t) (W := W) hpos w hb h1 h2 (fun j hij hj =>
        hij.lt_or_eq.elim (fun hij => h4 j hij hj) fun he => he ▸ hm) h3
      exact .read w hs h5 h6
    · simp only [step, isMarked, show (s.heap.next n i).mark = false by simpa [SkipHeap.Marked] using hm]
      exact .read w hs ⟨h1, h2, h3, h4⟩ rfl
  · obtain ⟨h1, h2, h3, h4⟩ := h
    rcases hc : s.cas n i y.ref (setMark y.ref) with ⟨⟨⟩, s'⟩
    · simp only [step, hc]
      rw [(cas_false hc).2]
      exact .read w hs ⟨h1, h2, h3, h4⟩ rfl
    · simp only [step, hc]
      obtain ⟨hn, rfl⟩ := cas_true hc
      obtain ⟨hact, habs⟩ := mark_act late (t := t) w hn h2.1
        (w.leveled.ne_head_of_lt (k := ⊥) (by rw [h2.2.1]; exact hb))
        (w.leveled.ne_tail_of_lt (k := ⊤) (by rw [h2.2.1]; exact ht)) h2.2.2 h4
      have hk := hact.stays w
      have hm' : m.At levelmax t (insert (s.setNext n i (setMark y.ref)) S)
          (s.setNext n i (setMark y.ref)) op := by
        cases m with
        | remove => exact h1
        | insert n' =>
          obtain ⟨k, v, h, h11, h12, h13, h14⟩ := h1
          have hne : n' ≠ n := fun he => h14.not_pub (he ▸ h2.1)
          obtain ⟨hpub, -, -⟩ := w.leveled.keep_mark hn
            (w.leveled.ne_head_of_lt (k := ⊥) (by rw [h2.2.1]; exact hb))
            (w.leveled.ne_tail_of_lt (k := ⊤) (by rw [h2.2.1]; exact ht))
          refine ⟨k, v, h, h11, h12, h13, h14.keep ?_ (SkipHeap.mem_setNext_of_ne _ _ _ _ _ hne) rfl
            fun _ => le_rfl⟩
          rw [Pub, heaps_insert]
          exact fun h => h14.not_pub ((hpub 0 n').mp h)
      have hmarks : ∀ j, i ≤ j → j < (s.setNext n i (setMark y.ref)).heap.toplevel n →
          (s.setNext n i (setMark y.ref)).heap.Marked n j := by
        intro j hij hj
        rw [hk.top n h2.1] at hj
        refine (SkipHeap.mark_marked n j).mpr ?_
        exact hij.lt_or_eq.imp (fun hij => h4 j hij hj) fun he => ⟨rfl, he.symm⟩
      obtain ⟨h5, h6⟩ := at_markLevel (t := t) (W := insert (s.setNext n i (setMark y.ref)) W) hpos
        (hact.wf w) hb hm' (h2.step hact w) hmarks (by rw [hk.top n h2.1]; exact h3)
      refine ⟨hact, h5, Or.inl ⟨h6.trans ?_, habs⟩⟩
      cases m with
      | insert n' => rfl
      | remove => exact congrArg (fun v => some (Answer.val v)) (hk.val n h2.1)

include hs hW hh ht in
theorem step_ok_remove {l : Pc T V} (h : At levelmax t S W s op l)
    (hl : (∃ n, l = .removeKey n) ∨ (∃ n, l = .removeDeleted n) ∨ (∃ n, l = .removeInc n) ∨
      (∃ n, l = .removeVal n) ∨ ∃ n r, l = .removeFree n r) :
    StepOk late levelmax t S W s op l (step levelmax level t s op l) := by
  rcases hl with ⟨n, rfl⟩ | ⟨n, rfl⟩ | ⟨n, rfl⟩ | ⟨n, rfl⟩ | ⟨n, r, rfl⟩
  · obtain ⟨⟨k, rfl⟩, h2⟩ := h
    obtain ⟨hhit, hnone⟩ := h2.cases w hW
    by_cases he : s.heap.key n = (Call.remove k : Call K V).key
    · simp only [step, he, ne_eq, not_true_eq_false, if_false]
      exact .read w hs ⟨⟨k, rfl⟩, hhit he⟩ rfl
    · simp only [step, ne_eq, he, not_false_eq_true, if_true]
      obtain ⟨s₀, hs₀, h0⟩ := hnone he
      exact .read w hs ⟨s₀, hs₀, apply_remove_none h0⟩ rfl
  · obtain ⟨⟨k, rfl⟩, h2⟩ := h
    by_cases hd : s.deleted n = 0
    · simp only [step, hd, ne_eq, not_true_eq_false, if_false]
      exact .read w hs ⟨⟨k, rfl⟩, h2⟩ rfl
    · simp only [step, ne_eq, hd, not_false_eq_true, if_true]
      obtain ⟨s₀, hs₀, h0⟩ := h2.noneSeen w hW hh hd
      exact .read w hs ⟨s₀, hs₀, apply_remove_none h0⟩ rfl
  · obtain ⟨⟨k, rfl⟩, h2⟩ := h
    have hp : Pub 0 S n := h2.1.mono hW
    have hact : Act late t S s (s.fetchAndInc n).2 := act_inc hp
    rcases hd : s.deleted n with _ | d
    · have hf : s.fetchAndInc n = (0, (s.fetchAndInc n).2) := Prod.ext hd rfl
      simp only [step]
      rw [hf]
      refine ⟨hact, ⟨⟨k, rfl⟩, hp.insert _, h2.2, ?_⟩, Or.inr ⟨rfl, _, rfl, ?_⟩⟩
      · simp [fetchAndInc]
      · exact w.delete_map hp hd h2.2 hb ht
    · have hf : s.fetchAndInc n = (d + 1, (s.fetchAndInc n).2) := Prod.ext hd rfl
      have hne : s.deleted n ≠ 0 := by omega
      obtain ⟨s₀, hs₀, h0⟩ := h2.noneSeen w hW hh hne
      simp only [step]
      rw [hf]
      refine ⟨hact, ⟨s₀, Set.mem_insert_of_mem _ hs₀, apply_remove_none h0⟩, Or.inl ⟨rfl, ?_⟩⟩
      refine hact.absMap_eq w (fun y _ => ?_) fun _ hx => hx
      by_cases hy : y = n
      · subst hy
        simp [fetchAndInc, hne]
      · rw [deleted_inc_of_ne hy]
  · obtain ⟨h1, h2⟩ := h
    exact .read w hs ⟨h1, h2⟩ rfl
  · obtain ⟨h1, -, -⟩ := h
    have hact : Act late t S s (s.ssmemFree n) := act_free n
    exact ⟨hact, at_begin hpos (hact.wf w) hb (c := .removed r) h1 (fun _ _ h => by cases h),
      Or.inl ⟨rfl, rfl⟩⟩

include hs hW hh ht hlevel in
/-- **Every step is one of the writes, and leads to the next assertion.** -/
theorem step_ok {l : Pc T V} (h : At levelmax t S W s op l) (hlate : Late late s l)
    (hr : result l = none) :
    StepOk late levelmax t S W s op l (step levelmax level t s op l) := by
  cases l
  case fraser | fraserNext | fraserKey | fraserCas => exact step_ok_fraser hpos w hs hb h (by simp)
  case fraserRet => exact step_ok_ret w hs h
  case searchKey | searchDeleted | searchVal => exact step_ok_search w hs hW hh hb ht h (by simp)
  case insertAlloc | insertKey | insertDeleted | insertFree | insertFill | insertCas =>
    exact step_ok_insert hpos w hs hW hh hb ht hlevel h (by simp)
  case linkTop | linkNext | linkSwing | linkKey | linkCas | linkInside =>
    exact step_ok_link hpos w hs hb h hlate (by simp)
  case markTop | markNext | markCas => exact step_ok_mark hpos w hs hb ht h (by simp)
  case removeKey | removeDeleted | removeInc | removeVal | removeFree =>
    exact step_ok_remove hpos w hs hW hh hb ht h (by simp)
  case done => cases hr
  case unchanged => cases hr

end step

theorem lin_step {l : Pc T V} (h : At levelmax u S W s op l) (a : Act late t S s s') (w : Wf S s) :
    lin s' op l = lin s op l := by
  have hval : ∀ {n}, Pub 0 S n → s'.heap.val n = s.heap.val n := fun hp => (a.stays w).val _ hp
  cases l
  case markTop m n | markNext m n _ | markCas m n _ _ =>
    cases m with
    | insert n' => rfl
    | remove => simp only [lin, Marker.lin]; first | rw [hval h.2.1] | rw [hval h.2.1.1]
  case removeVal n => simp only [lin, hval h.2.1.1]
  all_goals rfl

theorem start_at (hpos : 0 < levelmax) (w : Wf S s) (h : Keyed op) :
    At levelmax t S W s op (start levelmax op) ∧
      lin s op (start levelmax op : Pc T V) = none := by
  cases op with
  | search k => exact ⟨at_begin hpos w h.1 (c := .search) ⟨k, rfl⟩ nofun, rfl⟩
  | insert k v => exact ⟨⟨k, v, rfl⟩, rfl⟩
  | remove k => exact ⟨at_begin hpos w h.1 (c := .remove) ⟨k, rfl⟩ nofun, rfl⟩

/-! ### The runs -/

variable [Nontrivial K]

/-- The assertions hold for any clients that keep to the keys. -/
def outline {pre : Call K V → Prop} (hpos : 0 < levelmax) (hpre : ∀ op, pre op → Keyed op) :
    Outline { program T K V levelmax with pre := pre } (fun _ _ _ _ => True) (fun _ _ => False) where
  glob es s := Wf (Program.seen { program T K V levelmax with pre := pre } es) s
  loc t W₀ W s op l := W ⊆ W₀ ∧ Hind W s ∧ Keyed op ∧ At levelmax t W₀ W s op l
  pair _ _ := True
  pair_symm := id
  init := .initial levelmax
  frame := by
    intro es s e th hg _
    rw [Program.seen, Set.insert_eq_of_mem hg.mem]
    exact hg
  call t hg hs hp := ⟨Set.singleton_subset_iff.mpr hs, .singleton _, hpre _ hp,
    (start_at hpos hg (hpre _ hp)).1⟩
  call_pair := trivial
  tau := by
    intro es c t op l i s' l' hr ht hres hstep _ hw hl
    obtain ⟨hW, hh, hc, hat⟩ := hl
    have hok : StepOk True levelmax t _ _ c.shared op l (step levelmax (i + 1) t c.shared op l) :=
      step_ok hpos hw (hr.shared_mem_window _ ht) hW hh hc.1 hc.2 ⟨Nat.succ_pos i, i.2⟩ hat
        (fun _ _ _ _ _ _ => trivial) hres
    rw [show step levelmax (i + 1) t c.shared op l = (s', l') from Option.some.inj hstep] at hok
    rw [extend_of_not id]
    refine ⟨hok.act.wf hw, ⟨Set.insert_subset_insert hW, hok.act.hind hw hW hh, hc, hok.next⟩,
      fun u op₁ l₁ hu _ hl₁ _ => ⟨?_, trivial⟩⟩
    obtain ⟨hW₁, hh₁, hc₁, hat₁⟩ := hl₁
    exact ⟨Set.insert_subset_insert hW₁, hok.act.hind hw hW₁ hh₁, hc₁,
      hat₁.step hok.act hw hW₁ hu⟩

section

variable {pre : Call K V → Prop} (hpos : 0 < levelmax) (hpre : ∀ op, pre op → Keyed op)
  {es : Trace T (Call K V) (Answer V) (FraserHeap T K V) (Pc T V)}
  {c : Config T (Call K V) (FraserHeap T K V) (Pc T V)}
  (hr : Program.Run { program T K V levelmax with pre := pre } es c)

include hpos hpre hr

theorem step_ok_of_run {l : Pc T V} (i : Fin levelmax) (ht : c.threads t = some (op, l))
    (hres : result l = none) :
    StepOk True levelmax t (Program.seen { program T K V levelmax with pre := pre } es) (since t es)
      c.shared op l (step levelmax (i + 1) t c.shared op l) := by
  obtain ⟨hW, hh, hc, hat⟩ := ((outline hpos hpre).holds hr).loc t op l ht
  exact step_ok hpos ((outline hpos hpre).holds hr).glob (hr.shared_mem_window _ ht) hW hh hc.1 hc.2
    ⟨Nat.succ_pos i, i.2⟩ hat (fun _ _ _ _ _ _ => trivial) hres

end

variable (hpos : 0 < levelmax)

include hpos

theorem linearizable [Fintype T] :
    Linearizable (mapObject K V) (program T K V levelmax) absMap :=
  Concur.linearizable <| (outline hpos fun _ h => h.keyed).points lin (empty_absMap levelmax)
    (fun s op => by cases op <;> rfl)
    (fun {es c t op l i s' l'} hr hh ht hres hstep _ => by
      have hok := step_ok_of_run hpos (fun _ h => h.keyed) hr i ht hres
      rw [show step levelmax (i + 1) t c.shared op l = (s', l') from Option.some.inj hstep] at hok
      refine ⟨hok.point, fun u op₁ l₁ hu hc => ?_⟩
      exact lin_step (hh.loc u op₁ l₁ hc).2.2.2 hok.act hh.glob)
    fun {es c t op l r} hr hh ht hres => by
      obtain ⟨-, -, -, hat⟩ := hh.loc t op l ht
      cases l <;> cases hres
      case done => exact Or.inl rfl
      case unchanged => exact Or.inr ⟨rfl, hat⟩

/-- **Fraser's skip list is a map.** Its calls are linearizable to the finite
map of the keys whose node is linked at level 0 and not deleted, and a node
that is marked at level 0 is marked at all its levels. -/
theorem fraser_linearizable [Fintype T] [DecidableEq V] :
    Linearizable (mapObject K V) (program T K V levelmax) absMap ∧
    ∀ es c, (program T K V levelmax).Run es c → {k | absMap c.shared k ≠ none}.Finite ∧
      (∀ k, absMap c.shared k ≠ none ↔ ∃ x, LnkAt 0 c.shared.heap x ∧ c.shared.deleted x = 0 ∧
        (x ≠ .head ∧ x ≠ .tail) ∧ c.shared.heap.key x = k) ∧
      ∀ x, c.shared.heap.Marked x 0 → ∀ i < c.shared.heap.toplevel x, c.shared.heap.Marked x i := by
  refine ⟨linearizable hpos, fun es c hr => ⟨LinearizableIf.finite (linearizable hpos)
    (fun _ _ h => h.2.2 _ _ rfl) hr, fun k => ?_, fun x hx i hi => ?_⟩⟩
  · rw [absMap_ne_none]
    exact exists_congr fun x => ⟨fun ⟨⟨h1, h2, h3⟩, h4⟩ => ⟨h1, h2, h3, h4⟩,
      fun ⟨h1, h2, h3, h4⟩ => ⟨⟨h1, h2, h3⟩, h4⟩⟩
  · rcases i.eq_zero_or_pos with rfl | h0
    · exact hx
    · exact (((outline hpos fun _ h => h.keyed).holds hr).glob.marks hx).2.2 i h0 hi

omit hpos in
/-- Three threads, keys 1 to 8, and nodes of up to four levels. -/
theorem fraser_linearizable_three :
    Linearizable (mapObject (Fin 10) ℕ) (program (Fin 3) (Fin 10) ℕ 4) absMap :=
  (fraser_linearizable (by decide)).1

end SkiplistFraser

end Ascylib
