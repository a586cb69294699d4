/-
# The lock-free skip list

`src/algorithms/skiplist_herlihy_lf.h`, one local state for each access to
shared memory. `herlihy_search` unlinks the marked nodes it meets; the
searches that `insert` and `remove` begin with only step over them, and
`herlihy_left_search` stops at the first level at which it meets the key.

Level 0 is a Harris list and the levels above it are shortcuts: a call takes
effect where it links its node at level 0, or marks it there, and everything
else a call answers was so at some moment of it. A search needs of the levels
above no more than that a node without a mark has none at level 0 either.
-/
import Ascylib.SkipHeap
import Ascylib.LinkedListHarris

set_option linter.unusedSectionVars false

namespace Ascylib

open Concur Chain

namespace SkiplistHerlihyLF

variable {T K V : Type*} [DecidableEq T] [LinearOrder K]

/-- The arrays a search fills: `preds` and `succs`. -/
structure Lists (T : Type*) where
  preds : ℕ → Ptr T
  succs : ℕ → Ptr T

/-- `left_list[i] = left; right_list[i] = right`. -/
def Lists.set (a : Lists T) (i : ℕ) (left right : Ptr T) : Lists T :=
  ⟨Function.update a.preds i left, Function.update a.succs i right⟩

/-- `right_list[i] = right`, in `herlihy_search_no_cleanup_succs`. -/
def Lists.setSucc (a : Lists T) (i : ℕ) (right : Ptr T) : Lists T :=
  ⟨a.preds, Function.update a.succs i right⟩

/-- Who called `herlihy_search`, with the caller's live variables. -/
inductive Caller (T V : Type*) where
  /-- `insert`, while it links `new_node` at level `i` -/
  | insert (newNode : Ptr T) (i : ℕ) (lists : Lists T)
  /-- `remove`, which passes no arrays -/
  | remove (nodeDel : Ptr T) (result : V)

/-- `if (left_list != NULL) left_list[i] = left; ...` -/
def Caller.record : Caller T V → ℕ → Ptr T → Ptr T → Caller T V
  | .insert newNode j lists, i, left, right => .insert newNode j (lists.set i left right)
  | .remove nodeDel result, _, _, _ => .remove nodeDel result

/-- Where a call is, with the local variables that are live there. -/
inductive Pc (T V : Type*) where
  /-- `herlihy_left_search`: `left = unset_mark(left_prev->next[level])` -/
  | left (leftPrev : Ptr T) (level : ℕ)
  /-- `left->key < key` -/
  | leftKey (leftPrev left : Ptr T) (level : ℕ)
  /-- `|| is_marked(left->next[level])` -/
  | leftCond (leftPrev left : Ptr T) (level : ℕ)
  /-- `if (!is_marked(left->next[level])) left_prev = left` -/
  | leftMark (leftPrev left : Ptr T) (level : ℕ)
  /-- `left = unset_mark(left->next[level])` -/
  | leftNext (leftPrev left : Ptr T) (level : ℕ)
  /-- `left->key == key` -/
  | leftEq (leftPrev left : Ptr T) (level : ℕ)
  /-- `search`: `left->key == key` -/
  | searchEq (left : Ptr T)
  /-- `result = left->val` -/
  | searchVal (left : Ptr T)
  /-- `herlihy_search_no_cleanup`, and `.._succs`:
  `right = unset_mark(left->next[i])` -/
  | noCleanup (left : Ptr T) (i : ℕ) (lists : Lists T)
  /-- `!is_marked(right->next[i])` -/
  | noCleanupMark (left right : Ptr T) (i : ℕ) (lists : Lists T)
  /-- `right->key >= key` -/
  | noCleanupKey (left right : Ptr T) (i : ℕ) (lists : Lists T)
  /-- `right = unset_mark(right->next[i])` -/
  | noCleanupNext (left right : Ptr T) (i : ℕ) (lists : Lists T)
  /-- `return right->key == key` -/
  | found (right : Ptr T) (lists : Lists T)
  /-- `new_node = allocate_sl_simple_unlinked(key, val, .., get_rand_level(), 0)` -/
  | insertAlloc (lists : Lists T)
  /-- `i < new_node->toplevel`, `new_node->next[i] = succs[i]`: the node is
  still the thread's own -/
  | insertFill (newNode : Ptr T) (i : ℕ) (lists : Lists T)
  /-- `ATOMIC_CAS_MB(&preds[0]->next[0], unset_mark(succs[0]), new_node)` -/
  | insertCas (newNode : Ptr T) (lists : Lists T)
  /-- `sl_simple_delete(new_node)` -/
  | insertFree (newNode : Ptr T) (lists : Lists T)
  /-- `i < new_node->toplevel` -/
  | linkTop (newNode : Ptr T) (i : ℕ) (lists : Lists T)
  /-- `is_marked(new_node->next[i])` -/
  | linkMark (newNode : Ptr T) (i : ℕ) (lists : Lists T)
  /-- `ATOMIC_CAS_MB(&pred->next[i], succ, new_node)` -/
  | linkCas (newNode : Ptr T) (i : ℕ) (lists : Lists T)
  /-- `herlihy_search`: `left_next = left->next[i]`, `is_marked(left_next)` -/
  | cleanup (c : Caller T V) (left : Ptr T) (i : ℕ)
  /-- `right_next = right->next[i]`, `is_marked(right_next)` -/
  | cleanupNext (c : Caller T V) (left leftNext right : Ptr T) (i : ℕ)
  /-- `right->key >= key` -/
  | cleanupKey (c : Caller T V) (left leftNext right rightNext : Ptr T) (i : ℕ)
  /-- `ATOMIC_CAS_MB(&left->next[i], left_next, right)` -/
  | cleanupCas (c : Caller T V) (left leftNext right : Ptr T) (i : ℕ)
  /-- `return right->key == key`, which no caller looks at -/
  | cleanupEq (c : Caller T V) (right : Ptr T)
  /-- `mark_node_ptrs`: `i = node->toplevel - 1` -/
  | markTop (node : Ptr T)
  /-- `node_next = node->next[i]`, `is_marked(node_next)` -/
  | markNext (node : Ptr T) (i : ℕ)
  /-- `ATOMIC_CAS_MB(&node->next[i], unset_mark(node_next), set_mark(node_next))` -/
  | markCas (node : Ptr T) (i : ℕ) (nodeNext : Ref T)
  /-- `result = node_del->val` -/
  | removeVal (nodeDel : Ptr T)
  /-- `ssmem_free(alloc, succs[0])` -/
  | removeFree (nodeDel : Ptr T) (result : V)
  /-- `return r` from a call that took effect -/
  | done (r : Answer V)
  /-- `return r` from a call that changed nothing -/
  | unchanged (r : Answer V)

variable [Zero V] (levelmax : ℕ)

/-- The arrays before anything is written to them. -/
def noLists : Lists T := ⟨fun _ => .null, fun _ => .null⟩

def start : Call K V → Pc T V
  | .search _ => .left .head (levelmax - 1)
  | _ => .noCleanup .head (levelmax - 1) noLists

/-- `remove` calls the search without cleanup that fills one array only. -/
def Lists.record (op : Call K V) (i : ℕ) (left right : Ptr T) (a : Lists T) : Lists T :=
  match op with
  | .remove _ => a.setSucc i right
  | _ => a.set i left right

/-- The search without cleanup is done with level `i`. -/
def noCleanupLevel (op : Call K V) (left right : Ptr T) (i : ℕ) (lists : Lists T) : Pc T V :=
  match i with
  | 0 => .found right (lists.record op 0 left right)
  | j + 1 => .noCleanup left j (lists.record op (j + 1) left right)

/-- `herlihy_search` is done with level `i`. -/
def cleanupLevel (c : Caller T V) (left right : Ptr T) (i : ℕ) : Pc T V :=
  match i with
  | 0 => .cleanupEq (c.record 0 left right) right
  | j + 1 => .cleanup (c.record (j + 1) left right) left j

/-- What the caller of `herlihy_search` does next. -/
def cleanupRet : Caller T V → Pc T V
  | .insert newNode i lists => .linkMark newNode i lists
  | .remove nodeDel result => .removeFree nodeDel result

/-- `mark_node_ptrs` is done with level `i`: `cas` says whether this thread
marked it. -/
def markLevel (node : Ptr T) (i : ℕ) (cas : Bool) : Pc T V :=
  match i with
  | 0 => if cas then .removeVal node else .unchanged (.val 0)
  | i + 1 => .markNext node i

/-- The next access to shared memory of thread `t`, and what follows from it.
A new node draws `level` levels. -/
def step (level : ℕ) (t : T) (s : SkipHeap T K V) (op : Call K V) :
    Pc T V → SkipHeap T K V × Pc T V
  | .left leftPrev i => (s, .leftKey leftPrev (unsetMark (s.next leftPrev i)).ptr i)
  | .leftKey leftPrev left i =>
    (s, if s.key left < op.key then .leftMark leftPrev left i else .leftCond leftPrev left i)
  | .leftCond leftPrev left i =>
    (s, if isMarked (s.next left i) then .leftMark leftPrev left i else .leftEq leftPrev left i)
  | .leftMark leftPrev left i =>
    (s, if !isMarked (s.next left i) then .leftNext left left i else .leftNext leftPrev left i)
  | .leftNext leftPrev left i => (s, .leftKey leftPrev (unsetMark (s.next left i)).ptr i)
  | .leftEq leftPrev left i =>
    (s, if s.key left = op.key then .searchEq left
      else match i with
        | 0 => .searchEq left
        | i + 1 => .left leftPrev i)
  | .searchEq left => (s, if s.key left = op.key then .searchVal left else .unchanged (.val 0))
  | .searchVal left => (s, .unchanged (.val (s.val left)))
  | .noCleanup left i lists => (s, .noCleanupMark left (unsetMark (s.next left i)).ptr i lists)
  | .noCleanupMark left right i lists =>
    (s, if !isMarked (s.next right i) then .noCleanupKey left right i lists
      else .noCleanupNext left right i lists)
  | .noCleanupKey left right i lists =>
    (s, if op.key ≤ s.key right then noCleanupLevel op left right i lists
      else .noCleanupNext right right i lists)
  | .noCleanupNext left right i lists =>
    (s, .noCleanupMark left (unsetMark (s.next right i)).ptr i lists)
  | .found right lists =>
    match op with
    | .insert _ _ =>
      (s, if s.key right = op.key then .unchanged (.flag false) else .insertAlloc lists)
    | _ =>
      (s, if s.key right = op.key then .markTop (lists.succs 0) else .unchanged (.val 0))
  | .insertAlloc lists =>
    match op with
    | .insert key val =>
      let (s', newNode) := s.allocateSlSimpleUnlinked t key val level
      (s', .insertFill newNode 0 lists)
    | _ => (s, .insertAlloc lists)
  | .insertFill newNode i lists =>
    if i < s.toplevel newNode then
      (s.setNext newNode i (lists.succs i).ref, .insertFill newNode (i + 1) lists)
    else (s, .insertCas newNode lists)
  | .insertCas newNode lists =>
    match s.cas (lists.preds 0) 0 (unsetMark (lists.succs 0).ref) newNode.ref with
    | (true, s') => (s', .linkTop newNode 1 lists)
    | (false, s') => (s', .insertFree newNode lists)
  | .insertFree newNode lists => (s.ssmemFree newNode, .noCleanup .head (levelmax - 1) lists)
  | .linkTop newNode i lists =>
    (s, if i < s.toplevel newNode then .linkMark newNode i lists else .done (.flag true))
  | .linkMark newNode i lists =>
    (s, if isMarked (s.next newNode i) then .done (.flag true) else .linkCas newNode i lists)
  | .linkCas newNode i lists =>
    match s.cas (lists.preds i) i (lists.succs i).ref newNode.ref with
    | (true, s') => (s', .linkTop newNode (i + 1) lists)
    | (false, s') => (s', .cleanup (.insert newNode i lists) .head (levelmax - 1))
  | .cleanup c left i =>
    (s, if isMarked (s.next left i) then .cleanup c .head (levelmax - 1)
      else .cleanupNext c left (s.next left i).ptr (s.next left i).ptr i)
  | .cleanupNext c left leftNext right i =>
    (s, if isMarked (s.next right i) then
        .cleanupNext c left leftNext (unsetMark (s.next right i)).ptr i
      else .cleanupKey c left leftNext right (s.next right i).ptr i)
  | .cleanupKey c left leftNext right rightNext i =>
    (s, if op.key ≤ s.key right then
        if leftNext ≠ right then .cleanupCas c left leftNext right i
        else cleanupLevel c left right i
      else .cleanupNext c right rightNext rightNext i)
  | .cleanupCas c left leftNext right i =>
    match s.cas left i leftNext.ref right.ref with
    | (true, s') => (s', cleanupLevel c left right i)
    | (false, s') => (s', .cleanup c .head (levelmax - 1))
  | .cleanupEq c _ => (s, cleanupRet c)
  | .markTop node =>
    (s, match s.toplevel node with
      | 0 => .unchanged (.val 0)
      | i + 1 => .markNext node i)
  | .markNext node i =>
    (s, if isMarked (s.next node i) then markLevel node i false
      else .markCas node i (s.next node i))
  | .markCas node i nodeNext =>
    match s.cas node i (unsetMark nodeNext) (setMark nodeNext) with
    | (true, s') => (s', markLevel node i true)
    | (false, s') => (s', .markNext node i)
  | .removeVal nodeDel => (s, .cleanup (.remove nodeDel (s.val nodeDel)) .head (levelmax - 1))
  | .removeFree nodeDel result => (s.ssmemFree nodeDel, .done (.val result))
  | .done r => (s, .done r)
  | .unchanged r => (s, .unchanged r)

def result : Pc T V → Option (Answer V)
  | .done r => some r
  | .unchanged r => some r
  | _ => none

/-- The skip list, for clients that keep to keys strictly between the
sentinels' and values other than 0. A step draws a level from 1 to `levelmax`. -/
def program (T K V : Type*) [DecidableEq T] [LinearOrder K] [BoundedOrder K] [Zero V]
    (levelmax : ℕ) :
    Program T (Call K V) (Answer V) (SkipHeap T K V) (Pc T V) (Fin levelmax) where
  init := SkipHeap.empty levelmax
  pre := Client
  start := start levelmax
  step i t s op l := some (step levelmax (i + 1) t s op l)
  result := result

/-! ### What holds at each point of a call -/

open SkipHeap
open LinkedListHarris (MarkedPath)

variable [BoundedOrder K] {t u : T} {S W : Set (SkipHeap T K V)} {s s' : SkipHeap T K V}
  {op : Call K V} {levelmax}

/-- A node of level `i` to the left of the key. -/
def Left (S : Set (SkipHeap T K V)) (s : SkipHeap T K V) (k : K) (i : ℕ) (x : Ptr T) : Prop :=
  Tall S s i x ∧ s.key x < k

/-- From level `i` up the arrays hold nodes to the left and to the right. -/
def Lists.At (levelmax : ℕ) (S : Set (SkipHeap T K V)) (s : SkipHeap T K V) (k : K) (i : ℕ)
    (a : Lists T) : Prop :=
  ∀ j, i ≤ j → j < levelmax →
    Left S s k j (a.preds j) ∧ Tall S s j (a.succs j) ∧ k ≤ s.key (a.succs j)

/-- And at level 0 the key lies strictly between. -/
def Lists.Absent (levelmax : ℕ) (S : Set (SkipHeap T K V)) (s : SkipHeap T K V) (k : K)
    (a : Lists T) : Prop :=
  a.At levelmax S s k 0 ∧ 0 < levelmax ∧ k < s.key (a.succs 0)

/-- A search without cleanup: of an insert, which fills both arrays, or of a
remove. -/
def Fills (levelmax : ℕ) (S : Set (SkipHeap T K V)) (s : SkipHeap T K V) (op : Call K V) (i : ℕ)
    (a : Lists T) : Prop :=
  (∃ k v, op = .insert k v) ∧ a.At levelmax S s op.key i ∨ ∃ k, op = .remove k

/-- The node of an insert that took effect. -/
def Inserted (levelmax : ℕ) (S : Set (SkipHeap T K V)) (s : SkipHeap T K V) (op : Call K V) (i : ℕ)
    (newNode : Ptr T) (a : Lists T) : Prop :=
  (∃ k v, op = .insert k v) ∧ Pub S newNode ∧ s.key newNode = op.key ∧
    s.toplevel newNode ≤ levelmax ∧ a.At levelmax S s op.key 0 ∧ i ≠ 0 ∧ i ≤ s.toplevel newNode

def Caller.At (levelmax : ℕ) (S : Set (SkipHeap T K V)) (s : SkipHeap T K V) (op : Call K V) :
    Caller T V → Prop
  | .insert newNode i lists => Inserted levelmax S s op i newNode lists ∧ i < s.toplevel newNode
  | .remove _ _ => True

/-- The key's node, of a remove that found it. -/
def Victim (W : Set (SkipHeap T K V)) (s : SkipHeap T K V) (op : Call K V) (node : Ptr T) : Prop :=
  (∃ k, op = .remove k) ∧ Pub W node ∧ s.key node = op.key ∧ 0 < s.toplevel node

/-- The assertion at each local state, for thread `t` in call `op`, in a run
through the memories `S` of which `W` since the call. -/
def At (levelmax : ℕ) (t : T) (S W : Set (SkipHeap T K V)) (s : SkipHeap T K V) (op : Call K V) :
    Pc T V → Prop
  | .left leftPrev i => (∃ k, op = .search k) ∧ Stand W S s op.key i leftPrev
  | .leftKey leftPrev left i => (∃ k, op = .search k) ∧ Stand W S s op.key i leftPrev ∧
      Came W S s op.key i left
  | .leftCond leftPrev left i => (∃ k, op = .search k) ∧ Stand W S s op.key i leftPrev ∧
      Came W S s op.key i left ∧ op.key ≤ s.key left
  | .leftMark leftPrev left i => (∃ k, op = .search k) ∧ Stand W S s op.key i leftPrev ∧
      Past W S s op.key i left ∧ (s.key left < op.key ∨ s.Marked left i)
  | .leftNext leftPrev left i => (∃ k, op = .search k) ∧ Stand W S s op.key i leftPrev ∧
      Past W S s op.key i left
  | .leftEq leftPrev left i => (∃ k, op = .search k) ∧ Stand W S s op.key i leftPrev ∧
      Came W S s op.key i left ∧ op.key ≤ s.key left ∧
      (s.key left = op.key → SomeSeen W op.key (s.val left))
  | .searchEq left => (∃ k, op = .search k) ∧ Pub S left ∧
      (s.key left = op.key → SomeSeen W op.key (s.val left)) ∧
      (s.key left ≠ op.key → NoneSeen W op.key)
  | .searchVal left => (∃ k, op = .search k) ∧ Pub S left ∧ SomeSeen W op.key (s.val left)
  | .noCleanup left i lists => Stand W S s op.key i left ∧ Fills levelmax S s op (i + 1) lists
  | .noCleanupMark left right i lists => Stand W S s op.key i left ∧ Came W S s op.key i right ∧
      Fills levelmax S s op (i + 1) lists
  | .noCleanupKey left right i lists => Stand W S s op.key i left ∧ Came W S s op.key i right ∧
      Pub W right ∧ (s.key right = op.key → SomeSeen W op.key (s.val right)) ∧
      Fills levelmax S s op (i + 1) lists
  | .noCleanupNext left right i lists => Stand W S s op.key i left ∧ Past W S s op.key i right ∧
      Fills levelmax S s op (i + 1) lists
  | .found right lists => Came W S s op.key 0 right ∧ op.key ≤ s.key right ∧ Pub W right ∧
      (s.key right = op.key → SomeSeen W op.key (s.val right)) ∧ Fills levelmax S s op 0 lists ∧
      lists.succs 0 = right
  | .insertAlloc lists => (∃ k v, op = .insert k v) ∧ lists.Absent levelmax S s op.key
  | .insertFill newNode i lists => ∃ k v h, op = .insert k v ∧ i ≤ h ∧ 0 < h ∧ h ≤ levelmax ∧
      Private t S s k v h lists.succs i newNode ∧ lists.Absent levelmax S s k
  | .insertCas newNode lists => ∃ k v h, op = .insert k v ∧ 0 < h ∧ h ≤ levelmax ∧
      Private t S s k v h lists.succs h newNode ∧ lists.Absent levelmax S s k
  | .insertFree _ _ => ∃ k v, op = .insert k v
  | .linkTop newNode i lists => Inserted levelmax S s op i newNode lists
  | .linkMark newNode i lists => Inserted levelmax S s op i newNode lists ∧ i < s.toplevel newNode
  | .linkCas newNode i lists => Inserted levelmax S s op i newNode lists ∧ i < s.toplevel newNode
  | .cleanup c left i => c.At levelmax S s op ∧ Left S s op.key i left
  | .cleanupNext c left leftNext right i => c.At levelmax S s op ∧ Left S s op.key i left ∧
      Tall S s i leftNext ∧ Tall S s i right ∧ (i = 0 → MarkedPath s.level0 leftNext right)
  | .cleanupKey c left leftNext right rightNext i => c.At levelmax S s op ∧
      Left S s op.key i left ∧ Tall S s i leftNext ∧ Tall S s i right ∧
      (i = 0 → MarkedPath s.level0 leftNext right) ∧ (right ≠ .tail → Tall S s i rightNext)
  | .cleanupCas c left leftNext right i => c.At levelmax S s op ∧ Left S s op.key i left ∧
      Tall S s i leftNext ∧ Tall S s i right ∧ (i = 0 → MarkedPath s.level0 leftNext right) ∧
      op.key ≤ s.key right
  | .cleanupEq c _ => c.At levelmax S s op
  | .markTop node => Victim W s op node
  | .markNext node i => Victim W s op node ∧ i < s.toplevel node ∧
      ∀ j, i < j → j < s.toplevel node → s.Marked node j
  | .markCas node i nodeNext => Victim W s op node ∧ i < s.toplevel node ∧
      (∀ j, i < j → j < s.toplevel node → s.Marked node j) ∧ nodeNext.mark = false
  | .removeVal nodeDel => (∃ k, op = .remove k) ∧ Pub S nodeDel
  | .removeFree _ _ => True
  | .done _ => True
  | .unchanged r => ∃ s₀ ∈ W, (mapObject K V).apply op (absMap s₀) = (absMap s₀, r)

section stable

variable (hk : Keeps t S s s')

include hk

theorem Left.step {k : K} {i : ℕ} {x : Ptr T} (h : Left S s k i x) : Left (insert s' S) s' k i x :=
  ⟨h.1.step hk, by rw [key_step hk h.1.1]; exact h.2⟩

theorem Lists.At.step {k : K} {i : ℕ} {a : Lists T} (h : a.At levelmax S s k i) :
    a.At levelmax (insert s' S) s' k i := by
  intro j hij hj
  obtain ⟨h1, h2, h3⟩ := h j hij hj
  exact ⟨h1.step hk, h2.step hk, by rw [key_step hk h2.1]; exact h3⟩

theorem Lists.Absent.step {k : K} {a : Lists T} (h : a.Absent levelmax S s k) :
    a.Absent levelmax (insert s' S) s' k := by
  obtain ⟨h1, h2, h3⟩ := h
  exact ⟨h1.step hk, h2, by rw [key_step hk (h1 0 le_rfl h2).2.1.1]; exact h3⟩

theorem Fills.step {i : ℕ} {a : Lists T} (h : Fills levelmax S s op i a) :
    Fills levelmax (insert s' S) s' op i a := h.imp_left fun h => ⟨h.1, h.2.step hk⟩

theorem Inserted.step {i : ℕ} {x : Ptr T} {a : Lists T} (h : Inserted levelmax S s op i x a) :
    Inserted levelmax (insert s' S) s' op i x a := by
  obtain ⟨h1, h2, h3, h4, h5, h6, h7⟩ := h
  exact ⟨h1, h2.insert s', by rw [key_step hk h2]; exact h3, by rw [hk.top x h2]; exact h4,
    h5.step hk, h6, by rw [hk.top x h2]; exact h7⟩

theorem caller_step {c : Caller T V} (h : c.At levelmax S s op) :
    c.At levelmax (insert s' S) s' op := by
  cases c with
  | insert newNode i lists => exact ⟨h.1.step hk, by rw [hk.top _ h.1.2.1]; exact h.2⟩
  | remove nodeDel result => trivial

theorem Victim.step {node : Ptr T} (h : Victim W s op node) (hW : W ⊆ S) :
    Victim (insert s' W) s' op node :=
  ⟨h.1, h.2.1.insert s', by rw [key_step hk (h.2.1.mono hW)]; exact h.2.2.1,
    by rw [hk.top _ (h.2.1.mono hW)]; exact h.2.2.2⟩

theorem someSeen_step {x : Ptr T} (hx : Pub S x)
    (h : s.key x = op.key → SomeSeen W op.key (s.val x)) :
    s'.key x = op.key → SomeSeen (insert s' W) op.key (s'.val x) := by
  rw [key_step hk hx, val_step hk hx]
  exact fun he => (h he).insert s'

end stable

/-- A step of another thread keeps the assertion. -/
theorem At.step {l : Pc T V} (w : Wf levelmax S s) (h : At levelmax u S W s op l) (hW : W ⊆ S)
    (hu : u ≠ t) (hk : Keeps t S s s') : At levelmax u (insert s' S) (insert s' W) s' op l := by
  have hpath : ∀ {i a b}, Tall S s i a → (i = 0 → MarkedPath s.level0 a b) →
      i = 0 → MarkedPath s'.level0 a b := fun ha h hi => (h hi).step w.base ha.1 hk.base
  have hle : ∀ {x}, Pub S x → op.key ≤ s.key x → op.key ≤ s'.key x := fun hx h => by
    rw [key_step hk hx]; exact h
  cases l with
  | left leftPrev i => exact ⟨h.1, h.2.step hk⟩
  | leftKey leftPrev left i => exact ⟨h.1, h.2.1.step hk, h.2.2.step hk⟩
  | leftCond leftPrev left i =>
    obtain ⟨h1, h2, h3, h4⟩ := h
    exact ⟨h1, h2.step hk, h3.step hk, hle h3.1.1 h4⟩
  | leftMark leftPrev left i =>
    obtain ⟨h1, h2, h3, h4⟩ := h
    refine ⟨h1, h2.step hk, h3.step hk, h4.imp (fun h => ?_) fun h => marked_step hk h3.1.1 h⟩
    rw [key_step hk h3.1.1]
    exact h
  | leftNext leftPrev left i => exact ⟨h.1, h.2.1.step hk, h.2.2.step hk⟩
  | leftEq leftPrev left i =>
    obtain ⟨h1, h2, h3, h4, h5⟩ := h
    exact ⟨h1, h2.step hk, h3.step hk, hle h3.1.1 h4, someSeen_step hk h3.1.1 h5⟩
  | searchEq left =>
    obtain ⟨h1, h2, h3, h4⟩ := h
    refine ⟨h1, h2.insert s', someSeen_step hk h2 h3, ?_⟩
    rw [key_step hk h2]
    exact fun he => (h4 he).insert s'
  | searchVal left =>
    obtain ⟨h1, h2, h3⟩ := h
    exact ⟨h1, h2.insert s', by rw [val_step hk h2]; exact h3.insert s'⟩
  | noCleanup left i lists => exact ⟨h.1.step hk, h.2.step hk⟩
  | noCleanupMark left right i lists => exact ⟨h.1.step hk, h.2.1.step hk, h.2.2.step hk⟩
  | noCleanupKey left right i lists =>
    obtain ⟨h1, h2, h3, h4, h5⟩ := h
    exact ⟨h1.step hk, h2.step hk, h3.insert s', someSeen_step hk h2.1.1 h4, h5.step hk⟩
  | noCleanupNext left right i lists => exact ⟨h.1.step hk, h.2.1.step hk, h.2.2.step hk⟩
  | found right lists =>
    obtain ⟨h1, h2, h3, h4, h5, h6⟩ := h
    exact ⟨h1.step hk, hle h1.1.1 h2, h3.insert s', someSeen_step hk h1.1.1 h4, h5.step hk, h6⟩
  | insertAlloc lists => exact ⟨h.1, h.2.step hk⟩
  | insertFill newNode i lists =>
    obtain ⟨k, v, m, h1, h2, h3, h4, h5, h6⟩ := h
    exact ⟨k, v, m, h1, h2, h3, h4, h5.step hu hk, h6.step hk⟩
  | insertCas newNode lists =>
    obtain ⟨k, v, m, h1, h2, h3, h4, h5⟩ := h
    exact ⟨k, v, m, h1, h2, h3, h4.step hu hk, h5.step hk⟩
  | insertFree newNode lists => exact h
  | linkTop newNode i lists => exact Inserted.step hk h
  | linkMark newNode i lists | linkCas newNode i lists =>
    exact ⟨h.1.step hk, by rw [hk.top _ h.1.2.1]; exact h.2⟩
  | cleanup c left i => exact ⟨caller_step hk h.1, h.2.step hk⟩
  | cleanupNext c left leftNext right i =>
    obtain ⟨h1, h2, h3, h4, h5⟩ := h
    exact ⟨caller_step hk h1, h2.step hk, h3.step hk, h4.step hk, hpath h3 h5⟩
  | cleanupKey c left leftNext right rightNext i =>
    obtain ⟨h1, h2, h3, h4, h5, h6⟩ := h
    exact ⟨caller_step hk h1, h2.step hk, h3.step hk, h4.step hk, hpath h3 h5, fun h => (h6 h).step hk⟩
  | cleanupCas c left leftNext right i =>
    obtain ⟨h1, h2, h3, h4, h5, h6⟩ := h
    exact ⟨caller_step hk h1, h2.step hk, h3.step hk, h4.step hk, hpath h3 h5, hle h4.1 h6⟩
  | cleanupEq c right => exact caller_step hk h
  | markTop node => exact Victim.step hk h hW
  | markNext node i =>
    obtain ⟨h1, h2, h3⟩ := h
    have hp := h1.2.1.mono hW
    rw [At, hk.top node hp]
    exact ⟨h1.step hk hW, h2, fun j hij hj => marked_step hk hp (h3 j hij hj)⟩
  | markCas node i nodeNext =>
    obtain ⟨h1, h2, h3, h4⟩ := h
    have hp := h1.2.1.mono hW
    rw [At, hk.top node hp]
    exact ⟨h1.step hk hW, h2, fun j hij hj => marked_step hk hp (h3 j hij hj), h4⟩
  | removeVal nodeDel => exact ⟨h.1, h.2.insert s'⟩
  | removeFree nodeDel result => trivial
  | done r => trivial
  | unchanged r =>
    obtain ⟨s₀, hs₀, h1⟩ := h
    exact ⟨s₀, Set.mem_insert_of_mem _ hs₀, h1⟩

/-! ### The steps -/

def Caller.lin : Caller T V → Option (Answer V)
  | .insert _ _ _ => some (.flag true)
  | .remove _ result => some (.val result)

/-- The result of a call that has taken effect. -/
def lin (s : SkipHeap T K V) : Call K V → Pc T V → Option (Answer V)
  | _, .linkTop _ _ _ => some (.flag true)
  | _, .linkMark _ _ _ => some (.flag true)
  | _, .linkCas _ _ _ => some (.flag true)
  | _, .cleanup c _ _ => c.lin
  | _, .cleanupNext c _ _ _ _ => c.lin
  | _, .cleanupKey c _ _ _ _ _ => c.lin
  | _, .cleanupCas c _ _ _ _ => c.lin
  | _, .cleanupEq c _ => c.lin
  | _, .removeVal nodeDel => some (.val (s.val nodeDel))
  | _, .removeFree _ result => some (.val result)
  | _, .done r => some r
  | _, _ => none

/-- What a step does: it is one of the writes, it establishes the next
assertion, and it changes the map only where the call takes effect. -/
structure StepOk (levelmax : ℕ) (t : T) (S W : Set (SkipHeap T K V)) (s : SkipHeap T K V)
    (op : Call K V) (l : Pc T V) (q : SkipHeap T K V × Pc T V) : Prop where
  act : Act t S s q.1
  next : At levelmax t (insert q.1 S) (insert q.1 W) q.1 op q.2
  point : (lin q.1 op q.2 = lin s op l ∧ absMap q.1 = absMap s) ∨
    (lin s op l = none ∧ ∃ r, lin q.1 op q.2 = some r ∧
      (mapObject K V).apply op (absMap s) = (absMap q.1, r))

/-- A step that only reads. -/
theorem StepOk.read {l l' : Pc T V} (w : Wf levelmax S s) (hs : s ∈ W)
    (h : At levelmax t S W s op l') (hl : lin s op l' = lin s op l) :
    StepOk levelmax t S W s op l (s, l') := by
  refine ⟨.skip, ?_, Or.inl ⟨hl, rfl⟩⟩
  rw [Set.insert_eq_of_mem w.mem, Set.insert_eq_of_mem hs]
  exact h

section step

variable (hpos : 0 < levelmax) (w : Wf levelmax S s) (hs : s ∈ W) (hW : W ⊆ S) (hh : Hind W s)
  (hb : ⊥ < op.key) (ht : op.key < ⊤) {level : ℕ} (hlevel : 0 < level ∧ level ≤ levelmax)

include w hs hW hh hb ht

theorem step_ok_left {l : Pc T V} (h : At levelmax t S W s op l)
    (hl : (∃ a i, l = .left a i) ∨ (∃ a b i, l = .leftKey a b i) ∨ (∃ a b i, l = .leftCond a b i) ∨
      (∃ a b i, l = .leftMark a b i) ∨ (∃ a b i, l = .leftNext a b i) ∨
      (∃ a b i, l = .leftEq a b i) ∨ (∃ a, l = .searchEq a) ∨ ∃ a, l = .searchVal a) :
    StepOk levelmax t S W s op l (step levelmax level t s op l) := by
  rcases hl with ⟨a, i, rfl⟩ | ⟨a, b, i, rfl⟩ | ⟨a, b, i, rfl⟩ | ⟨a, b, i, rfl⟩ | ⟨a, b, i, rfl⟩ |
    ⟨a, b, i, rfl⟩ | ⟨a, rfl⟩ | ⟨a, rfl⟩
  · obtain ⟨h1, h2⟩ := h
    exact .read w hs ⟨h1, h2, h2.next w hW hh⟩ rfl
  · obtain ⟨h1, h2, h3⟩ := h
    by_cases hlt : s.key b < op.key
    · simp only [step, hlt, if_true]
      exact .read w hs ⟨h1, h2, ⟨h3.1, w.ne_tail_of_lt hlt, fun hi => ⟨(h3.2 hi).1, Or.inl hlt⟩⟩,
        Or.inl hlt⟩ rfl
    · simp only [step, hlt, if_false]
      exact .read w hs ⟨h1, h2, h3, not_lt.mp hlt⟩ rfl
  · obtain ⟨h1, h2, h3, h4⟩ := h
    by_cases hm : s.Marked b i
    · simp only [step, isMarked, show (s.next b i).mark = true from hm, if_true]
      exact .read w hs ⟨h1, h2, h3.marked w hW hh hm, Or.inr hm⟩ rfl
    · simp only [step, isMarked, show (s.next b i).mark = false by simpa [Marked] using hm]
      exact .read w hs ⟨h1, h2, h3, h4, fun he => h3.1.someSeen w hm hs he hb ht⟩ rfl
  · obtain ⟨h1, h2, h3, h4⟩ := h
    by_cases hm : s.Marked b i
    · simp only [step, isMarked, show (s.next b i).mark = true from hm]
      exact .read w hs ⟨h1, h2, h3⟩ rfl
    · simp only [step, isMarked, show (s.next b i).mark = false by simpa [Marked] using hm]
      exact .read w hs ⟨h1, ⟨h3.1, h4.resolve_right hm, h3.1.pub_now w hm hs⟩, h3⟩ rfl
  · obtain ⟨h1, h2, h3⟩ := h
    exact .read w hs ⟨h1, h2, h3.next w hW hh⟩ rfl
  · obtain ⟨h1, h2, h3, h4, h5⟩ := h
    by_cases he : s.key b = op.key
    · simp only [step, he, if_true]
      exact .read w hs ⟨h1, h3.1.1, h5, fun h => absurd he h⟩ rfl
    · simp only [step, he, if_false]
      cases i with
      | zero =>
        exact .read w hs ⟨h1, h3.1.1, h5, fun _ => h3.noneSeen (lt_of_le_of_ne h4 (Ne.symm he))⟩ rfl
      | succ i => exact .read w hs ⟨h1, h2.down i.le_succ⟩ rfl
  · obtain ⟨⟨k, rfl⟩, h2, h3, h4⟩ := h
    by_cases he : s.key a = (Call.search k : Call K V).key
    · rw [step, if_pos he]
      exact .read w hs ⟨⟨k, rfl⟩, h2, h3 he⟩ rfl
    · rw [step, if_neg he]
      obtain ⟨s₀, hs₀, h0⟩ := h4 he
      exact .read w hs ⟨s₀, hs₀, apply_search_none h0⟩ rfl
  · obtain ⟨⟨k, rfl⟩, h2, s₀, hs₀, h0⟩ := h
    exact .read w hs ⟨s₀, hs₀, apply_search_some h0⟩ rfl

/-- The arrays after a level. -/
theorem at_noCleanupLevel {left right : Ptr T} {i : ℕ} {lists : Lists T}
    (h1 : Stand W S s op.key i left) (h2 : Came W S s op.key i right) (h3 : Pub W right)
    (h4 : s.key right = op.key → SomeSeen W op.key (s.val right))
    (h5 : Fills levelmax S s op (i + 1) lists) (hle : op.key ≤ s.key right) :
    At levelmax t S W s op (noCleanupLevel op left right i lists) ∧
      lin s op (noCleanupLevel op left right i lists) = none := by
  have hfill : Fills levelmax S s op i (lists.record op i left right) := by
    rcases h5 with ⟨⟨k, v, rfl⟩, h5⟩ | ⟨k, rfl⟩
    · refine Or.inl ⟨⟨k, v, rfl⟩, fun j hij hj => ?_⟩
      rcases hij.eq_or_lt with rfl | hij
      · simp only [Lists.record, Lists.set, Function.update_self]
        exact ⟨⟨h1.1, h1.2.1⟩, h2.1, hle⟩
      · simp only [Lists.record, Lists.set, Function.update_of_ne hij.ne']
        exact h5 j hij hj
    · exact Or.inr ⟨k, rfl⟩
  cases i with
  | zero =>
    refine ⟨⟨h2, hle, h3, h4, hfill, ?_⟩, rfl⟩
    cases op <;> exact Function.update_self 0 right lists.succs
  | succ i => exact ⟨⟨h1.down i.le_succ, hfill⟩, rfl⟩

include hpos

theorem step_ok_no_cleanup {l : Pc T V} (h : At levelmax t S W s op l)
    (hl : (∃ a i x, l = .noCleanup a i x) ∨ (∃ a b i x, l = .noCleanupMark a b i x) ∨
      (∃ a b i x, l = .noCleanupKey a b i x) ∨ (∃ a b i x, l = .noCleanupNext a b i x) ∨
      ∃ b x, l = .found b x) :
    StepOk levelmax t S W s op l (step levelmax level t s op l) := by
  rcases hl with ⟨a, i, x, rfl⟩ | ⟨a, b, i, x, rfl⟩ | ⟨a, b, i, x, rfl⟩ | ⟨a, b, i, x, rfl⟩ |
    ⟨b, x, rfl⟩
  · obtain ⟨h1, h2⟩ := h
    exact .read w hs ⟨h1, h1.next w hW hh, h2⟩ rfl
  · obtain ⟨h1, h2, h3⟩ := h
    by_cases hm : s.Marked b i
    · simp only [step, isMarked, show (s.next b i).mark = true from hm]
      exact .read w hs ⟨h1, h2.marked w hW hh hm, h3⟩ rfl
    · simp only [step, isMarked, show (s.next b i).mark = false by simpa [Marked] using hm]
      exact .read w hs ⟨h1, h2, h2.1.pub_now w hm hs,
        fun he => h2.1.someSeen w hm hs he hb ht, h3⟩ rfl
  · obtain ⟨h1, h2, h3, h4, h5⟩ := h
    by_cases hle : op.key ≤ s.key b
    · simp only [step, hle, if_true]
      obtain ⟨h6, h7⟩ := at_noCleanupLevel w hs hW hh hb ht h1 h2 h3 h4 h5 hle
      exact .read w hs h6 h7
    · simp only [step, hle, if_false]
      have hlt := not_le.mp hle
      exact .read w hs ⟨⟨h2.1, hlt, h3⟩, ⟨h2.1, w.ne_tail_of_lt hlt,
        fun hi => ⟨(h2.2 hi).1, Or.inl hlt⟩⟩, h5⟩ rfl
  · obtain ⟨h1, h2, h3⟩ := h
    exact .read w hs ⟨h1, h2.next w hW hh, h3⟩ rfl
  · obtain ⟨h1, h2, h3, h4, h5, h6⟩ := h
    rcases h5 with ⟨⟨k, v, rfl⟩, h5⟩ | ⟨k, rfl⟩
    · by_cases he : s.key b = (Call.insert k v).key
      · simp only [step, if_pos he]
        obtain ⟨s₀, hs₀, h0⟩ := h4 he
        exact .read w hs ⟨s₀, hs₀, apply_insert_some h0⟩ rfl
      · simp only [step, if_neg he]
        refine .read w hs ⟨⟨k, v, rfl⟩, h5, hpos, ?_⟩ rfl
        rw [h6]
        exact lt_of_le_of_ne h2 (Ne.symm he)
    · by_cases he : s.key b = (Call.remove k : Call K V).key
      · simp only [step, if_pos he]
        exact .read w hs ⟨⟨k, rfl⟩, h6 ▸ h3, h6 ▸ he, h6 ▸ h1.1.2⟩ rfl
      · simp only [step, if_neg he]
        obtain ⟨s₀, hs₀, h0⟩ := h1.noneSeen (lt_of_le_of_ne h2 (Ne.symm he))
        exact .read w hs ⟨s₀, hs₀, apply_remove_none h0⟩ rfl

include hlevel in
omit hs hW hh hb ht in
theorem step_ok_insert {l : Pc T V} (h : At levelmax t S W s op l) (hs : s ∈ W) (hb : ⊥ < op.key)
    (hl : (∃ x, l = .insertAlloc x) ∨ (∃ n i x, l = .insertFill n i x) ∨
      (∃ n x, l = .insertCas n x) ∨ ∃ n x, l = .insertFree n x) :
    StepOk levelmax t S W s op l (step levelmax level t s op l) := by
  rcases hl with ⟨x, rfl⟩ | ⟨n, i, x, rfl⟩ | ⟨n, x, rfl⟩ | ⟨n, x, rfl⟩
  · obtain ⟨⟨k, v, rfl⟩, h2⟩ := h
    obtain ⟨hact, habs, hp⟩ := allocate_act w t k v level x.succs
    exact ⟨hact, ⟨k, v, level, rfl, Nat.zero_le _, hlevel.1, hlevel.2, hp, h2.step (hact.keeps w)⟩,
      Or.inl ⟨rfl, habs⟩⟩
  · obtain ⟨k, v, m, rfl, h1, h2, h3, h4, h5⟩ := h
    rcases h1.lt_or_eq with hlt | rfl
    · simp only [step, h4.top, hlt, if_true]
      obtain ⟨hact, habs, hp⟩ := h4.fill w
      exact ⟨hact, ⟨k, v, m, rfl, hlt, h2, h3, hp, h5.step (hact.keeps w)⟩, Or.inl ⟨rfl, habs⟩⟩
    · simp only [step, h4.top, lt_irrefl, if_false]
      exact .read w hs ⟨k, v, i, rfl, h2, h3, h4, h5⟩ rfl
  · obtain ⟨k, v, m, rfl, h2, h3, h4, h5, h6, h7⟩ := h
    rcases hc : s.cas (x.preds 0) 0 (unsetMark (x.succs 0).ref) n.ref with ⟨⟨⟩, s'⟩
    · simp only [step, hc]
      rw [cas_false hc]
      exact .read w hs ⟨k, v, rfl⟩ rfl
    · simp only [step, hc]
      obtain ⟨hn, rfl⟩ := cas_true hc
      obtain ⟨hp, -, -⟩ := h5 0 le_rfl h6
      obtain ⟨hact, hpub, hap⟩ := h4.link w h2 hp.1 hp.2
        (fun j hj => (h5 j (Nat.zero_le j) (hj.trans_le h3)).2) h7 hn
      refine ⟨hact, ⟨⟨k, v, rfl⟩, hpub, ?_, ?_, h5.step (hact.keeps w), one_ne_zero, ?_⟩,
        Or.inr ⟨rfl, _, rfl, hap⟩⟩
      · rw [key_setNext]
        exact h4.key
      · rw [toplevel_setNext, h4.top]
        exact h3
      · rw [toplevel_setNext, h4.top]
        exact h2
  · obtain ⟨k, v, rfl⟩ := h
    have hact : Act t S s (s.ssmemFree n) := .free n
    have hw := hact.wf w
    refine ⟨hact, ⟨stand_head hw (Set.mem_insert _ _) hb (Nat.sub_lt hpos one_pos),
      Or.inl ⟨⟨k, v, rfl⟩, fun j hij hj => ?_⟩⟩, Or.inl ⟨rfl, rfl⟩⟩
    omega

omit hW hh ht in
theorem step_ok_link {l : Pc T V} (h : At levelmax t S W s op l)
    (hl : (∃ n i x, l = .linkTop n i x) ∨ (∃ n i x, l = .linkMark n i x) ∨
      ∃ n i x, l = .linkCas n i x) :
    StepOk levelmax t S W s op l (step levelmax level t s op l) := by
  rcases hl with ⟨n, i, x, rfl⟩ | ⟨n, i, x, rfl⟩ | ⟨n, i, x, rfl⟩
  · by_cases hi : i < s.toplevel n
    · simp only [step, hi, if_true]
      exact .read w hs ⟨h, hi⟩ rfl
    · simp only [step, hi, if_false]
      exact .read w hs trivial rfl
  · obtain ⟨h1, h2⟩ := h
    by_cases hm : isMarked (s.next n i) = true
    · simp only [step, hm, if_true]
      exact .read w hs trivial rfl
    · simp only [step, hm]
      exact .read w hs ⟨h1, h2⟩ rfl
  · obtain ⟨⟨h1, h2, h3, h4, h5, h6, h8⟩, h7⟩ := h
    obtain ⟨hp, -, -⟩ := h5 i (Nat.zero_le i) (h7.trans_le h4)
    rcases hc : s.cas (x.preds i) i (x.succs i).ref n.ref with ⟨⟨⟩, s'⟩
    · simp only [step, hc]
      rw [cas_false hc]
      exact .read w hs ⟨⟨⟨h1, h2, h3, h4, h5, h6, h8⟩, h7⟩,
        w.tall_head (Nat.sub_lt hpos one_pos), lt_of_eq_of_lt w.base.head_key hb⟩ rfl
    · simp only [step, hc]
      obtain ⟨hn, rfl⟩ := cas_true hc
      have hact : Act t S s (s.setNext (x.preds i) i n.ref) :=
        .swing h6 (not_marked_of_next hn) hp.1 ⟨h2, h7⟩ (hp.2.trans_eq h3.symm)
      have hins : Inserted levelmax S s op (i + 1) n x := ⟨h1, h2, h3, h4, h5, i.succ_ne_zero, h7⟩
      exact ⟨hact, hins.step (hact.keeps w), Or.inl ⟨rfl, absMap_setNext_of_ne _ h6⟩⟩

/-- A `herlihy_search` begins, or begins again. -/
theorem at_cleanup {c : Caller T V} (h : c.At levelmax S s op) :
    At levelmax t S W s op (.cleanup c .head (levelmax - 1)) :=
  ⟨h, w.tall_head (Nat.sub_lt hpos one_pos), lt_of_eq_of_lt w.base.head_key hb⟩

omit hpos w hs hW hh hb ht in
theorem at_cleanupLevel {c : Caller T V} {left right : Ptr T} {i : ℕ} (h1 : c.At levelmax S s op)
    (h2 : Left S s op.key i left) (h3 : Tall S s i right) (hle : op.key ≤ s.key right) :
    At levelmax t S W s op (cleanupLevel c left right i) ∧
      lin s op (cleanupLevel c left right i) = c.lin := by
  have hc : (c.record i left right).At levelmax S s op := by
    cases c with
    | insert n j x =>
      obtain ⟨⟨h4, h5, h6, h7, h8, h9⟩, h10⟩ := h1
      refine ⟨⟨h4, h5, h6, h7, fun j' hij hj => ?_, h9⟩, h10⟩
      by_cases he : j' = i
      · subst he
        simp only [Lists.set, Function.update_self]
        exact ⟨h2, h3, hle⟩
      · simp only [Lists.set, Function.update_of_ne he]
        exact h8 j' hij hj
    | remove n r => trivial
  have hlin : (c.record i left right).lin = c.lin := by cases c <;> rfl
  cases i with
  | zero => exact ⟨hc, hlin⟩
  | succ i => exact ⟨⟨hc, ⟨h2.1.1, i.lt_succ_self.trans h2.1.2⟩, h2.2⟩, hlin⟩

/-- Swinging `left->next[i]` past the marked nodes up to `right`. -/
theorem cleanup_act {left leftNext right : Ptr T} {i : ℕ} (h1 : Left S s op.key i left)
    (h2 : Tall S s i right) (h3 : i = 0 → MarkedPath s.level0 leftNext right)
    (hle : op.key ≤ s.key right) (hn : s.next left i = leftNext.ref) :
    Act t S s (s.setNext left i right.ref) ∧ absMap (s.setNext left i right.ref) = absMap s := by
  have hk : s.key left < s.key right := h1.2.trans_le hle
  by_cases hi : i = 0
  · subst hi
    have hlt := w.ne_tail_of_lt h1.2
    have hll : Lnk s left := w.lnk h1.1 (not_marked_of_next hn)
    have hsucc : s.level0.succ left = leftNext := HarrisHeap.succ_of_next hn
    have hln : Lnk s leftNext := hsucc ▸ hll.next hlt
    obtain ⟨hlr, hmark⟩ := (h3 rfl).lnk w.base hln
    have hbetween : ∀ x, Lnk s x → s.key left < s.key x → s.key x < s.key right →
        s.level0.Marked x := by
      intro x hx h6 h7
      have h8 := (w.base.sorted.le_or_next_le hll hlt hx).resolve_left (not_le.mpr h6)
      rw [hsucc] at h8
      exact hmark x hx h8 h7
    refine ⟨.splice hn h1.1 h2 hlr hk hbetween, ?_⟩
    rw [absMap, absMap, level0_setNext_zero]
    exact (HarrisHeap.splice_absMap w.base hn h1.1.1 hlr hk hbetween).2
  · exact ⟨.swing hi (not_marked_of_next hn) h1.1 h2 hk, absMap_setNext_of_ne _ hi⟩

theorem step_ok_cleanup {l : Pc T V} (h : At levelmax t S W s op l)
    (hl : (∃ c a i, l = .cleanup c a i) ∨ (∃ c a b x i, l = .cleanupNext c a b x i) ∨
      (∃ c a b x y i, l = .cleanupKey c a b x y i) ∨ (∃ c a b x i, l = .cleanupCas c a b x i) ∨
      ∃ c x, l = .cleanupEq c x) :
    StepOk levelmax t S W s op l (step levelmax level t s op l) := by
  rcases hl with ⟨c, a, i, rfl⟩ | ⟨c, a, b, x, i, rfl⟩ | ⟨c, a, b, x, y, i, rfl⟩ |
    ⟨c, a, b, x, i, rfl⟩ | ⟨c, x, rfl⟩
  · obtain ⟨h1, h2⟩ := h
    by_cases hm : isMarked (s.next a i) = true
    · simp only [step, hm, if_true]
      exact .read w hs (at_cleanup hpos w hs hW hh hb ht h1) rfl
    · simp only [step, hm]
      have hnext := w.tower h2.1 (w.ne_tail_of_lt h2.2)
      exact .read w hs ⟨h1, h2, hnext, hnext, fun _ => .refl⟩ rfl
  · obtain ⟨h1, h2, h3, h4, h5⟩ := h
    by_cases hm : s.Marked x i
    · simp only [step, isMarked, show (s.next x i).mark = true from hm, if_true]
      have hxt : x ≠ .tail := fun he => w.tail_mark i (he ▸ hm)
      refine .read w hs ⟨h1, h2, h3, w.tower h4 hxt, ?_⟩ rfl
      rintro rfl
      exact (h5 rfl).tail ⟨hm, rfl⟩
    · simp only [step, isMarked, show (s.next x i).mark = false by simpa [Marked] using hm]
      exact .read w hs ⟨h1, h2, h3, h4, h5, w.tower h4⟩ rfl
  · obtain ⟨h1, h2, h3, h4, h5, h6⟩ := h
    by_cases hle : op.key ≤ s.key x
    · by_cases hbx : b = x
      · simp only [step, hle, if_true, hbx, ne_eq, not_true_eq_false, if_false]
        obtain ⟨h7, h8⟩ := at_cleanupLevel (t := t) (W := W) h1 h2 h4 hle
        exact .read w hs h7 h8
      · simp only [step, hle, if_true, ne_eq, hbx, not_false_eq_true]
        exact .read w hs ⟨h1, h2, h3, h4, h5, hle⟩ rfl
    · simp only [step, hle, if_false]
      have hlt := not_le.mp hle
      have hy := h6 (w.ne_tail_of_lt hlt)
      exact .read w hs ⟨h1, ⟨h4, hlt⟩, hy, hy, fun _ => .refl⟩ rfl
  · obtain ⟨h1, h2, h3, h4, h5, h6⟩ := h
    rcases hc : s.cas a i b.ref x.ref with ⟨⟨⟩, s'⟩
    · simp only [step, hc]
      rw [cas_false hc]
      exact .read w hs (at_cleanup hpos w hs hW hh hb ht h1) rfl
    · simp only [step, hc]
      obtain ⟨hn, rfl⟩ := cas_true hc
      obtain ⟨hact, habs⟩ := cleanup_act (t := t) hpos w hs hW hh hb ht h2 h4 h5 h6 hn
      have hk := hact.keeps w
      have h6' : op.key ≤ (s.setNext a i x.ref).key x := by rw [key_setNext]; exact h6
      obtain ⟨h7, h8⟩ := at_cleanupLevel (t := t) (W := insert (s.setNext a i x.ref) W)
        (caller_step hk h1) (h2.step hk) (h4.step hk) h6'
      exact ⟨hact, h7, Or.inl ⟨h8, habs⟩⟩
  · cases c with
    | insert n i lists => exact .read w hs h rfl
    | remove n r => exact .read w hs trivial rfl

theorem step_ok_remove {l : Pc T V} (h : At levelmax t S W s op l)
    (hl : (∃ n, l = .markTop n) ∨ (∃ n i, l = .markNext n i) ∨ (∃ n i r, l = .markCas n i r) ∨
      (∃ n, l = .removeVal n) ∨ ∃ n r, l = .removeFree n r) :
    StepOk levelmax t S W s op l (step levelmax level t s op l) := by
  rcases hl with ⟨n, rfl⟩ | ⟨n, i, rfl⟩ | ⟨n, i, r, rfl⟩ | ⟨n, rfl⟩ | ⟨n, r, rfl⟩
  · obtain ⟨m, hm⟩ := Nat.exists_eq_succ_of_ne_zero h.2.2.2.ne'
    simp only [step, hm]
    exact .read w hs ⟨h, by omega, fun j _ _ => by omega⟩ rfl
  · obtain ⟨h1, h2, h3⟩ := h
    by_cases hm : s.Marked n i
    · simp only [step, isMarked, show (s.next n i).mark = true from hm, if_true]
      cases i with
      | zero =>
        obtain ⟨⟨k, rfl⟩, h4, h5, -⟩ := h1
        obtain ⟨s₀, hs₀, h0⟩ := noneSeen_of_marked w hW hh h4 hm
        rw [h5] at h0
        exact .read w hs ⟨s₀, hs₀, apply_remove_none h0⟩ rfl
      | succ i =>
        refine .read w hs ⟨h1, i.lt_succ_self.trans h2, fun j hij hj => ?_⟩ rfl
        rcases (Nat.succ_le_of_lt hij).eq_or_lt with rfl | hij
        · exact hm
        · exact h3 j hij hj
    · simp only [step, isMarked, show (s.next n i).mark = false by simpa [Marked] using hm]
      exact .read w hs ⟨h1, h2, h3, by simpa [Marked] using hm⟩ rfl
  · obtain ⟨h1, h2, h3, h4⟩ := h
    obtain ⟨q, m⟩ := r
    obtain rfl : m = false := h4
    rcases hc : s.cas n i (unsetMark ⟨q, false⟩) (setMark ⟨q, false⟩) with ⟨⟨⟩, s'⟩
    · simp only [step, hc]
      rw [cas_false hc]
      exact .read w hs ⟨h1, h2, h3⟩ rfl
    · simp only [step, hc]
      obtain ⟨hn, rfl⟩ := cas_true hc
      have hp := h1.2.1.mono hW
      cases i with
      | zero =>
        obtain ⟨⟨k, rfl⟩, h5, h6, -⟩ := h1
        obtain ⟨hact, hap⟩ := w.mark_act (t := t) (q := q) hp h2 h6 hb ht h3 hn
        refine ⟨hact, ⟨⟨k, rfl⟩, hp.insert _⟩, Or.inr ⟨rfl, _, rfl, hap.trans ?_⟩⟩
        exact congrArg (fun v => (_, Answer.val v)) (val_step (hact.keeps w) hp).symm
      | succ i =>
        have hact : Act t S s (s.setNext n (i + 1) (setMark q.ref)) := .mark hn ⟨hp, h2⟩
          (w.ne_head_of_lt (k := ⊥) (by rw [h1.2.2.1]; exact hb))
          (w.ne_tail_of_lt (k := ⊤) (by rw [h1.2.2.1]; exact ht)) h3
        have hk := hact.keeps w
        refine ⟨hact, ⟨h1.step hk hW, ?_, fun j hij hj => ?_⟩,
          Or.inl ⟨rfl, absMap_setNext_of_ne _ i.succ_ne_zero⟩⟩
        · rw [toplevel_setNext]
          exact i.lt_succ_self.trans h2
        · rw [toplevel_setNext] at hj
          rcases (Nat.succ_le_of_lt hij).eq_or_lt with rfl | hij
          · rw [Marked, next_setNext_self]
            rfl
          · exact marked_step hk hp (h3 j hij hj)
  · obtain ⟨⟨k, rfl⟩, h2⟩ := h
    exact .read w hs (at_cleanup hpos w hs hW hh hb ht (c := .remove n (s.val n)) trivial) rfl
  · exact ⟨.free n, trivial, Or.inl ⟨rfl, rfl⟩⟩

include hlevel in
/-- **Every step is one of the writes, and leads to the next assertion.** -/
theorem step_ok {l : Pc T V} (h : At levelmax t S W s op l) (hr : result l = none) :
    StepOk levelmax t S W s op l (step levelmax level t s op l) := by
  cases l
  case left | leftKey | leftCond | leftMark | leftNext | leftEq | searchEq | searchVal =>
    exact step_ok_left w hs hW hh hb ht h (by simp)
  case noCleanup | noCleanupMark | noCleanupKey | noCleanupNext | found =>
    exact step_ok_no_cleanup hpos w hs hW hh hb ht h (by simp)
  case insertAlloc | insertFill | insertCas | insertFree =>
    exact step_ok_insert hpos w hlevel h hs hb (by simp)
  case linkTop | linkMark | linkCas => exact step_ok_link hpos w hs hb h (by simp)
  case cleanup | cleanupNext | cleanupKey | cleanupCas | cleanupEq =>
    exact step_ok_cleanup hpos w hs hW hh hb ht h (by simp)
  case markTop | markNext | markCas | removeVal | removeFree =>
    exact step_ok_remove hpos w hs hW hh hb ht h (by simp)
  case done => cases hr
  case unchanged => cases hr

end step

theorem lin_step {l : Pc T V} (h : At levelmax u S W s op l) (hk : Keeps t S s s') :
    lin s' op l = lin s op l := by
  cases l
  case removeVal => simp [lin, val_step hk h.2]
  all_goals rfl

theorem start_at (hpos : 0 < levelmax) (w : Wf levelmax S s) (h : Keyed op) :
    At levelmax t S {s} s op (start levelmax op) ∧ lin s op (start levelmax op : Pc T V) = none := by
  have hst : Stand {s} S s op.key (levelmax - 1) .head :=
    stand_head w rfl h.1 (Nat.sub_lt hpos one_pos)
  cases op with
  | search k => exact ⟨⟨⟨k, rfl⟩, hst⟩, rfl⟩
  | insert k v => exact ⟨⟨hst, Or.inl ⟨⟨k, v, rfl⟩, fun j hij hj => by omega⟩⟩, rfl⟩
  | remove k => exact ⟨⟨hst, Or.inr ⟨k, rfl⟩⟩, rfl⟩

/-! ### The runs -/

variable [Nontrivial K]

/-- The assertions hold for any clients that keep to the keys. -/
def outline {pre : Call K V → Prop} (hpos : 0 < levelmax) (hpre : ∀ op, pre op → Keyed op) :
    Outline { program T K V levelmax with pre := pre } (fun _ _ _ _ => True) (fun _ _ => False) where
  glob es s := Wf levelmax (Program.seen { program T K V levelmax with pre := pre } es) s
  loc t W₀ W s op l := W ⊆ W₀ ∧ Hind W s ∧ Keyed op ∧ At levelmax t W₀ W s op l
  pair _ _ := True
  pair_symm := id
  init := .initial levelmax
  frame := by
    intro es s e th hg _
    rw [Program.seen, Set.insert_eq_of_mem hg.mem]
    exact hg
  call t hg hs hp := ⟨Set.singleton_subset_iff.mpr hs,
    by rw [Hind, Set.image_singleton]; exact .singleton _, hpre _ hp,
    (start_at hpos hg (hpre _ hp)).1⟩
  call_pair := trivial
  tau := by
    intro es c t op l i s' l' hr ht hres hstep _ hw hl
    obtain ⟨hW, hh, hc, hat⟩ := hl
    have hok := step_ok hpos hw (hr.shared_mem_window _ ht) hW hh hc.1 hc.2
      ⟨Nat.succ_pos i, i.2⟩ hat hres
    rw [show step levelmax (i + 1) t c.shared op l = (s', l') from Option.some.inj hstep] at hok
    rw [extend_of_not id]
    refine ⟨hok.act.wf hw, ⟨Set.insert_subset_insert hW, hok.act.hindsight hw hW hh, hc, hok.next⟩,
      fun u op₁ l₁ hu _ hl₁ _ => ⟨?_, trivial⟩⟩
    obtain ⟨hW₁, hh₁, hc₁, hat₁⟩ := hl₁
    exact ⟨Set.insert_subset_insert hW₁, hok.act.hindsight hw hW₁ hh₁, hc₁,
      hat₁.step hw hW₁ hu (hok.act.keeps hw)⟩

section

variable {pre : Call K V → Prop} (hpos : 0 < levelmax) (hpre : ∀ op, pre op → Keyed op)
  {es : Trace T (Call K V) (Answer V) (SkipHeap T K V) (Pc T V)}
  {c : Config T (Call K V) (SkipHeap T K V) (Pc T V)}
  (hr : Program.Run { program T K V levelmax with pre := pre } es c)

include hpos hpre hr

theorem step_ok_of_run {l : Pc T V} (i : Fin levelmax) (ht : c.threads t = some (op, l))
    (hres : result l = none) :
    StepOk levelmax t (Program.seen { program T K V levelmax with pre := pre } es) (since t es)
      c.shared op l (step levelmax (i + 1) t c.shared op l) := by
  obtain ⟨hW, hh, hc, hat⟩ := ((outline hpos hpre).holds hr).loc t op l ht
  exact step_ok hpos ((outline hpos hpre).holds hr).glob (hr.shared_mem_window _ ht) hW hh hc.1
    hc.2 ⟨Nat.succ_pos i, i.2⟩ hat hres

end

variable (hpos : 0 < levelmax)

include hpos

theorem linearizable [Fintype T] :
    Linearizable (mapObject K V) (program T K V levelmax) absMap :=
  Concur.linearizable <| (outline hpos fun _ h => h.keyed).points lin (empty_absMap levelmax)
    (fun s op => by cases op <;> rfl)
    (fun {es c t op l i s' l'} hr hh ht hres hstep _ => by
      have hok := step_ok_of_run hpos (fun _ h => h.keyed) hr i ht hres
      rw [show step levelmax (i + 1) t c.shared op l = (s', l') from Option.some.inj hstep] at hok
      refine ⟨hok.point, fun u op₁ l₁ hu hc => ?_⟩
      exact lin_step (hh.loc u op₁ l₁ hc).2.2.2 (hok.act.keeps hh.glob))
    fun {es c t op l r} hr hh ht hres => by
      obtain ⟨-, -, -, hat⟩ := hh.loc t op l ht
      cases l <;> cases hres
      case done => exact Or.inl rfl
      case unchanged => exact Or.inr ⟨rfl, hat⟩

/-- **The lock-free skip list is a map.** Its calls are linearizable to the
map of the keys whose node is linked at level 0 without a mark there. -/
theorem herlihy_lf_linearizable [Fintype T] [DecidableEq V] :
    Linearizable (mapObject K V) (program T K V levelmax) absMap ∧
    ∀ es c, (program T K V levelmax).Run es c → {k | absMap c.shared k ≠ none}.Finite ∧
      ∀ k, absMap c.shared k ≠ none ↔ ∃ x, Lnk c.shared x ∧ ¬ c.shared.Marked x 0 ∧
        (x ≠ .head ∧ x ≠ .tail) ∧ c.shared.key x = k := by
  refine ⟨linearizable hpos, fun es c hr => ⟨LinearizableIf.finite (linearizable hpos)
    (fun _ _ h => h.2.2 _ _ rfl) hr, fun k => ?_⟩⟩
  rw [absMap, NodeView.absMap_ne_none]
  refine exists_congr fun x => ⟨?_, ?_⟩
  · rintro ⟨⟨h1, h2, h3⟩, h4⟩
    exact ⟨h1, h2, h3, h4⟩
  · rintro ⟨h1, h2, h3, h4⟩
    exact ⟨⟨h1, h2, h3⟩, h4⟩

omit hpos in
/-- Three threads, keys 1 to 8, and nodes of up to four levels. -/
theorem herlihy_lf_linearizable_three :
    Linearizable (mapObject (Fin 10) ℕ) (program (Fin 3) (Fin 10) ℕ 4) absMap :=
  (herlihy_lf_linearizable (by decide)).1

end SkiplistHerlihyLF

end Ascylib
