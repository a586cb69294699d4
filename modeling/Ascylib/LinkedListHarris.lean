/-
# The Harris list

`src/algorithms/linkedlist_harris.h`, one local state for each access to
shared memory. `harris_search` looks for two neighbours around the key and
unlinks the whole stretch of marked nodes between them with one CAS; it
returns by three ways out of its loops. All three calls go through it.

Key theorems: `harris_search_window` (what a returning `harris_search` saw at
one moment) and `harris_linearizable`.
-/
import Ascylib.HarrisOutline

set_option linter.unusedSectionVars false

namespace Ascylib

open Concur Chain

namespace LinkedListHarris

variable {T K V : Type*} [DecidableEq T] [LinearOrder K]

/-- What a call does with the nodes that `harris_search` returns; `insert`
has the `newnode` of an earlier round or `NULL`, `unlink` is the search at
the end of `harris_remove`. -/
inductive Caller (T V : Type*) where
  | find
  | insert (newnode : Ptr T)
  | remove
  | unlink (ret : V)

/-- Where a call is, with the local variables that are live there. -/
inductive Pc (T V : Type*) where
  /-- `harris_search`: `t = head; t_next = head->next` -/
  | search (c : Caller T V) (left leftNext : Ptr T)
  /-- the body of the inner loop, and `!t->next` for the new `t` -/
  | scan (c : Caller T V) (left leftNext t : Ptr T) (tNext : Ref T)
  /-- `t_next = t->next`, and `is_marked_ref(t_next)` -/
  | readNext (c : Caller T V) (left leftNext t : Ptr T)
  /-- `t->key < key` -/
  | testKey (c : Caller T V) (left leftNext t : Ptr T) (tNext : Ref T)
  /-- `right_node->next &&` -/
  | testNull (c : Caller T V) (left leftNext right : Ptr T)
  /-- `is_marked_ref(right_node->next)` -/
  | testMark (c : Caller T V) (left leftNext right : Ptr T)
  /-- `ATOMIC_CAS_MB(&left_node->next, left_node_next, right_node)` -/
  | cas (c : Caller T V) (left leftNext right : Ptr T)
  /-- `cur = get_unmarked_ref(cur->next)` -/
  | freeNext (c : Caller T V) (left leftNext right cur : Ptr T)
  /-- `ssmem_free(alloc, node_to_free)`, and `cur != right_node` -/
  | free (c : Caller T V) (left leftNext right nodeToFree cur : Ptr T)
  /-- `return right_node` from `harris_search` -/
  | searched (c : Caller T V) (left right : Ptr T)
  /-- `harris_find`: `right_node->next == NULL` -/
  | findNull (right : Ptr T)
  /-- `right_node->key != key` -/
  | findKey (right : Ptr T)
  /-- `return right_node->val` -/
  | findVal (right : Ptr T)
  /-- `harris_insert`: `right_node->key == key` -/
  | insertEq (left right newnode : Ptr T)
  /-- `ssmem_free(alloc, newnode)`, before `return 0` -/
  | insertFree (newnode : Ptr T)
  /-- `newnode = allocate_ll_simple(key, val, right_node)` -/
  | insertAlloc (left right : Ptr T)
  /-- `newnode->next = right_node` -/
  | insertNext (left right newnode : Ptr T)
  /-- `ATOMIC_CAS_MB(&left_node->next, right_node, newnode)` -/
  | insertCas (left right newnode : Ptr T)
  /-- `harris_remove`: `right_node->key != key` -/
  | removeEq (left right : Ptr T)
  /-- `right_node_next = right_node->next` -/
  | removeNext (left right : Ptr T)
  /-- `ATOMIC_CAS_MB(&right_node->next, right_node_next, get_marked_ref(right_node_next))` -/
  | removeCas (left right : Ptr T) (rightNext : Ref T)
  /-- `ret = right_node->val` -/
  | removeVal (left right : Ptr T) (rightNext : Ref T)
  /-- `ATOMIC_CAS_MB(&left_node->next, right_node, right_node_next)` -/
  | finalCas (left right : Ptr T) (rightNext : Ref T) (ret : V)
  /-- `ssmem_free(alloc, get_unmarked_ref(right_node))` -/
  | finalFree (right : Ptr T) (ret : V)
  /-- `return r` from a call that took effect -/
  | done (r : Answer V)
  /-- `return r` from a call that changed nothing -/
  | unchanged (r : Answer V)

variable [Zero V]

def start : Call K V → Pc T V
  | .search _ => .search .find .head .head
  | .insert _ _ => .search (.insert .null) .head .head
  | .remove _ => .search .remove .head .head

/-- `left_node_next == right_node`, and where it leads. -/
def compare (c : Caller T V) (left leftNext right : Ptr T) : Pc T V :=
  if leftNext = right then .testNull c left leftNext right else .cas c left leftNext right

/-- The null pointer, as a `next` word. -/
def isNull (r : Ref T) : Bool := r.ptr = .null && !r.mark

/-- The next access to shared memory of thread `me`, and what follows from it. -/
def step (me : T) (s : Heap T K V) (op : Call K V) : Pc T V → Heap T K V × Pc T V
  | .search c left leftNext => (s, .scan c left leftNext .head (s.next .head))
  | .scan c left leftNext t tNext =>
    let (left, leftNext) := if !isMarkedRef tNext then (t, tNext.ptr) else (left, leftNext)
    let t := (getUnmarkedRef tNext).ptr
    (s, if isNull (s.next t) then compare c left leftNext t else .readNext c left leftNext t)
  | .readNext c left leftNext t =>
    (s, if isMarkedRef (s.next t) then .scan c left leftNext t (s.next t)
      else .testKey c left leftNext t (s.next t))
  | .testKey c left leftNext t tNext =>
    (s, if s.key t < op.key then .scan c left leftNext t tNext else compare c left leftNext t)
  | .testNull c left leftNext right =>
    (s, if isNull (s.next right) then .searched c left right else .testMark c left leftNext right)
  | .testMark c left leftNext right =>
    (s, if isMarkedRef (s.next right) then .search c left leftNext else .searched c left right)
  | .cas c left leftNext right =>
    match s.cas left leftNext.ref right.ref with
    | (true, s') => (s', .freeNext c left leftNext right leftNext)
    | (false, s') => (s', .search c left leftNext)
  | .freeNext c left leftNext right cur =>
    (s, .free c left leftNext right cur (getUnmarkedRef (s.next cur)).ptr)
  | .free c left leftNext right nodeToFree cur =>
    (s.ssmemFree nodeToFree,
      if cur ≠ right then .freeNext c left leftNext right cur else .testNull c left leftNext right)
  | .searched .find _ right => (s, .findNull right)
  | .searched (.insert newnode) left right => (s, .insertEq left right newnode)
  | .searched .remove left right => (s, .removeEq left right)
  | .searched (.unlink ret) _ _ => (s, .done (.val ret))
  | .findNull right =>
    (s, if isNull (s.next right) then .unchanged (.val 0) else .findKey right)
  | .findKey right =>
    (s, if s.key right ≠ op.key then .unchanged (.val 0) else .findVal right)
  | .findVal right => (s, .unchanged (.val (s.val right)))
  | .insertEq left right newnode =>
    (s, if s.key right = op.key then
        if newnode ≠ .null then .insertFree newnode else .unchanged (.flag false)
      else if newnode = .null then .insertAlloc left right else .insertNext left right newnode)
  | .insertFree newnode => (s.ssmemFree newnode, .unchanged (.flag false))
  | .insertAlloc left right =>
    match op with
    | .insert key val =>
      let (s', newnode) := s.allocateLlSimple me key val right
      (s', .insertCas left right newnode)
    | _ => (s, .insertAlloc left right)
  | .insertNext left right newnode =>
    (s.setNext newnode right.ref, .insertCas left right newnode)
  | .insertCas left right newnode =>
    match s.cas left right.ref newnode.ref with
    | (true, s') => (s', .done (.flag true))
    | (false, s') => (s', .search (.insert newnode) left .head)
  | .removeEq left right =>
    (s, if s.key right ≠ op.key then .unchanged (.val 0) else .removeNext left right)
  | .removeNext left right =>
    (s, if !isMarkedRef (s.next right) then .removeCas left right (s.next right)
      else .search .remove left .head)
  | .removeCas left right rightNext =>
    match s.cas right rightNext (getMarkedRef rightNext) with
    | (true, s') => (s', .removeVal left right rightNext)
    | (false, s') => (s', .search .remove left .head)
  | .removeVal left right rightNext => (s, .finalCas left right rightNext (s.val right))
  | .finalCas left right rightNext ret =>
    match s.cas left right.ref rightNext with
    | (true, s') => (s', .finalFree right ret)
    | (false, s') => (s', .search (.unlink ret) left .head)
  | .finalFree right ret => (s.ssmemFree right, .done (.val ret))
  | .done r => (s, .done r)
  | .unchanged r => (s, .unchanged r)

def result : Pc T V → Option (Answer V)
  | .done r => some r
  | .unchanged r => some r
  | _ => none

/-- The list, for clients that keep to keys strictly between the sentinels'
and values other than 0. -/
def program (T K V : Type*) [DecidableEq T] [LinearOrder K] [BoundedOrder K] [Zero V] :
    Program T (Call K V) (Answer V) (Heap T K V) (Pc T V) Unit where
  init := Heap.empty
  pre := Client
  start := start
  step _ t s op l := some (step t s op l)
  result := result

/-! ### What holds at each point of a call -/

open HarrisHeap

variable [BoundedOrder K] {me u : T} {S W : Set (Heap T K V)} {s s' : Heap T K V} {op : Call K V}

/-- The caller's own part: which call it is, and a node kept from an earlier
round. -/
def Caller.At (me : T) (S : Set (Heap T K V)) (s : Heap T K V) (op : Call K V) : Caller T V → Prop
  | .find => ∃ k, op = .search k
  | .insert newnode => ∃ k v, op = .insert k v ∧
      (newnode = .null ∨ ∃ q, Private me S s k v q newnode)
  | .remove => ∃ k, op = .remove k
  | .unlink _ => True

/-- The left node pointed to `q` at some moment of the window; if `q` was
marked then, it still is. -/
def Left (W : Set (Heap T K V)) (s : Heap T K V) (k : K) (left q : Ptr T) : Prop :=
  s.key left < k ∧ ∃ s₀ ∈ W, Lnk s₀ left ∧ s₀.next left = q.ref ∧ (s₀.Marked q → s.Marked q)

/-- From `a` to `b` over marked nodes. -/
def MarkedPath (s : Heap T K V) (a b : Ptr T) : Prop :=
  Relation.ReflTransGen (fun x y => s.Marked x ∧ s.succ x = y) a b

/-- What `harris_search` returns: at some moment of the window the left node
pointed to the right one, which was not marked, and the key lay between. -/
def Found (W : Set (Heap T K V)) (s : Heap T K V) (k : K) (left right : Ptr T) : Prop :=
  s.key left < k ∧ k ≤ s.key right ∧
    ∃ s₀ ∈ W, Lnk s₀ left ∧ s₀.next left = right.ref ∧ ¬ s₀.Marked right

/-- The assertion at each local state, for thread `me` in call `op`, in a run
through the memories `S` of which `W` since `harris_search` began. -/
def At (me : T) (S W : Set (Heap T K V)) (s : Heap T K V) (op : Call K V) : Pc T V → Prop
  | .search c _ _ => c.At me S s op
  | .scan c left leftNext t tNext => c.At me S s op ∧ Pub S t ∧ t ≠ .tail ∧ Pub S tNext.ptr ∧
      (tNext.mark = false → Left W s op.key t tNext.ptr) ∧
      (tNext.mark = true → Left W s op.key left leftNext ∧ MarkedPath s leftNext tNext.ptr)
  | .readNext c left leftNext t => c.At me S s op ∧ Pub S t ∧ t ≠ .tail ∧
      Left W s op.key left leftNext ∧ MarkedPath s leftNext t
  | .testKey c left leftNext t tNext => c.At me S s op ∧ Pub S t ∧ t ≠ .tail ∧ Pub S tNext.ptr ∧
      Left W s op.key left leftNext ∧ MarkedPath s leftNext t ∧ tNext.mark = false ∧
      ∃ s₀ ∈ W, Lnk s₀ t ∧ s₀.next t = tNext ∧ (s₀.Marked tNext.ptr → s.Marked tNext.ptr)
  | .testNull c left _ right => c.At me S s op ∧ Pub S right ∧ op.key ≤ s.key right ∧
      Left W s op.key left right
  | .testMark c left _ right => c.At me S s op ∧ Pub S right ∧ op.key ≤ s.key right ∧
      Left W s op.key left right
  | .cas c left leftNext right => c.At me S s op ∧ Pub S right ∧ op.key ≤ s.key right ∧
      Left W s op.key left leftNext ∧ MarkedPath s leftNext right
  | .freeNext c left _ right _ => c.At me S s op ∧ Pub S right ∧ op.key ≤ s.key right ∧
      Left W s op.key left right
  | .free c left _ right _ _ => c.At me S s op ∧ Pub S right ∧ op.key ≤ s.key right ∧
      Left W s op.key left right
  | .searched c left right => c.At me S s op ∧ Found W s op.key left right
  | .findNull right => (∃ k, op = .search k) ∧ ∃ left, Found W s op.key left right
  | .findKey right => (∃ k, op = .search k) ∧ ∃ left, Found W s op.key left right
  | .findVal right => (∃ k, op = .search k) ∧ s.key right = op.key ∧
      ∃ left, Found W s op.key left right
  | .insertEq left right newnode => (Caller.insert newnode : Caller T V).At me S s op ∧
      Found W s op.key left right
  | .insertFree _ => ∃ k v w, op = .insert k v ∧ SomeSeen W k w
  | .insertAlloc left right => (∃ k v, op = .insert k v) ∧ LeftOf S s op.key left ∧ Pub S right ∧
      op.key < s.key right
  | .insertNext left right newnode => ∃ k v q, op = .insert k v ∧ LeftOf S s k left ∧
      Pub S right ∧ k < s.key right ∧ Private me S s k v q newnode
  | .insertCas left right newnode => ∃ k v, op = .insert k v ∧ LeftOf S s k left ∧
      Pub S right ∧ k < s.key right ∧ Private me S s k v right newnode
  | .removeEq left right => (∃ k, op = .remove k) ∧ Found W s op.key left right
  | .removeNext left right => (∃ k, op = .remove k) ∧ LeftOf S s op.key left ∧ Pub S right ∧
      s.key right = op.key
  | .removeCas left right rightNext => (∃ k, op = .remove k) ∧ LeftOf S s op.key left ∧
      Pub S right ∧ s.key right = op.key ∧ rightNext.mark = false
  | .removeVal left right rightNext => (∃ k, op = .remove k) ∧ LeftOf S s op.key left ∧
      Pub S right ∧ s.Marked right ∧ s.succ right = rightNext.ptr ∧ rightNext.mark = false
  | .finalCas left right rightNext _ => LeftOf S s op.key left ∧ Pub S right ∧ s.Marked right ∧
      s.succ right = rightNext.ptr ∧ rightNext.mark = false
  | .finalFree _ _ => True
  | .done _ => True
  | .unchanged r => ∃ s₀ ∈ W, (mapObject K V).apply op (absMap s₀) = (absMap s₀, r)

/-! ### Steps of other threads keep the assertions -/

section stable

variable {k : K} {left right q a b : Ptr T}

theorem caller_at_congr {c : Caller T V} (h : c.At u S s op)
    (hx : ∀ x, ¬ Pub S x → s'.mem x = s.mem x ∧ ¬ Pub (insert s' S) x)
    (hc : ∀ t, s.count t ≤ s'.count t) : c.At u (insert s' S) s' op := by
  cases c with
  | find => exact h
  | insert newnode =>
    obtain ⟨k, v, h1, h2⟩ := h
    exact ⟨k, v, h1, h2.imp_right fun ⟨q, hq⟩ => ⟨q, hq.congr (hx _) (hc u)⟩⟩
  | remove => exact h
  | unlink ret => trivial

theorem caller_at_step {c : Caller T V} (h : c.At u S s op) (hu : u ≠ me)
    (hk : Keeps me S s s') : c.At u (insert s' S) s' op := by
  cases c with
  | find => exact h
  | insert newnode =>
    obtain ⟨k, v, h1, h2⟩ := h
    exact ⟨k, v, h1, h2.imp_right fun ⟨q, hq⟩ => ⟨q, private_step hq hu hk⟩⟩
  | remove => exact h
  | unlink ret => trivial

theorem marked_step (hk : Keeps me S s s') {x : Ptr T} (hx : Pub S x) (hm : s.Marked x) :
    s'.Marked x := by
  rw [Heap.Marked, Heap.next, hk.frozen x hx hm]
  exact hm

theorem succ_step (hk : Keeps me S s s') {x : Ptr T} (hx : Pub S x) (hm : s.Marked x) :
    s'.succ x = s.succ x := by
  simp only [Heap.succ, Heap.next, hk.frozen x hx hm]

variable (w : Wf S s)

include w

theorem Left.lnk (h : Left W s k left q) :
    ∃ s₀ ∈ W, Lnk s₀ left ∧ Lnk s₀ q ∧ s₀.next left = q.ref := by
  obtain ⟨h1, s₀, hs₀, h2, h3, -⟩ := h
  exact ⟨s₀, hs₀, h2, succ_of_next h3 ▸ h2.next (w.ne_tail_of_lt h1), h3⟩

theorem Found.lnk (h : Found W s k left right) :
    ∃ s₀ ∈ W, Lnk s₀ left ∧ Lnk s₀ right ∧ s₀.next left = right.ref ∧ ¬ s₀.Marked right := by
  obtain ⟨h1, -, s₀, hs₀, h2, h3, h4⟩ := h
  exact ⟨s₀, hs₀, h2, succ_of_next h3 ▸ h2.next (w.ne_tail_of_lt h1), h3, h4⟩

variable (hW : W ⊆ S)

include hW

theorem Left.pub (h : Left W s k left q) : Pub S left ∧ Pub S q := by
  obtain ⟨s₀, hs₀, h1, h2, -⟩ := h.lnk w
  exact ⟨⟨s₀, hW hs₀, h1⟩, s₀, hW hs₀, h2⟩

theorem Found.pub (h : Found W s k left right) : Pub S left ∧ Pub S right := by
  obtain ⟨s₀, hs₀, h1, h2, -⟩ := h.lnk w
  exact ⟨⟨s₀, hW hs₀, h1⟩, s₀, hW hs₀, h2⟩

/-- The neighbours do not hold the key. -/
theorem Found.noneSeen (h : Found W s k left right) (he : s.key right ≠ k) : NoneSeen W k := by
  obtain ⟨s₀, hs₀, h3, h4, h5, -⟩ := h.lnk w
  have hlt := w.ne_tail_of_lt h.1
  refine ⟨s₀, hs₀, mapOf_eq_none.mpr fun y hy => ?_⟩
  refine (w.past s₀ (hW hs₀)).absent h3 hlt ?_ ?_ hy.1
  · rw [(w.const s₀ (hW hs₀) left h3).1]
    exact h.1
  · rw [succ_of_next h5, (w.const s₀ (hW hs₀) right h4).1]
    exact lt_of_le_of_ne h.2.1 (Ne.symm he)

/-- The right node holds the key. -/
theorem Found.someSeen (h : Found W s k left right) (he : s.key right = k) (hb : ⊥ < k) (ht : k < ⊤) :
    SomeSeen W k (s.val right) := by
  obtain ⟨s₀, hs₀, -, h4, -, h6⟩ := h.lnk w
  obtain ⟨hkey, hval⟩ := w.const s₀ (hW hs₀) right h4
  have hu : Unique (Live s₀) s₀.key := fun _ _ hx hy he => (w.past s₀ (hW hs₀)).inj hx.1 hy.1 he
  refine ⟨s₀, hs₀, ?_⟩
  rw [← he, ← hkey, ← hval]
  exact mapOf_eq_some hu ⟨h4, h6, w.ne_head_of_lt (by rw [he]; exact hb),
    w.ne_tail_of_lt (by rw [he]; exact ht)⟩

theorem Left.step (h : Left W s k left q) (hk : Keeps me S s s') :
    Left (insert s' W) s' k left q := by
  obtain ⟨hl, hq⟩ := h.pub w hW
  obtain ⟨h1, s₀, hs₀, h2, h3, h4⟩ := h
  exact ⟨by rw [hk.key left hl]; exact h1, s₀, Set.mem_insert_of_mem _ hs₀, h2, h3,
    fun hm => marked_step hk hq (h4 hm)⟩

theorem Found.step (h : Found W s k left right) (hk : Keeps me S s s') :
    Found (insert s' W) s' k left right := by
  obtain ⟨hl, hr⟩ := h.pub w hW
  obtain ⟨h1, h2, s₀, hs₀, h3⟩ := h
  exact ⟨by rw [hk.key left hl]; exact h1, by rw [hk.key right hr]; exact h2, s₀,
    Set.mem_insert_of_mem _ hs₀, h3⟩

omit hW in
theorem MarkedPath.step (h : MarkedPath s a b) (ha : Pub S a) (hk : Keeps me S s s') :
    MarkedPath s' a b := by
  induction h using Relation.ReflTransGen.head_induction_on with
  | refl => exact .refl
  | @head x y hxy _ ih =>
    obtain ⟨hm, rfl⟩ := hxy
    have hxt : x ≠ .tail := fun h => w.tail_mark (h ▸ hm)
    exact .head ⟨marked_step hk ha hm, succ_step hk ha hm⟩ (ih (w.next x ha hxt).1)

end stable

/-- A step of another thread keeps the assertion. -/
theorem At.step {l : Pc T V} (w : Wf S s) (h : At u S W s op l) (hW : W ⊆ S) (hu : u ≠ me)
    (hk : Keeps me S s s') : At u (insert s' S) (insert s' W) s' op l := by
  have hkey : ∀ {x}, Pub S x → s'.key x = s.key x := fun hx => hk.key _ hx
  cases l with
  | search c left leftNext => exact caller_at_step h hu hk
  | scan c left leftNext t tNext =>
    obtain ⟨h1, h2, h3, h4, h5, h6⟩ := h
    refine ⟨caller_at_step h1 hu hk, h2.insert s', h3, h4.insert s',
      fun hm => (h5 hm).step w hW hk, fun hm => ?_⟩
    obtain ⟨h7, h8⟩ := h6 hm
    exact ⟨h7.step w hW hk, h8.step w (h7.pub w hW).2 hk⟩
  | readNext c left leftNext t =>
    obtain ⟨h1, h2, h3, h4, h5⟩ := h
    exact ⟨caller_at_step h1 hu hk, h2.insert s', h3, h4.step w hW hk,
      h5.step w (h4.pub w hW).2 hk⟩
  | testKey c left leftNext t tNext =>
    obtain ⟨h1, h2, h3, h4, h5, h6, h7, s₀, hs₀, h8, h9, h10⟩ := h
    exact ⟨caller_at_step h1 hu hk, h2.insert s', h3, h4.insert s', h5.step w hW hk,
      h6.step w (h5.pub w hW).2 hk, h7, s₀, Set.mem_insert_of_mem _ hs₀, h8, h9,
      fun hm => marked_step hk h4 (h10 hm)⟩
  | testNull c left leftNext right | testMark c left leftNext right
  | freeNext c left leftNext right cur | free c left leftNext right nodeToFree cur =>
    obtain ⟨h1, h2, h3, h4⟩ := h
    exact ⟨caller_at_step h1 hu hk, h2.insert s', by rw [hkey h2]; exact h3, h4.step w hW hk⟩
  | cas c left leftNext right =>
    obtain ⟨h1, h2, h3, h4, h5⟩ := h
    exact ⟨caller_at_step h1 hu hk, h2.insert s', by rw [hkey h2]; exact h3, h4.step w hW hk,
      h5.step w (h4.pub w hW).2 hk⟩
  | searched c left right => exact ⟨caller_at_step h.1 hu hk, h.2.step w hW hk⟩
  | findNull right | findKey right =>
    obtain ⟨h1, left, h2⟩ := h
    exact ⟨h1, left, h2.step w hW hk⟩
  | findVal right =>
    obtain ⟨h1, h2, left, h3⟩ := h
    exact ⟨h1, by rw [hkey (h3.pub w hW).2]; exact h2, left, h3.step w hW hk⟩
  | insertEq left right newnode => exact ⟨caller_at_step h.1 hu hk, h.2.step w hW hk⟩
  | insertFree newnode =>
    obtain ⟨k, v, x, h1, h2⟩ := h
    exact ⟨k, v, x, h1, h2.insert s'⟩
  | insertAlloc left right =>
    obtain ⟨h1, h2, h3, h4⟩ := h
    exact ⟨h1, h2.step hk, h3.insert s', by rw [hkey h3]; exact h4⟩
  | insertNext left right newnode =>
    obtain ⟨k, v, q, h1, h2, h3, h4, h5⟩ := h
    exact ⟨k, v, q, h1, h2.step hk, h3.insert s', by rw [hkey h3]; exact h4, private_step h5 hu hk⟩
  | insertCas left right newnode =>
    obtain ⟨k, v, h1, h2, h3, h4, h5⟩ := h
    exact ⟨k, v, h1, h2.step hk, h3.insert s', by rw [hkey h3]; exact h4, private_step h5 hu hk⟩
  | removeEq left right => exact ⟨h.1, h.2.step w hW hk⟩
  | removeNext left right =>
    obtain ⟨h1, h2, h3, h4⟩ := h
    exact ⟨h1, h2.step hk, h3.insert s', by rw [hkey h3]; exact h4⟩
  | removeCas left right rightNext =>
    obtain ⟨h1, h2, h3, h4, h5⟩ := h
    exact ⟨h1, h2.step hk, h3.insert s', by rw [hkey h3]; exact h4, h5⟩
  | removeVal left right rightNext =>
    obtain ⟨h1, h2, h3, h4, h5, h6⟩ := h
    exact ⟨h1, h2.step hk, h3.insert s', marked_step hk h3 h4, (succ_step hk h3 h4).trans h5, h6⟩
  | finalCas left right rightNext ret =>
    obtain ⟨h1, h2, h3, h4, h5⟩ := h
    exact ⟨h1.step hk, h2.insert s', marked_step hk h2 h3, (succ_step hk h2 h3).trans h4, h5⟩
  | finalFree right ret => trivial
  | done r => trivial
  | unchanged r =>
    obtain ⟨s₀, hs₀, h1⟩ := h
    exact ⟨s₀, Set.mem_insert_of_mem _ hs₀, h1⟩

/-! ### The steps -/

def Caller.lin : Caller T V → Option (Answer V)
  | .unlink ret => some (.val ret)
  | _ => none

/-- The result of a call that has taken effect. -/
def lin (s : Heap T K V) : Call K V → Pc T V → Option (Answer V)
  | _, .search c _ _ => c.lin
  | _, .scan c _ _ _ _ => c.lin
  | _, .readNext c _ _ _ => c.lin
  | _, .testKey c _ _ _ _ => c.lin
  | _, .testNull c _ _ _ => c.lin
  | _, .testMark c _ _ _ => c.lin
  | _, .cas c _ _ _ => c.lin
  | _, .freeNext c _ _ _ _ => c.lin
  | _, .free c _ _ _ _ _ => c.lin
  | _, .searched c _ _ => c.lin
  | _, .removeVal _ right _ => some (.val (s.val right))
  | _, .finalCas _ _ _ ret => some (.val ret)
  | _, .finalFree _ ret => some (.val ret)
  | _, .done r => some r
  | _, _ => none

/-- `harris_search` begins, or begins again. -/
def reset (_ : Call K V) : Pc T V → Prop
  | .search _ _ _ => True
  | _ => False

def code (T K V : Type*) [DecidableEq T] [LinearOrder K] [BoundedOrder K] [Zero V] :
    Code T K V (Pc T V) where
  At := At
  lin := lin
  reset := reset

abbrev StepOk (me : T) (S W : Set (Heap T K V)) (s : Heap T K V) (op : Call K V) (l : Pc T V)
    (s' : Heap T K V) (l' : Pc T V) : Prop := (code T K V).StepOk me S W s op l s' l'

/-- A step that only reads. -/
theorem StepOk.read {l l' : Pc T V} (w : Wf S s) (hs : s ∈ W) (hr : ¬ reset op l')
    (h : At me S W s op l') (hl : lin s op l' = lin s op l) : StepOk me S W s op l s l' :=
  Code.StepOk.read w hs hr h hl

/-- A step that begins a `harris_search`. -/
theorem StepOk.search {l : Pc T V} {c : Caller T V} {left leftNext : Ptr T} (w : Wf S s)
    (h : c.At me S s op) (hl : c.lin = lin s op l) :
    StepOk me S W s op l s (.search c left leftNext) := by
  refine ⟨.skip, ?_, Or.inl ⟨hl, rfl⟩⟩
  rw [Set.insert_eq_of_mem w.mem]
  exact h

/-- A step that writes. -/
theorem StepOk.write {l l' : Pc T V} (ha : Act me S s s') (hr : ¬ reset op l')
    (h : At me (insert s' S) (insert s' W) s' op l')
    (hp : (lin s' op l' = lin s op l ∧ absMap s' = absMap s) ∨ (lin s op l = none ∧ ∃ r,
      lin s' op l' = some r ∧ (mapObject K V).apply op (absMap s) = (absMap s', r))) :
    StepOk me S W s op l s' l' :=
  ⟨ha, by rw [extend_of_not (show ¬ (code T K V).reset op l' from hr)]; exact h, hp⟩

section step

variable (w : Wf S s) (hs : s ∈ W) (hW : W ⊆ S) (hb : ⊥ < op.key) (ht : op.key < ⊤)

include w

theorem isNull_iff {x : Ptr T} (hx : Pub S x) : isNull (s.next x) = true ↔ x = .tail := by
  constructor
  · intro hn
    by_contra hxt
    have hp := (w.next x hx hxt).1
    have hnull : s.succ x = .null := by
      simp only [isNull, Bool.and_eq_true, decide_eq_true_eq] at hn
      exact hn.1
    rcases w.listed.alloc _ hp with h | h | ⟨t, i, h, -⟩ <;> rw [hnull] at h <;> cases h
  · rintro rfl
    simp [isNull, w.tail_next]

/-- The nodes on a marked path are linked if its first is, and they are the
linked nodes with keys in between. -/
theorem MarkedPath.lnk {a b : Ptr T} (h : MarkedPath s a b) (ha : Lnk s a) :
    Lnk s b ∧ ∀ x, Lnk s x → s.key a ≤ s.key x → s.key x < s.key b → s.Marked x := by
  induction h using Relation.ReflTransGen.head_induction_on with
  | refl => exact ⟨ha, fun x _ h1 h2 => absurd h2 (not_lt.mpr h1)⟩
  | @head y z hyz _ ih =>
    obtain ⟨hm, rfl⟩ := hyz
    have hyt : y ≠ .tail := fun h => w.tail_mark (h ▸ hm)
    obtain ⟨h1, h2⟩ := ih (ha.next hyt)
    refine ⟨h1, fun x hx h3 h4 => ?_⟩
    rcases w.sorted.le_or_next_le ha hyt hx with h5 | h5
    · rwa [← w.sorted.inj ha hx (le_antisymm h3 h5)]
    · exact h2 x hx h5 h4

theorem at_compare {c : Caller T V} {left leftNext right : Ptr T} (h1 : c.At me S s op)
    (h2 : Pub S right) (h3 : op.key ≤ s.key right) (h4 : Left W s op.key left leftNext)
    (h5 : MarkedPath s leftNext right) : At me S W s op (compare c left leftNext right) ∧
      lin s op (compare c left leftNext right) = c.lin ∧
      ¬ reset op (compare c left leftNext right) := by
  unfold compare
  by_cases he : leftNext = right
  · rw [if_pos he]
    exact ⟨⟨h1, h2, h3, he ▸ h4⟩, rfl, id⟩
  · rw [if_neg he]
    exact ⟨⟨h1, h2, h3, h4, h5⟩, rfl, id⟩

theorem at_scanned {c : Caller T V} {left leftNext t : Ptr T} (h1 : c.At me S s op)
    (h2 : Pub S t) (h3 : Left W s op.key left leftNext) (h4 : MarkedPath s leftNext t) :
    At me S W s op
      (if isNull (s.next t) then compare c left leftNext t else .readNext c left leftNext t) ∧
    lin s op (if isNull (s.next t) then compare c left leftNext t
      else .readNext c left leftNext t) = c.lin ∧
    ¬ reset op (if isNull (s.next t) then compare c left leftNext t
      else .readNext c left leftNext t) := by
  by_cases hn : isNull (s.next t) = true
  · simp only [hn, if_true]
    refine at_compare w h1 h2 ?_ h3 h4
    rw [(isNull_iff w h2).mp hn, w.tail_key]
    exact le_top
  · simp only [hn]
    exact ⟨⟨h1, h2, fun h => hn ((isNull_iff w h2).mpr h), h3, h4⟩, rfl, id⟩

include hs hW hb ht

theorem step_ok_cas {c : Caller T V} {left leftNext right : Ptr T}
    (h : At me S W s op (.cas c left leftNext right)) :
    StepOk me S W s op (.cas c left leftNext right) (step me s op (.cas c left leftNext right)).1
      (step me s op (.cas c left leftNext right)).2 := by
  obtain ⟨h1, h2, h3, h4, h5⟩ := h
  rcases hc : s.cas left leftNext.ref right.ref with ⟨⟨⟩, s'⟩
  · simp only [step, hc]
    rw [Heap.cas_false hc]
    exact .search w h1 rfl
  · simp only [step, hc]
    obtain ⟨hn, rfl⟩ := Heap.cas_true hc
    have hpl := (h4.pub w hW).1
    have hlt := w.ne_tail_of_lt h4.1
    have hll : Lnk s left := w.lnk_of_next hpl hn
    have hln : Lnk s leftNext := succ_of_next hn ▸ hll.next hlt
    obtain ⟨hlr, hmark⟩ := h5.lnk w hln
    have hk : s.key left < s.key right := h4.1.trans_le h3
    have hbetween : ∀ x, Lnk s x → s.key left < s.key x → s.key x < s.key right → s.Marked x := by
      intro x hx h6 h7
      have h8 := (w.sorted.le_or_next_le hll hlt hx).resolve_left (not_le.mpr h6)
      rw [succ_of_next hn] at h8
      exact hmark x hx h8 h7
    have hact : Act me S s (s.setNext left right.ref) := .splice hn hpl hlr hk hbetween
    have hkeep := hact.keeps w
    have hll' : Lnk (s.setNext left right.ref) left :=
      (splice_lnk w hn hpl hlr hk left).mpr ⟨hll, Or.inl le_rfl⟩
    refine .write hact id ⟨?_, h2.insert _, by rw [hkeep.key right h2]; exact h3,
      by rw [hkeep.key left hpl]; exact h4.1, _, Set.mem_insert _ _, hll', by simp, id⟩
      (Or.inl ⟨rfl, (splice_absMap w hn hpl hlr hk hbetween).2⟩)
    exact caller_at_congr h1 (fun x hx => splice_private w hn hpl hlr hk hx) fun _ => le_rfl

theorem step_ok_search {l : Pc T V} (h : At me S W s op l)
    (hl : (∃ c a b, l = .search c a b) ∨ (∃ c a b x r, l = .scan c a b x r) ∨
      (∃ c a b x, l = .readNext c a b x) ∨ (∃ c a b x r, l = .testKey c a b x r) ∨
      (∃ c a b x, l = .testNull c a b x) ∨ (∃ c a b x, l = .testMark c a b x) ∨
      (∃ c a b x, l = .cas c a b x) ∨ (∃ c a b x y, l = .freeNext c a b x y) ∨
      ∃ c a b x y z, l = .free c a b x y z) :
    StepOk me S W s op l (step me s op l).1 (step me s op l).2 := by
  rcases hl with ⟨c, a, b, rfl⟩ | ⟨c, a, b, x, r, rfl⟩ | ⟨c, a, b, x, rfl⟩ | ⟨c, a, b, x, r, rfl⟩ |
    ⟨c, a, b, x, rfl⟩ | ⟨c, a, b, x, rfl⟩ | ⟨c, a, b, x, rfl⟩ | ⟨c, a, b, x, y, rfl⟩ |
    ⟨c, a, b, x, y, z, rfl⟩
  · have hht : (.head : Ptr T) ≠ .tail := fun h => by cases h
    have hlt : s.key .head < op.key := by rw [w.head_key]; exact hb
    have hhm : (s.next .head).mark = false := by simpa [Heap.Marked] using w.head_mark
    have hnext : s.next .head = (s.next .head).ptr.ref := by rw [Ptr.ref, ← hhm]
    refine .read w hs id ⟨h, w.pub_head, hht, (w.next _ w.pub_head hht).1, fun _ => ?_, fun hm => ?_⟩ rfl
    · exact ⟨hlt, s, hs, linked_head, hnext, id⟩
    · rw [hhm] at hm
      cases hm
  · obtain ⟨h1, h2, h3, h4, h5, h6⟩ := h
    rcases hm : r.mark with _ | _
    · obtain ⟨h7, h8, h9⟩ := at_scanned w h1 h4 (h5 hm) .refl
      simp only [step, isMarkedRef, hm, getUnmarkedRef]
      exact .read w hs h9 h7 h8
    · obtain ⟨h10, h11⟩ := h6 hm
      obtain ⟨h7, h8, h9⟩ := at_scanned w h1 h4 h10 h11
      simp only [step, isMarkedRef, hm, getUnmarkedRef]
      exact .read w hs h9 h7 h8
  · obtain ⟨h1, h2, h3, h4, h5⟩ := h
    have hpub := (w.next x h2 h3).1
    by_cases hm : s.Marked x
    · have hmt : (s.next x).mark = true := hm
      simp only [step, isMarkedRef, hmt]
      exact .read w hs id ⟨h1, h2, h3, hpub, fun h => absurd (h.symm.trans hmt) Bool.false_ne_true,
        fun _ => ⟨h4, h5.tail ⟨hm, rfl⟩⟩⟩ rfl
    · have hmf : (s.next x).mark = false := by simpa [Heap.Marked] using hm
      simp only [step, isMarkedRef, hmf]
      exact .read w hs id ⟨h1, h2, h3, hpub, h4, h5, hmf, s, hs, w.lnk x h2 hm, rfl, id⟩ rfl
  · obtain ⟨h1, h2, h3, h4, h5, h6, h7, s₀, hs₀, h8, h9, h10⟩ := h
    by_cases hlt : s.key x < op.key
    · simp only [step, hlt, if_true]
      refine .read w hs id ⟨h1, h2, h3, h4, fun _ => ⟨hlt, s₀, hs₀, h8, ?_, h10⟩, fun hm => ?_⟩ rfl
      · rw [h9, Ptr.ref, ← h7]
      · rw [h7] at hm
        cases hm
    · simp only [step, hlt, if_false]
      obtain ⟨h11, h12, h13⟩ := at_compare w h1 h2 (not_lt.mp hlt) h5 h6
      exact .read w hs h13 h11 h12
  · obtain ⟨h1, h2, h3, h4⟩ := h
    by_cases hn : isNull (s.next x) = true
    · simp only [step, hn, if_true]
      obtain rfl := (isNull_iff w h2).mp hn
      obtain ⟨h5, s₀, hs₀, h6, h7, h8⟩ := h4
      exact .read w hs id ⟨h1, h5, h3, s₀, hs₀, h6, h7, fun hm => w.tail_mark (h8 hm)⟩ rfl
    · simp only [step, hn]
      exact .read w hs id ⟨h1, h2, h3, h4⟩ rfl
  · obtain ⟨h1, h2, h3, h4⟩ := h
    by_cases hm : s.Marked x
    · simp only [step, isMarkedRef, show (s.next x).mark = true from hm]
      exact .search w h1 rfl
    · simp only [step, isMarkedRef, show (s.next x).mark = false by simpa [Heap.Marked] using hm]
      obtain ⟨h5, s₀, hs₀, h6, h7, h8⟩ := h4
      exact .read w hs id ⟨h1, h5, h3, s₀, hs₀, h6, h7, fun hm' => hm (h8 hm')⟩ rfl
  · exact step_ok_cas w hs hW hb ht h
  · exact .read w hs id h rfl
  · obtain ⟨h1, h2, h3, h4⟩ := h
    have hact : Act me S s (s.ssmemFree y) := .free y
    have hk := hact.keeps w
    have h1' : c.At me (insert (s.ssmemFree y) S) (s.ssmemFree y) op :=
      caller_at_congr h1 (fun n hn => ⟨rfl, fun h => hn ((w.pub_free y n).mp h)⟩) fun _ => le_rfl
    have h5 : op.key ≤ Heap.key (s.ssmemFree y) x := h3
    by_cases he : z ≠ x
    · rw [step, if_pos he]
      exact .write hact id ⟨h1', h2.insert _, h5, h4.step w hW hk⟩ (Or.inl ⟨rfl, rfl⟩)
    · rw [step, if_neg he]
      exact .write hact id ⟨h1', h2.insert _, h5, h4.step w hW hk⟩ (Or.inl ⟨rfl, rfl⟩)

theorem step_ok_find {l : Pc T V} (h : At me S W s op l)
    (hl : (∃ c a b, l = .searched c a b) ∨ (∃ b, l = .findNull b) ∨ (∃ b, l = .findKey b) ∨
      ∃ b, l = .findVal b) :
    StepOk me S W s op l (step me s op l).1 (step me s op l).2 := by
  rcases hl with ⟨c, a, b, rfl⟩ | ⟨b, rfl⟩ | ⟨b, rfl⟩ | ⟨b, rfl⟩
  · obtain ⟨h1, h2⟩ := h
    cases c with
    | find => exact .read w hs id ⟨h1, a, h2⟩ rfl
    | insert newnode => exact .read w hs id ⟨h1, h2⟩ rfl
    | remove => exact .read w hs id ⟨h1, h2⟩ rfl
    | unlink ret => exact .read w hs id trivial rfl
  · obtain ⟨⟨k, rfl⟩, a, h2⟩ := h
    by_cases hn : isNull (s.next b) = true
    · simp only [step, hn, if_true]
      obtain rfl := (isNull_iff w (h2.pub w hW).2).mp hn
      obtain ⟨s₀, hs₀, h0⟩ := h2.noneSeen w hW (by rw [w.tail_key]; exact ht.ne')
      exact .read w hs id ⟨s₀, hs₀, apply_search_none h0⟩ rfl
    · simp only [step, hn]
      exact .read w hs id ⟨⟨k, rfl⟩, a, h2⟩ rfl
  · obtain ⟨⟨k, rfl⟩, a, h2⟩ := h
    by_cases he : s.key b ≠ (Call.search k : Call K V).key
    · rw [step, if_pos he]
      obtain ⟨s₀, hs₀, h0⟩ := h2.noneSeen w hW he
      exact .read w hs id ⟨s₀, hs₀, apply_search_none h0⟩ rfl
    · rw [step, if_neg he]
      exact .read w hs id ⟨⟨k, rfl⟩, not_not.mp he, a, h2⟩ rfl
  · obtain ⟨⟨k, rfl⟩, h1, a, h2⟩ := h
    obtain ⟨s₀, hs₀, h0⟩ := h2.someSeen w hW h1 hb ht
    exact .read w hs id ⟨s₀, hs₀, apply_search_some h0⟩ rfl

theorem step_ok_insert {l : Pc T V} (h : At me S W s op l)
    (hl : (∃ a b n, l = .insertEq a b n) ∨ (∃ n, l = .insertFree n) ∨
      (∃ a b, l = .insertAlloc a b) ∨ (∃ a b n, l = .insertNext a b n) ∨
      ∃ a b n, l = .insertCas a b n) :
    StepOk me S W s op l (step me s op l).1 (step me s op l).2 := by
  rcases hl with ⟨a, b, n, rfl⟩ | ⟨n, rfl⟩ | ⟨a, b, rfl⟩ | ⟨a, b, n, rfl⟩ | ⟨a, b, n, rfl⟩
  · obtain ⟨⟨k, v, rfl, h1⟩, h2⟩ := h
    obtain ⟨hpa, hpb⟩ := h2.pub w hW
    by_cases he : s.key b = (Call.insert k v).key
    · rw [step, if_pos he]
      obtain ⟨s₀, hs₀, h0⟩ := h2.someSeen w hW he hb ht
      by_cases hn : n ≠ .null
      · rw [if_pos hn]
        exact .read w hs id ⟨k, v, _, rfl, s₀, hs₀, h0⟩ rfl
      · rw [if_neg hn]
        exact .read w hs id ⟨s₀, hs₀, apply_insert_some h0⟩ rfl
    · rw [step, if_neg he]
      have hlt : k < s.key b := lt_of_le_of_ne h2.2.1 (Ne.symm he)
      by_cases hn : n = .null
      · rw [if_pos hn]
        exact .read w hs id ⟨⟨k, v, rfl⟩, ⟨hpa, h2.1⟩, hpb, hlt⟩ rfl
      · rw [if_neg hn]
        obtain ⟨q, hq⟩ := h1.resolve_left hn
        exact .read w hs id ⟨k, v, q, rfl, ⟨hpa, h2.1⟩, hpb, hlt, hq⟩ rfl
  · obtain ⟨k, v, x, rfl, s₀, hs₀, h0⟩ := h
    exact .write (.free n) id ⟨s₀, Set.mem_insert_of_mem _ hs₀, apply_insert_some h0⟩
      (Or.inl ⟨rfl, rfl⟩)
  · obtain ⟨⟨k, v, rfl⟩, h2, h3, h4⟩ := h
    obtain ⟨hact, habs, hp⟩ := allocate_act (t := me) w k v b
    have hk := hact.keeps w
    exact .write hact id ⟨k, v, rfl, h2.step hk, h3.insert _, h4.trans_eq (hk.key b h3).symm, hp⟩
      (Or.inl ⟨rfl, habs⟩)
  · obtain ⟨k, v, q, rfl, h2, h3, h4, h5⟩ := h
    obtain ⟨hact, habs, hp⟩ := private_setNext w h5 b
    have hk := hact.keeps w
    exact .write hact id ⟨k, v, rfl, h2.step hk, h3.insert _, h4.trans_eq (hk.key b h3).symm, hp⟩
      (Or.inl ⟨rfl, habs⟩)
  · obtain ⟨k, v, rfl, h2, h3, h4, h5⟩ := h
    rcases hc : s.cas a b.ref n.ref with ⟨⟨⟩, s'⟩
    · simp only [step, hc]
      rw [Heap.cas_false hc]
      exact .search w ⟨k, v, rfl, Or.inr ⟨b, h5⟩⟩ rfl
    · simp only [step, hc]
      obtain ⟨hn, rfl⟩ := Heap.cas_true hc
      obtain ⟨hact, hap⟩ := private_link w h5 h2 h4 hn
      exact .write hact id trivial (Or.inr ⟨rfl, _, rfl, hap⟩)

theorem step_ok_remove {l : Pc T V} (h : At me S W s op l)
    (hl : (∃ a b, l = .removeEq a b) ∨ (∃ a b, l = .removeNext a b) ∨
      (∃ a b c, l = .removeCas a b c) ∨ (∃ a b c, l = .removeVal a b c) ∨
      (∃ a b c r, l = .finalCas a b c r) ∨ ∃ b r, l = .finalFree b r) :
    StepOk me S W s op l (step me s op l).1 (step me s op l).2 := by
  rcases hl with ⟨a, b, rfl⟩ | ⟨a, b, rfl⟩ | ⟨a, b, c, rfl⟩ | ⟨a, b, c, rfl⟩ | ⟨a, b, c, r, rfl⟩ |
    ⟨b, r, rfl⟩
  · obtain ⟨⟨k, rfl⟩, h2⟩ := h
    obtain ⟨hpa, hpb⟩ := h2.pub w hW
    by_cases he : s.key b ≠ (Call.remove k : Call K V).key
    · rw [step, if_pos he]
      obtain ⟨s₀, hs₀, h0⟩ := h2.noneSeen w hW he
      exact .read w hs id ⟨s₀, hs₀, apply_remove_none h0⟩ rfl
    · rw [step, if_neg he]
      exact .read w hs id ⟨⟨k, rfl⟩, ⟨hpa, h2.1⟩, hpb, not_not.mp he⟩ rfl
  · obtain ⟨⟨k, rfl⟩, h2, h3, h4⟩ := h
    rcases hm : (s.next b).mark with _ | _
    · simp only [step, isMarkedRef, hm]
      exact .read w hs id ⟨⟨k, rfl⟩, h2, h3, h4, hm⟩ rfl
    · simp only [step, isMarkedRef, hm]
      exact .search w ⟨k, rfl⟩ rfl
  · obtain ⟨⟨k, rfl⟩, h2, h3, h4, h5⟩ := h
    rcases hc : s.cas b c (getMarkedRef c) with ⟨⟨⟩, s'⟩
    · simp only [step, hc]
      rw [Heap.cas_false hc]
      exact .search w ⟨k, rfl⟩ rfl
    · simp only [step, hc]
      obtain ⟨hn, rfl⟩ := Heap.cas_true hc
      obtain ⟨q, m⟩ := c
      obtain rfl : m = false := h5
      obtain ⟨hact, hap⟩ := w.mark_act (t := me) h3 h4 hb ht hn
      have hk := hact.keeps w
      refine .write hact id ⟨⟨k, rfl⟩, h2.step hk, h3.insert _, ?_, ?_, rfl⟩
        (Or.inr ⟨rfl, _, rfl, ?_⟩)
      · exact (mark_marked b).mpr (Or.inr rfl)
      · exact (congrFun (mark_succ hn) b).trans (succ_of_next hn)
      · exact hap.trans (congrArg (fun v => (_, Answer.val v)) (hk.val b h3).symm)
  · obtain ⟨h1, h2, h3, h4, h5, h6⟩ := h
    exact .read w hs id ⟨h2, h3, h4, h5, h6⟩ rfl
  · obtain ⟨h1, h2, h3, h4, h5⟩ := h
    have hc' : c = c.ptr.ref := by rw [Ptr.ref, ← h5]
    rcases hc : s.cas a b.ref c with ⟨⟨⟩, s'⟩
    · simp only [step, hc]
      rw [Heap.cas_false hc]
      exact .search w trivial rfl
    · simp only [step, hc]
      obtain ⟨hn, rfl⟩ := Heap.cas_true hc
      rw [hc']
      obtain ⟨hact, habs⟩ := h1.unlink (t := me) w h3 h4 hn
      exact .write hact id trivial (Or.inl ⟨rfl, habs⟩)
  · exact .write (.free b) id trivial (Or.inl ⟨rfl, rfl⟩)

/-- **Every step is one of the writes, and leads to the next assertion.** -/
theorem step_ok {l : Pc T V} (h : At me S W s op l) (hr : result l = none) :
    StepOk me S W s op l (step me s op l).1 (step me s op l).2 := by
  cases l
  case search | scan | readNext | testKey | testNull | testMark | cas | freeNext | free =>
    exact step_ok_search w hs hW hb ht h (by simp)
  case searched | findNull | findKey | findVal =>
    exact step_ok_find w hs hW hb ht h (by simp)
  case insertEq | insertFree | insertAlloc | insertNext | insertCas =>
    exact step_ok_insert w hs hW hb ht h (by simp)
  case removeEq | removeNext | removeCas | removeVal | finalCas | finalFree =>
    exact step_ok_remove w hs hW hb ht h (by simp)
  case done => cases hr
  case unchanged => cases hr

end step

theorem lin_step {l : Pc T V} (h : At u S W s op l) (hk : Keeps me S s s') :
    lin s' op l = lin s op l := by
  cases l
  case removeVal => simp [lin, hk.val _ h.2.2.1]
  all_goals rfl

/-- The assertions hold for any clients that keep to the keys. -/
theorem correct_of_keyed [Nontrivial K] {pre : Call K V → Prop} (hpre : ∀ op, pre op → Keyed op) :
    (code T K V).Correct { program T K V with pre := pre } where
  init := rfl
  pre := hpre
  start t S s op h := by cases op <;> simp [code, program, start, At, Caller.At]
  lin_start s op := by cases op <;> rfl
  stable w h hW hu hk := ⟨At.step w h hW hu hk, lin_step h hk⟩
  step := by
    intro t S W s op l s' l' w hs hW hh hc hat hres hstep
    have := step_ok w hs hW hc.1 hc.2 hat hres
    have he : step t s op l = (s', l') := Option.some.inj hstep
    rwa [he] at this
  ret := by
    intro t S W s op l r hat hres
    cases l <;> cases hres
    case done => exact Or.inl rfl
    case unchanged => exact Or.inr ⟨rfl, hat⟩

theorem correct [Nontrivial K] : (code T K V).Correct (program T K V) :=
  correct_of_keyed fun _ h => h.keyed

/-- **The Harris list is a map**, and when `harris_search` returns, its left
node pointed to its right node at one moment since it began, with the key in
between and the right node not marked. -/
theorem harris_linearizable [Nontrivial K] [Fintype T] :
    Linearizable (mapObject K V) (program T K V) absMap ∧
    ∀ es c, (program T K V).Run es c → ∀ t op caller left right,
      c.threads t = some (op, .searched caller left right) →
      ∃ s ∈ window reset t es, s.key left < op.key ∧ op.key ≤ s.key right ∧
        s.next left = right.ref ∧ ¬ s.Marked right := by
  refine ⟨correct.linearizable, fun es c hr t op caller left right ht => ?_⟩
  have w := correct.wf hr
  have hW := hr.window_subset_seen reset t
  obtain ⟨-, hf⟩ : At t _ (window reset t es) c.shared op (.searched caller left right) :=
    correct.at_loc hr ht
  obtain ⟨s, hs, h1, h2, h3, h4⟩ := hf.lnk w
  refine ⟨s, hs, ?_, ?_, h3, h4⟩
  · rw [(w.const s (hW hs) left h1).1]
    exact hf.1
  · rw [(w.const s (hW hs) right h2).1]
    exact hf.2.1

/-- Three threads, and keys 1 to 8. -/
theorem harris_linearizable_three :
    Linearizable (mapObject (Fin 10) ℕ) (program (Fin 3) (Fin 10) ℕ) absMap :=
  harris_linearizable.1

end LinkedListHarris

end Ascylib
