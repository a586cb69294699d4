/-
# What the Harris lists owe their allocator

`ssmem` is built with `SSMEM_TS_INCR_ON_FREE`: after a thread has freed some
memory it "should not access ANY ssmem-protected memory that was read (the
reference were taken) before the current alloc or free invocation". Both lists
free in the middle of a traversal. With ASCY, `list_search` reads
`right_node->next` of the very node it has just freed; `harris_search` reads
the next node of the stretch after the first free, then `right_node`, and
`harris_insert` and `harris_remove` go on with their left node.

The contract is kept in the runs in which no `list_search` unlinks a node, and
those in which `harris_search` frees one node, in front of the tail, for a
caller that needs nothing but the head and the tail afterwards. Clients may
pass any keys, also those of the sentinels.

Key theorems: `harris_contract`, `harris_contract_broken`.
-/
import Ascylib.LinkedListHarris
import Ascylib.LinkedListHarrisOpt
import Ascylib.Concur.Refs

set_option linter.unusedSectionVars false

namespace Ascylib

open Concur

variable {T K V : Type*} [DecidableEq T] [LinearOrder K] [BoundedOrder K] [Zero V]

/-- The nodes that are not memory of the allocator. -/
def Sentinel (x : Ptr T) : Prop := x = .head ∨ x = .tail

instance : DecidablePred (Sentinel (T := T)) := fun _ => inferInstanceAs (Decidable (_ ∨ _))

namespace LinkedListHarrisOpt

/-- The local variables that hold references to nodes. -/
inductive Var where
  | node
  | left
  | right
  | newNext
  | nodeToAdd
  | unmarked
  deriving DecidableEq

/-- The nodes that the next step reads or writes. -/
def derefs : Pc T V → List (Var × Ptr T)
  | .findLt node | .findNext node | .findEq node | .findMark node | .findVal node => [(.node, node)]
  | .testMark _ right | .testKey _ right | .unlinkNext _ right | .advance _ right |
    .insertEq _ right | .removeEq _ right | .removeNext _ right | .removeCas _ right _ |
    .removeVal _ right | .finalNext _ right _ => [(.right, right)]
  | .unlinkCas left _ _ | .insertCas left _ _ | .finalCas left _ _ _ => [(.left, left)]
  | .find | .listSearch | .unlinkFree _ _ | .insertAlloc _ _ | .insertFree _ | .finalFree _ _ |
    .done _ | .unchanged _ => []

def frees : Pc T V → Bool
  | .unlinkFree _ _ | .insertFree _ | .finalFree _ _ => true
  | _ => false

/-- Where the value of a variable after a step comes from. -/
def source : Pc T V → Pc T V → Var → Option Var
  | .find, _, .node | .findNext _, _, .node => none
  | .listSearch, _, .left | .listSearch, _, .right => none
  | .testKey _ _, .advance _ _, .left => some .right
  | .unlinkNext _ _, _, .newNext | .finalNext _ _ _, _, .newNext => none
  | .advance _ _, _, .right => none
  | .insertAlloc _ _, _, .nodeToAdd => none
  | .removeNext _ _, _, .unmarked => none
  | _, _, x => some x

def flow : RefFlow (Pc T V) Var (Ptr T) where
  derefs := derefs
  frees := frees
  source := source

/-- No `physical_delete_right` of `list_search` succeeds. -/
def NoUnlink (s : Heap T K V) (_ : Call K V) (l : Pc T V) : Prop :=
  ∀ left right newNext, l = .unlinkCas left right newNext → s.next left ≠ right.ref

/-- Which variables are not old. -/
def Fresh (o : Var → Bool) : Pc T V → Prop
  | .findLt _ | .findNext _ | .findEq _ | .findMark _ | .findVal _ => o .node = false
  | .testMark _ _ | .testKey _ _ | .unlinkNext _ _ | .unlinkCas _ _ _ | .advance _ _ |
    .insertEq _ _ | .insertAlloc _ _ | .insertCas _ _ _ | .removeEq _ _ | .removeNext _ _ |
    .removeCas _ _ _ | .removeVal _ _ | .finalNext _ _ _ | .finalCas _ _ _ _ =>
    o .left = false ∧ o .right = false
  | .unlinkFree _ _ => False
  | .find | .listSearch | .insertFree _ | .finalFree _ _ | .done _ | .unchanged _ => True

theorem fresh_step {t : T} {s : Heap T K V} {op : Call K V} {l : Pc T V} {o : Var → Bool}
    (h : Fresh o l) (hg : NoUnlink s op l) :
    Fresh (flow.after l (step t s op l).2 o) (step t s op l).2 := by
  cases l
  case unlinkCas left right newNext =>
    have hc : s.cas left right.ref newNext.ref = (false, s) := if_neg (hg left right newNext rfl)
    simp only [step, hc]
    exact h
  case unlinkFree => exact h.elim
  case testKey left right =>
    simp only [step]
    split
    · cases op <;> exact h
    · exact ⟨h.2, h.2⟩
  case insertCas left right node =>
    simp only [step]
    split <;> trivial
  case insertAlloc left right => cases op <;> exact h
  case removeCas left right unmarked =>
    simp only [step]
    split
    · exact h
    · trivial
  case finalCas left right newNext ret =>
    simp only [step]
    split <;> trivial
  case findLt | findEq | findMark | testMark | insertEq | removeEq =>
    simp only [step]
    split <;> first | exact h | trivial
  case advance | listSearch => exact ⟨by first | rfl | exact h.1, rfl⟩
  case find | findNext => exact rfl
  all_goals first | exact h | trivial

def discipline : Discipline flow { program T K V with pre := fun _ => True } NoUnlink Sentinel where
  glob _ := True
  loc _ l o := Fresh o l
  init := trivial
  start := by rintro (k | ⟨k, v⟩ | k) - <;> trivial
  step := by
    intro i t s op l s' l' o _ h _ hstep hg
    have he : step t s op l = (s', l') := Option.some.inj hstep
    have hf := fresh_step (t := t) h hg
    rw [he] at hf
    exact ⟨trivial, hf⟩
  derefs := by
    intro op l o h d hd ho
    cases l <;> simp only [flow, derefs, List.mem_singleton, List.not_mem_nil] at hd <;> subst hd
    all_goals simp_all [Fresh]

end LinkedListHarrisOpt

namespace LinkedListHarris

/-- The local variables that hold references to nodes. -/
inductive Var where
  | t
  | tNext
  | left
  | leftNext
  | right
  | cur
  | nodeToFree
  | newnode
  | rightNext
  deriving DecidableEq

/-- The nodes that the next step reads or writes. -/
def derefs : Pc T V → List (Var × Ptr T)
  | .scan _ _ _ _ tNext => [(.tNext, tNext.ptr)]
  | .readNext _ _ _ t | .testKey _ _ _ t _ => [(.t, t)]
  | .testNull _ _ _ right | .testMark _ _ _ right | .findNull right | .findKey right |
    .findVal right | .insertEq _ right _ | .removeEq _ right | .removeNext _ right |
    .removeCas _ right _ | .removeVal _ right _ => [(.right, right)]
  | .cas _ left _ _ | .insertCas left _ _ | .finalCas left _ _ _ => [(.left, left)]
  | .freeNext _ _ _ _ cur => [(.cur, cur)]
  | .insertNext _ _ newnode => [(.newnode, newnode)]
  | .search _ _ _ | .free _ _ _ _ _ _ | .searched _ _ _ | .insertFree _ | .insertAlloc _ _ |
    .finalFree _ _ | .done _ | .unchanged _ => []

def frees : Pc T V → Bool
  | .free _ _ _ _ _ _ | .insertFree _ | .finalFree _ _ => true
  | _ => false

/-- Where the value of a variable after a step comes from. -/
def source : Pc T V → Pc T V → Var → Option Var
  | .search _ _ _, _, .t | .search _ _ _, _, .tNext => none
  | .scan _ _ _ _ tNext, _, .left => if !isMarkedRef tNext then some .t else some .left
  | .scan _ _ _ _ tNext, _, .leftNext => if !isMarkedRef tNext then some .tNext else some .leftNext
  | .scan _ _ _ _ _, _, .t | .scan _ _ _ _ _, _, .right => some .tNext
  | .readNext _ _ _ _, _, .tNext => none
  | .testKey _ _ _ _ _, _, .right => some .t
  | .cas _ _ _ _, _, .cur => some .leftNext
  | .freeNext _ _ _ _ _, _, .nodeToFree => some .cur
  | .freeNext _ _ _ _ _, _, .cur => none
  | .insertAlloc _ _, _, .newnode => none
  | .removeNext _ _, _, .rightNext => none
  | .insertCas _ _ _, .search _ _ _, .leftNext | .removeNext _ _, .search _ _ _, .leftNext |
    .removeCas _ _ _, .search _ _ _, .leftNext | .finalCas _ _ _ _, .search _ _ _, .leftNext => none
  | _, _, x => some x

def flow : RefFlow (Pc T V) Var (Ptr T) where
  derefs := derefs
  frees := frees
  source := source

/-- What the caller of `harris_search` needs after a `free` is the tail and,
if it is to write to the left node, the head. -/
def Caller.Done (c : Caller T V) (tailKey key : K) (left : Ptr T) : Prop :=
  match c with
  | .find | .unlink _ => True
  | .insert newnode => newnode = .null ∧ (left = .head ∨ tailKey = key)
  | .remove => left = .head ∨ tailKey ≠ key

/-- `harris_search` frees a node only if it unlinked no other, in front of
the tail, for a caller that needs no other node than the sentinels from now on. -/
def FreesLast (s : Heap T K V) (op : Call K V) (l : Pc T V) : Prop :=
  ∀ c left leftNext right nodeToFree cur, l = .free c left leftNext right nodeToFree cur →
    cur = right ∧ right = .tail ∧ c.Done (s.key .tail) op.key left

/-! ### The references of a call -/

/-- The head is not marked, and nothing points to it. -/
structure Anchored (s : Heap T K V) : Prop where
  key_tail : s.key .tail = ⊤
  head : (s.next .head).mark = false
  ne_head : ∀ x, (s.next x).ptr ≠ .head

theorem Anchored.setNext {s : Heap T K V} (h : Anchored s) {x : Ptr T} {r : Ref T}
    (hx : x = .head → r.mark = false) (hr : r.ptr ≠ .head) : Anchored (s.setNext x r) := by
  refine ⟨by rw [Heap.key_setNext]; exact h.key_tail, ?_, fun y => ?_⟩
  · by_cases hh : x = .head
    · subst hh
      rw [Heap.next_setNext_self]
      exact hx rfl
    · rw [Heap.next_setNext_of_ne _ _ _ _ (Ne.symm hh)]
      exact h.head
  · by_cases hy : y = x
    · subst hy
      rw [Heap.next_setNext_self]
      exact hr
    · rw [Heap.next_setNext_of_ne _ _ _ _ hy]
      exact h.ne_head y

theorem Anchored.cas {s : Heap T K V} (h : Anchored s) {x : Ptr T} {old r : Ref T}
    (hx : x = .head → r.mark = false) (hr : r.ptr ≠ .head) : Anchored (s.cas x old r).2 := by
  unfold Heap.cas
  split
  · exact h.setNext hx hr
  · exact h

theorem Anchored.allocate {s : Heap T K V} (h : Anchored s) (t : T) (k : K) (v : V) {x : Ptr T}
    (hx : x ≠ .head) : Anchored (s.allocateLlSimple t k v x).1 := by
  have hne : ∀ {y : Ptr T}, y ≠ .node t (s.count t) →
      (s.allocateLlSimple t k v x).1.mem y = s.mem y := s.mem_allocate_of_ne _ _ _
  refine ⟨?_, ?_, fun y => ?_⟩
  · rw [Heap.key, hne (by simp)]
    exact h.key_tail
  · rw [Heap.next, hne (by simp)]
    exact h.head
  · by_cases hy : y = .node t (s.count t)
    · subst hy
      rw [Heap.next, show (s.allocateLlSimple t k v x).1.mem (.node t (s.count t)) = _ from
        s.mem_allocate_self _ t]
      exact hx
    · rw [Heap.next, hne hy]
      exact h.ne_head y

/-- A node kept from an earlier round of `harris_insert` is not old. -/
def Caller.Fresh (c : Caller T V) (o : Var → Bool) : Prop :=
  ∀ newnode, c = .insert newnode → newnode ≠ .head ∧ (newnode = .null ∨ o .newnode = false)

/-- What the caller may do with the two nodes that `harris_search` returns:
read the right one, and write to the left one unless the key of the right one
keeps it from doing so. -/
structure Caller.Returned (c : Caller T V) (o : Var → Bool) (key : K) (left right : Ptr T) :
    Prop where
  fresh : c.Fresh o
  ne_head : right ≠ .head
  right_safe : right = .tail ∨ o .right = false
  insert : ∀ newnode, c = .insert newnode →
    left = .head ∨ o .left = false ∨ (⊤ = key ∧ right = .tail)
  remove : c = .remove → left = .head ∨ o .left = false ∨ (⊤ ≠ key ∧ right = .tail)

/-- Which variables are not old, or hold a sentinel. -/
def Fresh (o : Var → Bool) (op : Call K V) : Pc T V → Prop
  | .search c _ _ => c.Fresh o
  | .scan c _ _ _ tNext => c.Fresh o ∧ tNext.ptr ≠ .head ∧ o .tNext = false ∧ o .t = false ∧
      (tNext.mark = true → o .left = false ∧ o .leftNext = false)
  | .readNext c _ _ t => c.Fresh o ∧ t ≠ .head ∧ o .t = false ∧ o .left = false ∧
      o .leftNext = false
  | .testKey c _ _ t tNext => c.Fresh o ∧ t ≠ .head ∧ o .t = false ∧ o .left = false ∧
      o .leftNext = false ∧ tNext.ptr ≠ .head ∧ o .tNext = false
  | .testNull c left _ right | .testMark c left _ right => c.Returned o op.key left right
  | .cas c _ _ right => c.Fresh o ∧ right ≠ .head ∧ o .left = false ∧ o .leftNext = false
  | .freeNext _ _ _ _ _ => o .cur = false
  | .free _ _ _ _ _ _ => True
  | .searched c left right => c.Returned o op.key left right
  | .findNull right | .findKey right | .findVal right => right = .tail ∨ o .right = false
  | .insertEq left right newnode => (Caller.insert newnode : Caller T V).Returned o op.key left right
  | .insertAlloc left right => right ≠ .head ∧ (left = .head ∨ o .left = false)
  | .insertNext left right newnode => right ≠ .head ∧ (left = .head ∨ o .left = false) ∧
      newnode ≠ .head ∧ o .newnode = false
  | .insertCas left _ newnode => (left = .head ∨ o .left = false) ∧ newnode ≠ .head ∧
      o .newnode = false
  | .removeEq left right => (Caller.remove : Caller T V).Returned o op.key left right
  | .removeNext left right => right ≠ .head ∧ (right = .tail ∨ o .right = false) ∧
      (left = .head ∨ o .left = false)
  | .removeCas left right rightNext | .removeVal left right rightNext => right ≠ .head ∧
      (right = .tail ∨ o .right = false) ∧ (left = .head ∨ o .left = false) ∧
      rightNext.ptr ≠ .head ∧ rightNext.mark = false
  | .finalCas left _ rightNext _ => (left = .head ∨ o .left = false) ∧
      rightNext.ptr ≠ .head ∧ rightNext.mark = false
  | .insertFree _ | .finalFree _ _ | .done _ | .unchanged _ => True

theorem fresh_compare {o : Var → Bool} {op : Call K V} {c : Caller T V} {left leftNext right : Ptr T}
    (hc : c.Fresh o) (hr : right ≠ .head) (hl : o .left = false) (hn : o .leftNext = false)
    (ho : o .right = false) : Fresh o op (compare c left leftNext right) := by
  unfold compare
  split
  · exact ⟨hc, hr, Or.inr ho, fun _ _ => Or.inr (Or.inl hl), fun _ => Or.inr (Or.inl hl)⟩
  · exact ⟨hc, hr, hl, hn⟩

section step

variable {t : T} {s : Heap T K V} {op : Call K V} {l : Pc T V} {o : Var → Bool}

/-- What a step makes of the old variables. -/
def stepOld (t : T) (s : Heap T K V) (op : Call K V) (l : Pc T V) (o : Var → Bool) : Var → Bool :=
  flow.after l (step t s op l).2 o

/-- A traversal reads every reference it goes through after the last `free`. -/
theorem fresh_scan (ha : Anchored s) (h : Fresh o op l)
    (hl : (∃ c a b, l = .search c a b) ∨ (∃ c a b t r, l = .scan c a b t r) ∨
      (∃ c a b t, l = .readNext c a b t) ∨ ∃ c a b t r, l = .testKey c a b t r) :
    Fresh (stepOld t s op l o) op (step t s op l).2 := by
  rcases hl with ⟨c, a, b, rfl⟩ | ⟨c, a, b, x, r, rfl⟩ | ⟨c, a, b, x, rfl⟩ | ⟨c, a, b, x, r, rfl⟩
  · refine ⟨h, ha.ne_head _, rfl, rfl, fun hm => ?_⟩
    exact absurd (hm.symm.trans ha.head) (by decide)
  · obtain ⟨h1, h2, h3, h4, h5⟩ := h
    obtain ⟨q, m⟩ := r
    -- `left_node` and `left_node_next` are the last unmarked ones
    have hl : stepOld t s op (.scan c a b x ⟨q, m⟩) o .left = false ∧
        stepOld t s op (.scan c a b x ⟨q, m⟩) o .leftNext = false := by
      cases m
      · exact ⟨h4, h3⟩
      · exact h5 rfl
    simp only [step]
    split
    · exact fresh_compare h1 h2 hl.1 hl.2 h3
    · exact ⟨h1, h2, h3, hl⟩
  · obtain ⟨h1, h2, h3, h4, h5⟩ := h
    simp only [step]
    split
    · exact ⟨h1, ha.ne_head _, rfl, h3, fun _ => ⟨h4, h5⟩⟩
    · exact ⟨h1, h2, h3, h4, h5, ha.ne_head _, rfl⟩
  · obtain ⟨h1, h2, h3, h4, h5, h6, h7⟩ := h
    simp only [step]
    split
    · exact ⟨h1, h6, h7, h3, fun _ => ⟨h4, h5⟩⟩
    · exact fresh_compare h1 h2 h4 h5 h3

/-- After `harris_search` has freed a node its caller is left with the sentinels. -/
theorem fresh_free (ha : Anchored s) {c : Caller T V} {a b q x y : Ptr T}
    (hg : FreesLast s op (.free c a b q x y)) :
    Fresh (stepOld t s op (.free c a b q x y) o) op (step t s op (.free c a b q x y)).2 := by
  obtain ⟨rfl, rfl, hd⟩ := hg c a b q x y rfl
  rw [ha.key_tail] at hd
  simp only [step, ne_eq, not_true, if_false]
  refine ⟨fun nn hn => ?_, fun h => (by cases h), Or.inl rfl, fun nn hn => ?_, fun hn => ?_⟩
  · subst hn
    rw [show nn = .null from hd.1]
    exact ⟨fun h => (by cases h), Or.inl rfl⟩
  · subst hn
    exact hd.2.imp_right fun h => Or.inr ⟨h, rfl⟩
  · subst hn
    exact hd.imp_right fun h => Or.inr ⟨h, rfl⟩

theorem fresh_search (ha : Anchored s) (h : Fresh o op l) (hg : FreesLast s op l)
    (hl : (∃ c a b q, l = .testNull c a b q) ∨ (∃ c a b q, l = .testMark c a b q) ∨
      (∃ c a b q, l = .cas c a b q) ∨ (∃ c a b q x, l = .freeNext c a b q x) ∨
      (∃ c a b q x y, l = .free c a b q x y) ∨ ∃ c a q, l = .searched c a q) :
    Fresh (stepOld t s op l o) op (step t s op l).2 := by
  rcases hl with ⟨c, a, b, q, rfl⟩ | ⟨c, a, b, q, rfl⟩ | ⟨c, a, b, q, rfl⟩ | ⟨c, a, b, q, x, rfl⟩ |
    ⟨c, a, b, q, x, y, rfl⟩ | ⟨c, a, q, rfl⟩
  · simp only [step]
    split
    · exact ⟨h.fresh, h.ne_head, h.right_safe, h.insert, h.remove⟩
    · exact ⟨h.fresh, h.ne_head, h.right_safe, h.insert, h.remove⟩
  · simp only [step]
    split
    · exact h.fresh
    · exact ⟨h.fresh, h.ne_head, h.right_safe, h.insert, h.remove⟩
  · obtain ⟨h1, h2, h3, h4⟩ := h
    simp only [step]
    split
    · exact h4
    · exact h1
  · trivial
  · exact fresh_free ha hg
  · cases c with
    | find => exact h.right_safe
    | insert nn => exact ⟨h.fresh, h.ne_head, h.right_safe, h.insert, h.remove⟩
    | remove => exact ⟨h.fresh, h.ne_head, h.right_safe, h.insert, h.remove⟩
    | unlink ret => trivial

/-- The calls go on with what `harris_search` gave them. -/
theorem fresh_update (ha : Anchored s) (h : Fresh o op l)
    (hl : (∃ a q nn, l = .insertEq a q nn) ∨ (∃ a q, l = .insertAlloc a q) ∨
      (∃ a q nn, l = .insertCas a q nn) ∨ (∃ a q, l = .removeEq a q) ∨
      (∃ a q, l = .removeNext a q) ∨ (∃ a q r, l = .removeCas a q r) ∨
      ∃ a q r v, l = .finalCas a q r v) :
    Fresh (stepOld t s op l o) op (step t s op l).2 := by
  rcases hl with ⟨a, q, nn, rfl⟩ | ⟨a, q, rfl⟩ | ⟨a, q, nn, rfl⟩ | ⟨a, q, rfl⟩ | ⟨a, q, rfl⟩ |
    ⟨a, q, r, rfl⟩ | ⟨a, q, r, v, rfl⟩
  · obtain ⟨hnn, hnew⟩ := h.fresh nn rfl
    -- the left node is written to only if the right one is not the tail with this key
    have hleft : s.key q ≠ op.key → a = .head ∨ o .left = false := by
      intro hne
      rcases h.insert nn rfl with h | h | ⟨hk, rfl⟩
      · exact Or.inl h
      · exact Or.inr h
      · exact absurd (ha.key_tail.trans hk) hne
    simp only [step]
    split
    · split <;> trivial
    · rename_i hne
      split
      · exact ⟨h.ne_head, hleft hne⟩
      · rename_i hnull
        exact ⟨h.ne_head, hleft hne, hnn, hnew.resolve_left hnull⟩
  · cases op with
    | insert k v => exact ⟨h.2, fun h => (by cases h), rfl⟩
    | _ => exact h
  · obtain ⟨h1, h2, h3⟩ := h
    simp only [stepOld, step]
    split
    · trivial
    · intro n hn
      cases hn
      exact ⟨h2, Or.inr h3⟩
  · simp only [step]
    split
    · trivial
    · rename_i heq
      refine ⟨h.ne_head, h.right_safe, ?_⟩
      rcases h.remove rfl with h | h | ⟨hk, rfl⟩
      · exact Or.inl h
      · exact Or.inr h
      · exact absurd (ha.key_tail.symm.trans (not_not.mp heq)) hk
  · obtain ⟨h1, h2, h3⟩ := h
    simp only [step]
    split
    · rename_i hm
      exact ⟨h1, h2, h3, ha.ne_head _, by simpa [isMarkedRef] using hm⟩
    · exact fun _ h => by cases h
  · simp only [stepOld, step]
    split
    · exact h
    · exact fun _ h => by cases h
  · simp only [step]
    split
    · trivial
    · exact fun _ h => by cases h

/-- **A step keeps the variables that are needed from being old.** -/
theorem fresh_step (ha : Anchored s) (h : Fresh o op l) (hg : FreesLast s op l) :
    Fresh (stepOld t s op l o) op (step t s op l).2 := by
  cases l
  case search | scan | readNext | testKey => exact fresh_scan ha h (by simp)
  case testNull | testMark | cas | freeNext | free | searched => exact fresh_search ha h hg (by simp)
  case insertEq | insertAlloc | insertCas | removeEq | removeNext | removeCas | finalCas =>
    exact fresh_update ha h (by simp)
  case findNull | findKey =>
    simp only [step]
    split
    · trivial
    · exact h
  case insertNext => exact ⟨h.2.1, h.2.2⟩
  case removeVal => exact h.2.2
  case findVal | insertFree | finalFree | done | unchanged => trivial

/-- A step leaves the head where it is. -/
theorem anchored_step (ha : Anchored s) (h : Fresh o op l) : Anchored (step t s op l).1 := by
  cases l
  case cas c a b q =>
    have : Anchored (s.cas a b.ref q.ref).2 := ha.cas (fun _ => rfl) h.2.1
    simp only [step]
    split <;> simp_all
  case insertAlloc a q =>
    cases op with
    | insert k v => exact ha.allocate t k v h.1
    | _ => exact ha
  case insertNext a q nn => exact ha.setNext (fun _ => rfl) h.1
  case insertCas a q nn =>
    have : Anchored (s.cas a q.ref nn.ref).2 := ha.cas (fun _ => rfl) h.2.1
    simp only [step]
    split <;> simp_all
  case removeCas a q r =>
    have : Anchored (s.cas q r (getMarkedRef r)).2 := ha.cas (fun hq => absurd hq h.1) h.2.2.2.1
    simp only [step]
    split <;> simp_all
  case finalCas a q r v =>
    have : Anchored (s.cas a q.ref r).2 := ha.cas (fun _ => h.2.2) h.2.1
    simp only [step]
    split <;> simp_all
  case searched c a q => cases c <;> exact ha
  case free | insertFree | finalFree => exact ⟨ha.key_tail, ha.head, ha.ne_head⟩
  all_goals exact ha

end step

theorem anchored_empty : Anchored (Heap.empty : Heap T K V) :=
  ⟨rfl, rfl, fun x => by cases x <;> nofun⟩

def discipline :
    Discipline flow { program T K V with pre := fun _ => True } FreesLast Sentinel where
  glob := Anchored
  loc op l o := Fresh o op l
  init := anchored_empty
  start := by
    rintro (k | ⟨k, v⟩ | k) - n hn <;> cases hn
    exact ⟨nofun, Or.inl rfl⟩
  step := by
    intro i t s op l s' l' o ha h _ hstep hg
    have he : step t s op l = (s', l') := Option.some.inj hstep
    have hf := fresh_step (t := t) ha h hg
    have hs := anchored_step (t := t) ha h
    unfold stepOld at hf
    rw [he] at hf hs
    exact ⟨hs, hf⟩
  derefs := by
    intro op l o h d hd ho
    cases l <;> simp only [flow, derefs, List.mem_singleton, List.not_mem_nil] at hd <;> subst hd
    case scan => exact absurd ho (by simp [h.2.2.1])
    case readNext => exact absurd ho (by simp [h.2.2.1])
    case testKey => exact absurd ho (by simp [h.2.2.1])
    case testNull | testMark | insertEq | removeEq =>
      exact Or.inr (h.right_safe.resolve_right (by simpa using ho))
    case findNull | findKey | findVal => exact Or.inr (h.resolve_right (by simpa using ho))
    case cas => exact absurd ho (by simp [h.2.2.1])
    case freeNext => exact absurd ho (by simp [show o .cur = false from h])
    case insertNext => exact absurd ho (by simp [h.2.2.2])
    case insertCas | finalCas => exact Or.inl (h.1.resolve_right (by simpa using ho))
    case removeNext | removeCas | removeVal =>
      exact Or.inr (h.2.1.resolve_right (by simpa using ho))

end LinkedListHarris

/-- **The two Harris lists keep the contract of their allocator** in the runs
in which the one unlinks no node in `list_search`, and the other frees a node in
`harris_search` only where its caller needs no other node afterwards. -/
theorem harris_contract :
    LinkedListHarris.flow.Kept { LinkedListHarris.program T K V with pre := fun _ => True }
        (Guarded LinkedListHarris.FreesLast) Sentinel ∧
      LinkedListHarrisOpt.flow.Kept { LinkedListHarrisOpt.program T K V with pre := fun _ => True }
        (Guarded LinkedListHarrisOpt.NoUnlink) Sentinel :=
  ⟨LinkedListHarris.discipline.kept, LinkedListHarrisOpt.discipline.kept⟩

/-! ### Where it is broken -/

/-- Thread 1 inserts 8 and 5, and stops in `remove(5)` after it has marked the
node; `insert(7)` of thread 0 unlinks and frees it and looks at node 8 again. -/
def staleRight : List (Move (Fin 2) (Call (Fin 10) ℕ) Unit) :=
  [.call 1 (.insert 8 1)] ++ List.replicate 7 (.tau 1 ()) ++ [.ret 1] ++
  [.call 1 (.insert 5 1)] ++ List.replicate 10 (.tau 1 ()) ++ [.ret 1] ++
  [.call 1 (.remove 5)] ++ List.replicate 10 (.tau 1 ()) ++
  [.call 0 (.insert 7 1)] ++ List.replicate 9 (.tau 0 ())

/-- The same with ASCY: `insert(7)` goes on from the node that it has freed. -/
def staleNode : List (Move (Fin 2) (Call (Fin 10) ℕ) Unit) :=
  [.call 1 (.insert 5 1)] ++ List.replicate 6 (.tau 1 ()) ++ [.ret 1] ++
  [.call 1 (.remove 5)] ++ List.replicate 6 (.tau 1 ()) ++
  [.call 0 (.insert 7 1)] ++ List.replicate 5 (.tau 0 ())

/-- **Both lists break the contract** in some run. -/
theorem harris_contract_broken :
    ¬ LinkedListHarris.flow.Kept
        { LinkedListHarris.program (Fin 2) (Fin 10) ℕ with pre := fun _ => True }
        (fun _ _ _ _ => True) Sentinel ∧
      ¬ LinkedListHarrisOpt.flow.Kept
        { LinkedListHarrisOpt.program (Fin 2) (Fin 10) ℕ with pre := fun _ => True }
        (fun _ _ _ _ => True) Sentinel := by
  constructor
  · exact RefFlow.not_kept staleRight (t := 0) (i := ()) (fun _ => trivial)
      (by decide +kernel)
  · exact RefFlow.not_kept staleNode (t := 0) (i := ()) (fun _ => trivial)
      (by decide +kernel)

end Ascylib
