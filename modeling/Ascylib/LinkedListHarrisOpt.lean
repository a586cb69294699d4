/-
# The Harris list with ASCY

`src/algorithms/linkedlist_harris_opt.h`, one local state for each access to
shared memory. `search` (`harris_find`) walks over everything and looks at the
mark once, at the end. `list_search` unlinks the marked nodes it meets, one
at a time, and goes on with its old left node when that fails.
-/
import Ascylib.HarrisOutline

set_option linter.unusedSectionVars false

namespace Ascylib

open Concur Chain

namespace LinkedListHarrisOpt

variable {T K V : Type*} [DecidableEq T] [LinearOrder K]

/-- Where a call is, with the local variables that are live there. -/
inductive Pc (T V : Type*) where
  /-- `harris_find`: `node = head->next` -/
  | find
  /-- `node->key < key` -/
  | findLt (node : Ptr T)
  /-- `node = get_unmarked_ref(node->next)` -/
  | findNext (node : Ptr T)
  /-- `node->key == key` -/
  | findEq (node : Ptr T)
  /-- `!is_marked_ref(node->next)` -/
  | findMark (node : Ptr T)
  /-- `return node->val` -/
  | findVal (node : Ptr T)
  /-- `list_search`: `left_node = head; right_node = head->next` -/
  | listSearch
  /-- `is_marked_ref(right_node->next)` -/
  | testMark (left right : Ptr T)
  /-- `right_node->key >= key` -/
  | testKey (left right : Ptr T)
  /-- `physical_delete_right`: `new_next = get_unmarked_ref(right_node->next)` -/
  | unlinkNext (left right : Ptr T)
  /-- `CAS_PTR(&left_node->next, right_node, new_next)` -/
  | unlinkCas (left right newNext : Ptr T)
  /-- `ssmem_free(alloc, res)` -/
  | unlinkFree (left right : Ptr T)
  /-- `right_node = get_unmarked_ref(right_node->next)` -/
  | advance (left right : Ptr T)
  /-- `harris_insert`: `right_node->key == key` -/
  | insertEq (left right : Ptr T)
  /-- `node_to_add = allocate_ll_simple(key, val, right_node)` -/
  | insertAlloc (left right : Ptr T)
  /-- `CAS_PTR(&left_node->next, right_node, node_to_add)` -/
  | insertCas (left right node : Ptr T)
  /-- `ssmem_free(alloc, node_to_add)` -/
  | insertFree (node : Ptr T)
  /-- `harris_remove`: `right_node->key != key` -/
  | removeEq (left right : Ptr T)
  /-- `unmarked_ref = get_unmarked_ref(right_node->next)` -/
  | removeNext (left right : Ptr T)
  /-- `CAS_PTR(&right_node->next, unmarked_ref, marked_ref)` -/
  | removeCas (left right : Ptr T) (unmarked : Ref T)
  /-- `ret = right_node->val` -/
  | removeVal (left right : Ptr T)
  /-- `physical_delete_right`, as above, before `return ret` -/
  | finalNext (left right : Ptr T) (ret : V)
  | finalCas (left right newNext : Ptr T) (ret : V)
  | finalFree (right : Ptr T) (ret : V)
  /-- `return r` from a call that took effect -/
  | done (r : Answer V)
  /-- `return r` from a call that changed nothing -/
  | unchanged (r : Answer V)

variable [Zero V]

/-- Where `list_search` returns to. -/
def listSearchRet (op : Call K V) (left right : Ptr T) : Pc T V :=
  match op with
  | .insert _ _ => .insertEq left right
  | _ => .removeEq left right

def start : Call K V → Pc T V
  | .search _ => .find
  | _ => .listSearch

/-- The next access to shared memory of thread `t`, and what follows from it. -/
def step (t : T) (s : Heap T K V) (op : Call K V) : Pc T V → Heap T K V × Pc T V
  | .find => (s, .findLt (s.succ .head))
  | .findLt node => (s, if s.key node < op.key then .findNext node else .findEq node)
  | .findNext node => (s, .findLt (getUnmarkedRef (s.next node)).ptr)
  | .findEq node => (s, if s.key node = op.key then .findMark node else .unchanged (.val 0))
  | .findMark node => (s, if !isMarkedRef (s.next node) then .findVal node else .unchanged (.val 0))
  | .findVal node => (s, .unchanged (.val (s.val node)))
  | .listSearch => (s, .testMark .head (s.succ .head))
  | .testMark left right =>
    (s, if !isMarkedRef (s.next right) then .testKey left right else .unlinkNext left right)
  | .testKey left right =>
    (s, if op.key ≤ s.key right then listSearchRet op left right else .advance right right)
  | .unlinkNext left right => (s, .unlinkCas left right (getUnmarkedRef (s.next right)).ptr)
  | .unlinkCas left right newNext =>
    match s.cas left right.ref newNext.ref with
    | (true, s') => (s', .unlinkFree left right)
    | (false, s') => (s', .advance left right)
  | .unlinkFree left right => (s.ssmemFree right, .advance left right)
  | .advance left right => (s, .testMark left (getUnmarkedRef (s.next right)).ptr)
  | .insertEq left right =>
    (s, if s.key right = op.key then .unchanged (.flag false) else .insertAlloc left right)
  | .insertAlloc left right =>
    match op with
    | .insert key val =>
      let (s', node) := s.allocateLlSimple t key val right
      (s', .insertCas left right node)
    | _ => (s, .insertAlloc left right)
  | .insertCas left right node =>
    match s.cas left right.ref node.ref with
    | (true, s') => (s', .done (.flag true))
    | (false, s') => (s', .insertFree node)
  | .insertFree node => (s.ssmemFree node, .listSearch)
  | .removeEq left right =>
    (s, if s.key right ≠ op.key then .unchanged (.val 0) else .removeNext left right)
  | .removeNext left right => (s, .removeCas left right (getUnmarkedRef (s.next right)))
  | .removeCas left right unmarked =>
    match s.cas right unmarked (getMarkedRef unmarked) with
    | (true, s') => (s', .removeVal left right)
    | (false, s') => (s', .listSearch)
  | .removeVal left right => (s, .finalNext left right (s.val right))
  | .finalNext left right ret => (s, .finalCas left right (getUnmarkedRef (s.next right)).ptr ret)
  | .finalCas left right newNext ret =>
    match s.cas left right.ref newNext.ref with
    | (true, s') => (s', .finalFree right ret)
    | (false, s') => (s', .done (.val ret))
  | .finalFree right ret => (s.ssmemFree right, .done (.val ret))
  | .done r => (s, .done r)
  | .unchanged r => (s, .unchanged r)

def result : Pc T V → Option (Answer V)
  | .done r => some r
  | .unchanged r => some r
  | _ => none

/-- The list, for clients that keep to keys strictly between the sentinels'
and values other than 0. -/
def program (T K V : Type*) [DecidableEq T] [LinearOrder K] [BoundedOrder K] [Zero V] :
    Program T (Call K V) (Answer V) (Heap T K V) (Pc T V) Unit where
  init := Heap.empty
  pre := Client
  start := start
  step _ t s op l := some (step t s op l)
  result := result

/-! ### What holds at each point of a call -/

open HarrisHeap

variable [BoundedOrder K] {t u : T} {S W : Set (Heap T K V)} {s s' : Heap T K V} {op : Call K V}

/-- The assertion at each local state, for thread `t` in call `op`, in a run
through the memories `S` of which `W` since the call. -/
def At (t : T) (S W : Set (Heap T K V)) (s : Heap T K V) (op : Call K V) : Pc T V → Prop
  | .find => ∃ k, op = .search k
  | .findLt node => (∃ k, op = .search k) ∧ Walked W s op.key node
  | .findNext node => (∃ k, op = .search k) ∧ Met Lnk W node ∧ s.key node < op.key
  | .findEq node => (∃ k, op = .search k) ∧ Walked W s op.key node ∧ op.key ≤ s.key node
  | .findMark node => (∃ k, op = .search k) ∧ Met Lnk W node ∧ s.key node = op.key
  | .findVal node => (∃ k, op = .search k) ∧ Pub S node ∧ SomeSeen W op.key (s.val node)
  | .listSearch => ¬ ∃ k, op = .search k
  | .testMark left right => (¬ ∃ k, op = .search k) ∧ LeftOf S s op.key left ∧ Walked W s op.key right
  | .testKey left right => (¬ ∃ k, op = .search k) ∧ LeftOf S s op.key left ∧
      Walked W s op.key right ∧ (s.key right = op.key → ∃ v, SomeSeen W op.key v)
  | .unlinkNext left right => (¬ ∃ k, op = .search k) ∧ LeftOf S s op.key left ∧
      Walked W s op.key right ∧ s.Marked right
  | .unlinkCas left right newNext => (¬ ∃ k, op = .search k) ∧ LeftOf S s op.key left ∧
      Walked W s op.key right ∧ s.Marked right ∧ s.succ right = newNext
  | .unlinkFree left right => (¬ ∃ k, op = .search k) ∧ LeftOf S s op.key left ∧
      Passed W s op.key right ∧ right ≠ .tail
  | .advance left right => (¬ ∃ k, op = .search k) ∧ LeftOf S s op.key left ∧
      Passed W s op.key right ∧ right ≠ .tail
  | .insertEq left right => (∃ k v, op = .insert k v) ∧ LeftOf S s op.key left ∧ Pub S right ∧
      op.key ≤ s.key right ∧ (s.key right = op.key → ∃ v, SomeSeen W op.key v)
  | .insertAlloc left right => (∃ k v, op = .insert k v) ∧ LeftOf S s op.key left ∧ Pub S right ∧
      op.key < s.key right
  | .insertCas left right node => ∃ k v, op = .insert k v ∧ LeftOf S s k left ∧ Pub S right ∧
      k < s.key right ∧ Private t S s k v right node
  | .insertFree _ => ∃ k v, op = .insert k v
  | .removeEq left right => (∃ k, op = .remove k) ∧ LeftOf S s op.key left ∧
      Walked W s op.key right ∧ op.key ≤ s.key right
  | .removeNext left right => (∃ k, op = .remove k) ∧ LeftOf S s op.key left ∧ Pub S right ∧
      s.key right = op.key
  | .removeCas left right unmarked => (∃ k, op = .remove k) ∧ LeftOf S s op.key left ∧
      Pub S right ∧ s.key right = op.key ∧ unmarked.mark = false
  | .removeVal left right => (∃ k, op = .remove k) ∧ LeftOf S s op.key left ∧ Pub S right ∧
      s.key right = op.key ∧ s.Marked right
  | .finalNext left right _ => LeftOf S s op.key left ∧ Pub S right ∧ s.Marked right
  | .finalCas left right newNext _ => LeftOf S s op.key left ∧ Pub S right ∧ s.Marked right ∧
      s.succ right = newNext
  | .finalFree _ _ => True
  | .done _ => True
  | .unchanged r => ∃ s₀ ∈ W, (mapObject K V).apply op (absMap s₀) = (absMap s₀, r)

/-- A step of another thread keeps the assertion. -/
theorem At.step {l : Pc T V} (h : At u S W s op l) (hW : W ⊆ S) (hu : u ≠ t)
    (hk : Keeps t S s s') : At u (insert s' S) (insert s' W) s' op l := by
  have hkey : ∀ {x}, Pub S x → s'.key x = s.key x := fun hx => hk.key _ hx
  have hmark : ∀ {x}, Pub S x → s.Marked x → s'.Marked x := fun hx hm => by
    rw [Heap.Marked, Heap.next, hk.frozen _ hx hm]; exact hm
  have hsucc : ∀ {x}, Pub S x → s.Marked x → s'.succ x = s.succ x := fun hx hm => by
    simp only [Heap.succ, Heap.next, hk.frozen _ hx hm]
  cases l with
  | find => exact h
  | findLt node => exact ⟨h.1, walked_step h.2 hW hk⟩
  | findNext node =>
    obtain ⟨h1, h2, h3⟩ := h
    exact ⟨h1, h2.insert s', by rw [hkey (h2.mono hW)]; exact h3⟩
  | findEq node =>
    obtain ⟨h1, h2, h3⟩ := h
    exact ⟨h1, walked_step h2 hW hk, by rw [hkey (h2.1.mono hW)]; exact h3⟩
  | findMark node =>
    obtain ⟨h1, h2, h3⟩ := h
    exact ⟨h1, h2.insert s', by rw [hkey (h2.mono hW)]; exact h3⟩
  | findVal node =>
    obtain ⟨h1, h2, h3⟩ := h
    exact ⟨h1, h2.insert s', by rw [hk.val _ h2]; exact h3.insert s'⟩
  | listSearch => exact h
  | testMark left right => exact ⟨h.1, h.2.1.step hk, walked_step h.2.2 hW hk⟩
  | testKey left right =>
    obtain ⟨h1, h2, h3, h4⟩ := h
    refine ⟨h1, h2.step hk, walked_step h3 hW hk, fun he => ?_⟩
    rw [hkey (h3.1.mono hW)] at he
    exact (h4 he).imp fun v hv => hv.insert s'
  | unlinkNext left right =>
    obtain ⟨h1, h2, h3, h4⟩ := h
    exact ⟨h1, h2.step hk, walked_step h3 hW hk, hmark (h3.1.mono hW) h4⟩
  | unlinkCas left right newNext =>
    obtain ⟨h1, h2, h3, h4, h5⟩ := h
    exact ⟨h1, h2.step hk, walked_step h3 hW hk, hmark (h3.1.mono hW) h4,
      (hsucc (h3.1.mono hW) h4).trans h5⟩
  | unlinkFree left right => exact ⟨h.1, h.2.1.step hk, passed_step h.2.2.1 hW hk, h.2.2.2⟩
  | advance left right => exact ⟨h.1, h.2.1.step hk, passed_step h.2.2.1 hW hk, h.2.2.2⟩
  | insertEq left right =>
    obtain ⟨h1, h2, h3, h4, h5⟩ := h
    refine ⟨h1, h2.step hk, h3.insert s', by rw [hkey h3]; exact h4, fun he => ?_⟩
    rw [hkey h3] at he
    exact (h5 he).imp fun v hv => hv.insert s'
  | insertAlloc left right =>
    obtain ⟨h1, h2, h3, h4⟩ := h
    exact ⟨h1, h2.step hk, h3.insert s', by rw [hkey h3]; exact h4⟩
  | insertCas left right node =>
    obtain ⟨k, v, h1, h2, h3, h4, h5⟩ := h
    exact ⟨k, v, h1, h2.step hk, h3.insert s', by rw [hkey h3]; exact h4, private_step h5 hu hk⟩
  | insertFree node => exact h
  | removeEq left right =>
    obtain ⟨h1, h2, h3, h4⟩ := h
    exact ⟨h1, h2.step hk, walked_step h3 hW hk, by rw [hkey (h3.1.mono hW)]; exact h4⟩
  | removeNext left right =>
    obtain ⟨h1, h2, h3, h4⟩ := h
    exact ⟨h1, h2.step hk, h3.insert s', by rw [hkey h3]; exact h4⟩
  | removeCas left right unmarked =>
    obtain ⟨h1, h2, h3, h4, h5⟩ := h
    exact ⟨h1, h2.step hk, h3.insert s', by rw [hkey h3]; exact h4, h5⟩
  | removeVal left right =>
    obtain ⟨h1, h2, h3, h4, h5⟩ := h
    exact ⟨h1, h2.step hk, h3.insert s', by rw [hkey h3]; exact h4, hmark h3 h5⟩
  | finalNext left right ret =>
    obtain ⟨h1, h2, h3⟩ := h
    exact ⟨h1.step hk, h2.insert s', hmark h2 h3⟩
  | finalCas left right newNext ret =>
    obtain ⟨h1, h2, h3, h4⟩ := h
    exact ⟨h1.step hk, h2.insert s', hmark h2 h3, (hsucc h2 h3).trans h4⟩
  | finalFree right ret => trivial
  | done r => trivial
  | unchanged r =>
    obtain ⟨s₀, hs₀, h1⟩ := h
    exact ⟨s₀, Set.mem_insert_of_mem _ hs₀, h1⟩

/-! ### The steps -/

/-- The result of a call that has taken effect. -/
def lin (s : Heap T K V) : Call K V → Pc T V → Option (Answer V)
  | _, .removeVal _ right => some (.val (s.val right))
  | _, .finalNext _ _ ret => some (.val ret)
  | _, .finalCas _ _ _ ret => some (.val ret)
  | _, .finalFree _ ret => some (.val ret)
  | _, .done r => some r
  | _, _ => none

def code (T K V : Type*) [DecidableEq T] [LinearOrder K] [BoundedOrder K] [Zero V] :
    Code T K V (Pc T V) where
  At := At
  lin := lin
  reset _ _ := False

abbrev StepOk (t : T) (S W : Set (Heap T K V)) (s : Heap T K V) (op : Call K V) (l : Pc T V)
    (s' : Heap T K V) (l' : Pc T V) : Prop := (code T K V).StepOk t S W s op l s' l'

/-- A step that only reads. -/
theorem StepOk.read {l l' : Pc T V} (w : Wf S s) (hs : s ∈ W) (h : At t S W s op l')
    (hl : lin s op l' = lin s op l) : StepOk t S W s op l s l' :=
  Code.StepOk.read w hs id h hl

/-- A step that writes. -/
theorem StepOk.write {l l' : Pc T V} (ha : Act t S s s')
    (h : At t (insert s' S) (insert s' W) s' op l')
    (hp : (lin s' op l' = lin s op l ∧ absMap s' = absMap s) ∨ (lin s op l = none ∧ ∃ r,
      lin s' op l' = some r ∧ (mapObject K V).apply op (absMap s) = (absMap s', r))) :
    StepOk t S W s op l s' l' :=
  ⟨ha, by rw [extend_of_not (show ¬ (code T K V).reset op l' from id)]; exact h, hp⟩

section step

variable (w : Wf S s) (hs : s ∈ W) (hW : W ⊆ S) (hh : Hind W s) (hb : ⊥ < op.key) (ht : op.key < ⊤)

include w hs hW hh hb ht

theorem step_ok_find {l : Pc T V} (h : At t S W s op l)
    (hl : l = .find ∨ (∃ n, l = .findLt n) ∨ (∃ n, l = .findNext n) ∨ (∃ n, l = .findEq n) ∨
      (∃ n, l = .findMark n) ∨ ∃ n, l = .findVal n) :
    StepOk t S W s op l (step t s op l).1 (step t s op l).2 := by
  rcases hl with rfl | ⟨n, rfl⟩ | ⟨n, rfl⟩ | ⟨n, rfl⟩ | ⟨n, rfl⟩ | ⟨n, rfl⟩
  · exact .read w hs ⟨h, walked_first w hs hb⟩ rfl
  · obtain ⟨h1, h2⟩ := h
    by_cases hlt : s.key n < op.key
    · simp only [step, hlt, if_true]
      exact .read w hs ⟨h1, h2.1, hlt⟩ rfl
    · simp only [step, hlt, if_false]
      exact .read w hs ⟨h1, h2, not_lt.mp hlt⟩ rfl
  · obtain ⟨h1, h2, h3⟩ := h
    exact .read w hs ⟨h1, passed_next w hW hh ⟨h2, Or.inl h3⟩ (w.ne_tail_of_lt h3)⟩ rfl
  · obtain ⟨h1, h2, h3⟩ := h
    by_cases he : s.key n = op.key
    · simp only [step, he, if_true]
      exact .read w hs ⟨h1, h2.1, he⟩ rfl
    · simp only [step, he, if_false]
      refine .read w hs ?_ rfl
      obtain ⟨s₀, hs₀, h0⟩ := h2.2.resolve_left fun hle => he (le_antisymm hle h3)
      obtain ⟨k, rfl⟩ := h1
      exact ⟨s₀, hs₀, apply_search_none h0⟩
  · obtain ⟨h1, h2, h3⟩ := h
    have hpub := h2.mono hW
    by_cases hm : s.Marked n
    · simp only [step, isMarkedRef, show (s.next n).mark = true from hm]
      refine .read w hs ?_ rfl
      obtain ⟨s₀, hs₀, h0⟩ := w.noneSeen_of_marked hW hh h2 hm
      obtain ⟨k, rfl⟩ := h1
      rw [show s.key n = k from h3] at h0
      exact ⟨s₀, hs₀, apply_search_none h0⟩
    · simp only [step, isMarkedRef, show (s.next n).mark = false by simpa [Heap.Marked] using hm]
      refine .read w hs ⟨h1, hpub, s, hs, ?_⟩ rfl
      rw [← h3]
      exact w.absMap_of_unmarked hpub hm (w.ne_head_of_lt (by rw [h3]; exact hb))
        (w.ne_tail_of_lt (by rw [h3]; exact ht))
  · obtain ⟨⟨k, rfl⟩, h2, s₀, hs₀, h0⟩ := h
    exact .read w hs ⟨s₀, hs₀, apply_search_some h0⟩ rfl

theorem step_ok_list_search {l : Pc T V} (h : At t S W s op l)
    (hl : l = .listSearch ∨ (∃ a b, l = .testMark a b) ∨ (∃ a b, l = .testKey a b) ∨
      (∃ a b, l = .unlinkNext a b) ∨ (∃ a b c, l = .unlinkCas a b c) ∨
      (∃ a b, l = .unlinkFree a b) ∨ ∃ a b, l = .advance a b) :
    StepOk t S W s op l (step t s op l).1 (step t s op l).2 := by
  rcases hl with rfl | ⟨a, b, rfl⟩ | ⟨a, b, rfl⟩ | ⟨a, b, rfl⟩ | ⟨a, b, c, rfl⟩ | ⟨a, b, rfl⟩ |
    ⟨a, b, rfl⟩
  · exact .read w hs ⟨h, leftOf_head w hb, walked_first w hs hb⟩ rfl
  · obtain ⟨h1, h2, h3⟩ := h
    by_cases hm : s.Marked b
    · simp only [step, isMarkedRef, show (s.next b).mark = true from hm]
      exact .read w hs ⟨h1, h2, h3, hm⟩ rfl
    · simp only [step, isMarkedRef, show (s.next b).mark = false by simpa [Heap.Marked] using hm]
      refine .read w hs ⟨h1, h2, h3, fun he => ⟨s.val b, s, hs, ?_⟩⟩ rfl
      rw [← he]
      exact w.absMap_of_unmarked (h3.1.mono hW) hm (w.ne_head_of_lt (by rw [he]; exact hb))
        (w.ne_tail_of_lt (by rw [he]; exact ht))
  · obtain ⟨h1, h2, h3, h4⟩ := h
    by_cases hle : op.key ≤ s.key b
    · simp only [step, hle, if_true]
      rcases op with k | ⟨k, v⟩ | k
      · exact absurd ⟨k, rfl⟩ h1
      · exact .read w hs ⟨⟨k, v, rfl⟩, h2, h3.1.mono hW, hle, h4⟩ rfl
      · exact .read w hs ⟨⟨k, rfl⟩, h2, h3, hle⟩ rfl
    · simp only [step, hle, if_false]
      have hlt := not_le.mp hle
      exact .read w hs ⟨h1, ⟨h3.1.mono hW, hlt⟩, ⟨h3.1, Or.inl hlt⟩, w.ne_tail_of_lt hlt⟩ rfl
  · obtain ⟨h1, h2, h3, h4⟩ := h
    exact .read w hs ⟨h1, h2, h3, h4, rfl⟩ rfl
  · obtain ⟨h1, h2, h3, h4, h5⟩ := h
    have hbt : b ≠ .tail := fun he => w.tail_mark (he ▸ h4)
    have hp : Passed W s op.key b := walked_marked w hW hh h3 h4
    rcases hc : s.cas a b.ref c.ref with ⟨⟨⟩, s'⟩
    · simp only [step, hc]
      rw [Heap.cas_false hc]
      exact .read w hs ⟨h1, h2, hp, hbt⟩ rfl
    · simp only [step, hc]
      obtain ⟨hn, rfl⟩ := Heap.cas_true hc
      obtain ⟨hact, habs⟩ := h2.unlink (t := t) w h4 h5 hn
      have hk := hact.keeps w
      exact .write hact ⟨h1, h2.step hk, passed_step hp hW hk, hbt⟩ (Or.inl ⟨rfl, habs⟩)
  · obtain ⟨h1, h2, h3, h4⟩ := h
    have hact : Act t S s (s.ssmemFree b) := .free b
    have hk := hact.keeps w
    exact .write hact ⟨h1, h2.step hk, passed_step h3 hW hk, h4⟩ (Or.inl ⟨rfl, rfl⟩)
  · obtain ⟨h1, h2, h3, h4⟩ := h
    exact .read w hs ⟨h1, h2, passed_next w hW hh h3 h4⟩ rfl

theorem step_ok_insert {l : Pc T V} (h : At t S W s op l)
    (hl : (∃ a b, l = .insertEq a b) ∨ (∃ a b, l = .insertAlloc a b) ∨
      (∃ a b n, l = .insertCas a b n) ∨ ∃ n, l = .insertFree n) :
    StepOk t S W s op l (step t s op l).1 (step t s op l).2 := by
  rcases hl with ⟨a, b, rfl⟩ | ⟨a, b, rfl⟩ | ⟨a, b, n, rfl⟩ | ⟨n, rfl⟩
  · obtain ⟨h1, h2, h3, h4, h5⟩ := h
    by_cases he : s.key b = op.key
    · simp only [step, he, if_true]
      obtain ⟨v, s₀, hs₀, h0⟩ := h5 he
      obtain ⟨k, w, rfl⟩ := h1
      exact .read ‹_› hs ⟨s₀, hs₀, apply_insert_some h0⟩ rfl
    · simp only [step, he, if_false]
      exact .read w hs ⟨h1, h2, h3, lt_of_le_of_ne h4 (Ne.symm he)⟩ rfl
  · obtain ⟨⟨k, v, rfl⟩, h2, h3, h4⟩ := h
    obtain ⟨hact, habs, hp⟩ := allocate_act (t := t) w k v b
    have hk := hact.keeps w
    exact .write hact ⟨k, v, rfl, h2.step hk, h3.insert _, h4.trans_eq (hk.key b h3).symm, hp⟩
      (Or.inl ⟨rfl, habs⟩)
  · obtain ⟨k, v, rfl, h2, h3, h4, h5⟩ := h
    rcases hc : s.cas a b.ref n.ref with ⟨⟨⟩, s'⟩
    · simp only [step, hc]
      rw [Heap.cas_false hc]
      exact .read w hs ⟨k, v, rfl⟩ rfl
    · simp only [step, hc]
      obtain ⟨hn, rfl⟩ := Heap.cas_true hc
      obtain ⟨hact, hap⟩ := private_link w h5 h2 h4 hn
      exact .write hact trivial (Or.inr ⟨rfl, _, rfl, hap⟩)
  · obtain ⟨k, v, rfl⟩ := h
    exact .write (.free n) nofun (Or.inl ⟨rfl, rfl⟩)

theorem step_ok_remove {l : Pc T V} (h : At t S W s op l)
    (hl : (∃ a b, l = .removeEq a b) ∨ (∃ a b, l = .removeNext a b) ∨
      (∃ a b c, l = .removeCas a b c) ∨ (∃ a b, l = .removeVal a b) ∨
      (∃ a b r, l = .finalNext a b r) ∨ (∃ a b c r, l = .finalCas a b c r) ∨
      ∃ b r, l = .finalFree b r) :
    StepOk t S W s op l (step t s op l).1 (step t s op l).2 := by
  rcases hl with ⟨a, b, rfl⟩ | ⟨a, b, rfl⟩ | ⟨a, b, c, rfl⟩ | ⟨a, b, rfl⟩ | ⟨a, b, r, rfl⟩ |
    ⟨a, b, c, r, rfl⟩ | ⟨b, r, rfl⟩
  · obtain ⟨h1, h2, h3, h4⟩ := h
    by_cases he : s.key b = op.key
    · simp only [step, he, ne_eq, not_true_eq_false, if_false]
      exact .read w hs ⟨h1, h2, h3.1.mono hW, he⟩ rfl
    · simp only [step, he, ne_eq, not_false_eq_true, if_true]
      obtain ⟨s₀, hs₀, h0⟩ := h3.2.resolve_left fun hle => he (le_antisymm hle h4)
      obtain ⟨k, rfl⟩ := h1
      exact .read w hs ⟨s₀, hs₀, apply_remove_none h0⟩ rfl
  · obtain ⟨h1, h2, h3, h4⟩ := h
    exact .read w hs ⟨h1, h2, h3, h4, rfl⟩ rfl
  · obtain ⟨⟨k, rfl⟩, h2, h3, h4, h5⟩ := h
    rcases hc : s.cas b c (getMarkedRef c) with ⟨⟨⟩, s'⟩
    · simp only [step, hc]
      rw [Heap.cas_false hc]
      exact .read w hs (by rintro ⟨_, ⟨⟩⟩) rfl
    · simp only [step, hc]
      obtain ⟨hn, rfl⟩ := Heap.cas_true hc
      obtain ⟨q, m⟩ := c
      obtain rfl : m = false := h5
      obtain ⟨hact, hap⟩ := w.mark_act (t := t) h3 h4 hb ht hn
      have hk := hact.keeps w
      refine .write hact ⟨⟨k, rfl⟩, h2.step hk, h3.insert _, (hk.key b h3).trans h4, ?_⟩
        (Or.inr ⟨rfl, _, rfl, ?_⟩)
      · exact (mark_marked b).mpr (Or.inr rfl)
      · exact hap.trans (congrArg (fun v => (_, Answer.val v)) (hk.val b h3).symm)
  · obtain ⟨h1, h2, h3, h4, h5⟩ := h
    exact .read w hs ⟨h2, h3, h5⟩ rfl
  · obtain ⟨h1, h2, h3⟩ := h
    exact .read w hs ⟨h1, h2, h3, rfl⟩ rfl
  · obtain ⟨h1, h2, h3, h4⟩ := h
    rcases hc : s.cas a b.ref c.ref with ⟨⟨⟩, s'⟩
    · simp only [step, hc]
      rw [Heap.cas_false hc]
      exact .read w hs trivial rfl
    · simp only [step, hc]
      obtain ⟨hn, rfl⟩ := Heap.cas_true hc
      obtain ⟨hact, habs⟩ := h1.unlink w h3 h4 hn
      exact .write hact trivial (Or.inl ⟨rfl, habs⟩)
  · exact .write (.free b) trivial (Or.inl ⟨rfl, rfl⟩)

/-- **Every step is one of the writes, and leads to the next assertion.** -/
theorem step_ok {l : Pc T V} (h : At t S W s op l) (hr : result l = none) :
    StepOk t S W s op l (step t s op l).1 (step t s op l).2 := by
  cases l
  case find | findLt | findNext | findEq | findMark | findVal =>
    exact step_ok_find w hs hW hh hb ht h (by simp)
  case listSearch | testMark | testKey | unlinkNext | unlinkCas | unlinkFree | advance =>
    exact step_ok_list_search w hs hW hh hb ht h (by simp)
  case insertEq | insertAlloc | insertCas | insertFree =>
    exact step_ok_insert w hs hW hh hb ht h (by simp)
  case removeEq | removeNext | removeCas | removeVal | finalNext | finalCas | finalFree =>
    exact step_ok_remove w hs hW hh hb ht h (by simp)
  case done => cases hr
  case unchanged => cases hr

end step

theorem lin_step {l : Pc T V} (h : At u S W s op l) (hk : Keeps t S s s') :
    lin s' op l = lin s op l := by
  cases l
  case removeVal => simp [lin, hk.val _ h.2.2.1]
  all_goals rfl

/-- The assertions hold for any clients that keep to the keys. -/
theorem correct_of_keyed [Nontrivial K] {pre : Call K V → Prop} (hpre : ∀ op, pre op → Keyed op) :
    (code T K V).Correct { program T K V with pre := pre } where
  init := rfl
  pre := hpre
  start t S s op h := by cases op <;> simp [code, program, start, At]
  lin_start s op := by cases op <;> rfl
  stable _ h hW hu hk := ⟨At.step h hW hu hk, lin_step h hk⟩
  step := by
    intro t S W s op l s' l' w hs hW hh hc hat hres hstep
    have := step_ok w hs hW hh hc.1 hc.2 hat hres
    have he : step t s op l = (s', l') := Option.some.inj hstep
    rwa [he] at this
  ret := by
    intro t S W s op l r hat hres
    cases l <;> cases hres
    case done => exact Or.inl rfl
    case unchanged => exact Or.inr ⟨rfl, hat⟩

theorem correct [Nontrivial K] : (code T K V).Correct (program T K V) :=
  correct_of_keyed fun _ h => h.keyed

end LinkedListHarrisOpt

end Ascylib
