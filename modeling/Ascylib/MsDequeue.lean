/-
# The lock-free `remove` of the queues

`remove` is the same text in `src/algorithms/queue_ms_lf.h` and
`queue_ms_hybrid.h`. It reads `head`, `tail` and `head->next` one after the
other. An empty answer is justified by the third read: if nothing comes after
`head` then, `head` was `set->head` and the queue was empty. That `tail` was not
before `head` is what makes the CAS on `set->head` keep `tail` in the queue.

Key definitions: `RemovePc`, `removeStep`, `RemoveAt`.
Key theorems: `removeStep_act`, `removeStep_at`, `removeStep_point`.
-/
import Ascylib.MsQueue

set_option linter.unusedSectionVars false
set_option linter.constructorNameAsVariable false

namespace Ascylib

open Concur

namespace MsQueue

variable {T V : Type*} [DecidableEq T]

/-- Where a `remove` is, with the local variables that are live there. -/
inductive RemovePc (T V : Type*) where
  /-- `head = set->head` -/
  | loadHead
  /-- `tail = set->tail` -/
  | loadTail (head : Ptr T)
  /-- `next = head->next` -/
  | loadNext (head tail : Ptr T)
  /-- `head == set->head`, then `head == tail` and `NULL == next` -/
  | check (head tail next : Ptr T)
  /-- `CAS_PTR(&set->tail, tail, next)` -/
  | swing (tail next : Ptr T)
  /-- `CAS_PTR(&set->head, head, next)` -/
  | pop (head next : Ptr T)
  /-- `item = next->item` -/
  | loadItem (head next : Ptr T)
  /-- `release_stackqueue_node(head)` -/
  | release (head : Ptr T) (item : V)
  /-- `return item` -/
  | done (item : V)
  /-- `return 0` -/
  | empty

/-- The next access of a `remove` to shared memory, and what follows from it. -/
def removeStep (s : MsQueue T V) : RemovePc T V → MsQueue T V × RemovePc T V
  | .loadHead => (s, .loadTail s.head)
  | .loadTail head => (s, .loadNext head s.tail)
  | .loadNext head tail => (s, .check head tail (s.next head))
  | .check head tail next =>
    (s, if head = s.head then
        if head = tail then
          if next = .null then .empty else .swing tail next
        else .pop head next
      else .loadHead)
  | .swing tail next => ((s.casTail tail next).2, .loadHead)
  | .pop head next =>
    match s.casHead head next with
    | (true, s') => (s', .loadItem head next)
    | (false, s') => (s', .loadHead)
  | .loadItem head next => (s, .release head (s.item next))
  | .release head item => (s.releaseStackqueueNode head, .done item)
  | .done item => (s, .done item)
  | .empty => (s, .empty)

section

variable (s : MsQueue T V) (hd tl next : Ptr T)

theorem removeStep_swing_eq (h : s.tail = tl) :
    removeStep s (.swing tl next) = (s.setTail next, .loadHead) := by
  simp only [removeStep, casTail, if_pos h]

theorem removeStep_swing_ne (h : s.tail ≠ tl) : removeStep s (.swing tl next) = (s, .loadHead) := by
  simp only [removeStep, casTail, if_neg h]

theorem removeStep_pop_eq (h : s.head = hd) :
    removeStep s (.pop hd next) = (s.setHead next, .loadItem hd next) := by
  simp only [removeStep, casHead, if_pos h]

theorem removeStep_pop_ne (h : s.head ≠ hd) : removeStep s (.pop hd next) = (s, .loadHead) := by
  simp only [removeStep, casHead, if_neg h]

end

def RemovePc.result [Zero V] : RemovePc T V → Option (Answer V)
  | .done item => some (.val item)
  | .empty => some (.val 0)
  | _ => none

/-- The result of a `remove` that has taken its item. -/
def removeLin (s : MsQueue T V) : RemovePc T V → Option (Answer V)
  | .loadItem _ next => some (.val (s.item next))
  | .release _ item => some (.val item)
  | .done item => some (.val item)
  | _ => none

section assertions

variable [Zero V]

/-- A node that was `set->head`. -/
def WasHead (s : MsQueue T V) (x : Ptr T) : Prop := x ∈ s.all ∧ s.head ∈ s.onward x

/-- A node that was `set->tail`. -/
def WasTail (s : MsQueue T V) (x : Ptr T) : Prop := x ∈ s.all ∧ s.tail ∈ s.onward x

/-- What holds at each local state of a `remove`; `E` says that the queue was
empty at some moment since the call. -/
def RemoveAt (E : Prop) (s : MsQueue T V) : RemovePc T V → Prop
  | .loadHead => True
  | .loadTail head => s.WasHead head
  | .loadNext head tail => s.WasHead head ∧ s.WasTail tail ∧ tail ∈ s.onward head
  | .check head tail next => s.WasHead head ∧ s.WasTail tail ∧ tail ∈ s.onward head ∧
      if next = .null then tail = head ∧ E else s.next head = next
  | .swing tail next => s.WasTail tail ∧ next ≠ .null ∧ s.next tail = next
  | .pop head next => head ∈ s.all ∧ head ∉ s.onward s.tail ∧ next ≠ .null ∧ s.next head = next
  | .loadItem head next => s.Passed head ∧ next ∈ s.all ∧ s.item next ≠ 0
  | .release head item => s.Passed head ∧ item ≠ 0
  | .done item => item ≠ 0
  | .empty => E

variable {t u : T} {s s' : MsQueue T V} {x : Ptr T} {E E' : Prop}

theorem WasHead.keeps (h : s.WasHead x) (k : Keeps t s s') : s'.WasHead x :=
  ⟨k.all h.1, mem_nodes_trans (k.onward h.1 h.2) k.head⟩

theorem WasTail.keeps (h : s.WasTail x) (k : Keeps t s s') : s'.WasTail x :=
  ⟨k.all h.1, mem_nodes_trans (k.onward h.1 h.2) k.tail⟩

/-- The assertions of a `remove` are stable. -/
theorem RemoveAt.keeps {l : RemovePc T V} (h : RemoveAt E s l) (w : Wf s) (k : Keeps t s s')
    (hE : E → E') : RemoveAt E' s' l := by
  cases l with
  | loadHead => trivial
  | loadTail head => exact WasHead.keeps h k
  | loadNext head tail =>
    obtain ⟨h1, h2, h3⟩ := h
    exact ⟨h1.keeps k, h2.keeps k, k.onward h1.1 h3⟩
  | check head tail next =>
    obtain ⟨h1, h2, h3, h4⟩ := h
    refine ⟨h1.keeps k, h2.keeps k, k.onward h1.1 h3, ?_⟩
    split_ifs at h4 ⊢ with hn
    · exact ⟨h4.1, hE h4.2⟩
    · rw [k.next h1.1 (by rw [h4]; exact hn), h4]
  | swing tail next =>
    obtain ⟨h1, h2, h3⟩ := h
    exact ⟨h1.keeps k, h2, by rw [k.next h1.1 (by rw [h3]; exact h2), h3]⟩
  | pop head next =>
    obtain ⟨h1, h2, h3, h4⟩ := h
    exact ⟨k.all h1, k.before h1 w.tail h2 k.tail, h3,
      by rw [k.next h1 (by rw [h4]; exact h3), h4]⟩
  | loadItem head next =>
    obtain ⟨h1, h2, h3⟩ := h
    exact ⟨h1.keeps w k, k.all h2, by rw [k.item h2]; exact h3⟩
  | release head item => exact ⟨h.1.keeps w k, h.2⟩
  | done item => exact h
  | empty => exact hE h

theorem RemoveAt.lin_keeps {l : RemovePc T V} (h : RemoveAt E s l) (k : Keeps t s s') :
    removeLin s' l = removeLin s l := by
  cases l
  case loadItem head next => simp [removeLin, k.item h.2.1]
  all_goals rfl

/-- The invariant of a queue whose dequeuers help. -/
structure Inv (s : MsQueue T V) : Prop where
  wf : Wf s
  behind : s.Behind
  filled : s.Filled

theorem Inv.initial : Inv (MsQueue.empty : MsQueue T V) :=
  ⟨Wf.initial, behind_empty, .initial⟩

/-! ### The steps -/

/-- A `remove` leaves the nodes alone. -/
theorem removeStep_mem (s : MsQueue T V) (l : RemovePc T V) :
    (removeStep s l).1.memory.mem = s.memory.mem := by
  cases l with
  | swing tail next =>
    by_cases ht : s.tail = tail
    · rw [removeStep_swing_eq s tail next ht]
      rfl
    · rw [removeStep_swing_ne s tail next ht]
  | pop head next =>
    by_cases hh : s.head = head
    · rw [removeStep_pop_eq s head next hh]
      rfl
    · rw [removeStep_pop_ne s head next hh]
  | _ => rfl

theorem removeStep_all (s : MsQueue T V) (l : RemovePc T V) : (removeStep s l).1.all = s.all := by
  have h : (removeStep s l).1.next = s.next := by
    funext x
    rw [next, next, removeStep_mem]
  rw [all, onward, h]

section step

variable (w : Wf s) (hb : s.Behind) {l : RemovePc T V} (h : RemoveAt E s l)

include w h

theorem removeStep_act (t : T) : Act t s (removeStep s l).1 := by
  cases l with
  | swing tail next =>
    obtain ⟨-, h2, h3⟩ := h
    by_cases ht : s.tail = tail
    · rw [removeStep_swing_eq s tail next ht, ← h3, ← ht]
      exact .swing (by rw [ht, h3]; exact h2)
    · rw [removeStep_swing_ne s tail next ht]
      exact .skip
  | pop head next =>
    obtain ⟨-, -, h3, h4⟩ := h
    by_cases hh : s.head = head
    · rw [removeStep_pop_eq s head next hh, ← h4, ← hh]
      exact .pop (by rw [hh, h4]; exact h3)
    · rw [removeStep_pop_ne s head next hh]
      exact .skip
  | release head item => exact .free h.1.1 h.1.2
  | loadHead => exact .skip
  | loadTail => exact .skip
  | loadNext => exact .skip
  | check => exact .skip
  | loadItem => exact .skip
  | done => exact .skip
  | empty => exact .skip

/-- A `remove` moves `head` on only where `tail` is further. -/
theorem removeStep_head : (removeStep s l).1.head = s.head ∨ s.head ≠ s.tail := by
  cases l with
  | swing tail next =>
    left
    by_cases ht : s.tail = tail
    · rw [removeStep_swing_eq s tail next ht]
      rfl
    · rw [removeStep_swing_ne s tail next ht]
  | pop head next =>
    obtain ⟨-, h2, -, -⟩ := h
    by_cases hh : s.head = head
    · right
      intro he
      rw [← hh, he] at h2
      exact h2 (w.self w.tail)
    · rw [removeStep_pop_ne s head next hh]
      exact Or.inl rfl
  | loadHead => exact Or.inl rfl
  | loadTail => exact Or.inl rfl
  | loadNext => exact Or.inl rfl
  | check => exact Or.inl rfl
  | loadItem => exact Or.inl rfl
  | release => exact Or.inl rfl
  | done => exact Or.inl rfl
  | empty => exact Or.inl rfl

theorem removeStep_filled (hf : s.Filled) : (removeStep s l).1.Filled := by
  cases l with
  | swing tail next =>
    by_cases ht : s.tail = tail
    · rw [removeStep_swing_eq s tail next ht]
      exact hf
    · rw [removeStep_swing_ne s tail next ht]
      exact hf
  | pop head next =>
    obtain ⟨-, -, h3, h4⟩ := h
    by_cases hh : s.head = head
    · rw [removeStep_pop_eq s head next hh]
      intro v hv
      refine hf v ?_
      rw [w.abs_cons (by rw [hh, h4]; exact h3), hh, h4]
      exact List.mem_cons_of_mem _ hv
    · rw [removeStep_pop_ne s head next hh]
      exact hf
  | loadHead => exact hf
  | loadTail => exact hf
  | loadNext => exact hf
  | check => exact hf
  | loadItem => exact hf
  | release => exact hf
  | done => exact hf
  | empty => exact hf

/-- A `remove` takes effect where its CAS on `set->head` succeeds. -/
theorem removeStep_point :
    (removeLin (removeStep s l).1 (removeStep s l).2 = removeLin s l ∧ (removeStep s l).1.abs = s.abs) ∨
    (removeLin s l = none ∧ ∃ r, removeLin (removeStep s l).1 (removeStep s l).2 = some r ∧
      (queueObject V).apply .remove s.abs = ((removeStep s l).1.abs, r)) := by
  cases l with
  | check head tail next =>
    refine Or.inl ⟨?_, rfl⟩
    simp only [removeStep]
    split_ifs <;> rfl
  | swing tail next =>
    left
    by_cases ht : s.tail = tail
    · rw [removeStep_swing_eq s tail next ht]
      exact ⟨rfl, rfl⟩
    · rw [removeStep_swing_ne s tail next ht]
      exact ⟨rfl, rfl⟩
  | pop head next =>
    obtain ⟨-, -, h3, h4⟩ := h
    by_cases hh : s.head = head
    · right
      rw [removeStep_pop_eq s head next hh]
      refine ⟨rfl, _, rfl, ?_⟩
      rw [w.abs_cons (by rw [hh, h4]; exact h3), hh, h4]
      rfl
    · rw [removeStep_pop_ne s head next hh]
      exact Or.inl ⟨rfl, rfl⟩
  | loadHead => exact Or.inl ⟨rfl, rfl⟩
  | loadTail => exact Or.inl ⟨rfl, rfl⟩
  | loadNext => exact Or.inl ⟨rfl, rfl⟩
  | loadItem => exact Or.inl ⟨rfl, rfl⟩
  | release => exact Or.inl ⟨rfl, rfl⟩
  | done => exact Or.inl ⟨rfl, rfl⟩
  | empty => exact Or.inl ⟨rfl, rfl⟩

include hb

theorem removeStep_at (hf : s.Filled) (hE : E → E') (habs : s.abs = [] → E') :
    RemoveAt E' (removeStep s l).1 (removeStep s l).2 := by
  cases l with
  | loadHead => exact ⟨w.head, w.self w.head⟩
  | loadTail head => exact ⟨h, ⟨w.tail, w.self w.tail⟩, mem_nodes_trans h.2 hb⟩
  | loadNext head tail =>
    obtain ⟨h1, h2, h3⟩ := h
    refine ⟨h1, h2, h3, ?_⟩
    split_ifs with hn
    · have hhead : s.head = head := eq_of_last h1.2 hn
      exact ⟨eq_of_last h3 hn, habs (w.abs_nil (by rw [hhead]; exact hn))⟩
    · rfl
  | check head tail next =>
    obtain ⟨h1, h2, h3, h4⟩ := h
    simp only [removeStep]
    split_ifs with hh ht hn
    · rw [if_pos hn] at h4
      exact hE h4.2
    · rw [if_neg hn] at h4
      exact ⟨h2, hn, ht ▸ h4⟩
    · have hn : next ≠ .null := by
        intro hn
        rw [if_pos hn] at h4
        exact ht h4.1.symm
      rw [if_neg hn] at h4
      refine ⟨h1.1, fun hm => ht ?_, hn, h4⟩
      exact mem_nodes_antisymm h3 (mem_nodes_trans h2.2 hm)
    · trivial
  | swing tail next => trivial
  | pop head next =>
    obtain ⟨h1, h2, h3, h4⟩ := h
    by_cases hh : s.head = head
    · rw [removeStep_pop_eq s head next hh]
      have hn : s.next head ≠ .null := by rw [h4]; exact h3
      have hnext : next ∈ s.all := h4 ▸ w.mem_next h1 hn
      refine ⟨⟨h1, fun hm => ?_⟩, hnext, hf _ ?_⟩
      · exact w.not_mem_onward_next h1 (h4 ▸ hm)
      · rw [w.abs_cons (by rw [hh]; exact hn), hh, h4]
        exact List.mem_cons_self
    · rw [removeStep_pop_ne s head next hh]
      trivial
  | loadItem head next => exact ⟨h.1, h.2.2⟩
  | release head item => exact h.2
  | done item => exact h
  | empty => exact hE h

end step

end assertions

end MsQueue

end Ascylib
