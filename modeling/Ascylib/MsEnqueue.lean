/-
# The lock-based `add` of the queues

`add` is the same text in `src/algorithms/queue_ms_lb.h` and
`queue_ms_hybrid.h`: under `tail_lock`, one store links the node behind
`set->tail` and another moves `set->tail`. While the lock is free `set->tail` is
the last node. Between the two stores it is the last but one, or the last
already, if a dequeuer helped.

Key definitions: `LockedQueue`, `addStep`, `AddAt`, `Still`.
Key theorems: `addStep_ok`, `AddAt.keeps`.
-/
import Ascylib.LockIf
import Ascylib.MsQueue

set_option linter.unusedSectionVars false
set_option linter.constructorNameAsVariable false

namespace Ascylib

open Concur

/-- `struct queue` with its two locks. -/
structure LockedQueue (T V Λ : Type*) where
  queue : MsQueue T V
  headLock : Λ
  tailLock : Λ

namespace LockedQueue

open MsQueue

variable {T V Λ : Type*} [DecidableEq T]

/-- The constructor; it leaves the locks as the memory was. -/
def empty [Zero V] (headLock tailLock : Λ) : LockedQueue T V Λ := ⟨MsQueue.empty, headLock, tailLock⟩

/-- Where an `add` is, with the local variables that are live there. -/
inductive AddPc (T V : Type*) where
  /-- `node = allocate_stackqueue_node(item, NULL)` -/
  | alloc (item : V)
  /-- `LOCK_A(&set->tail_lock)` -/
  | lock (node : Ptr T)
  /-- `set->tail` in `set->tail->next = node` -/
  | loadTail (node : Ptr T)
  /-- `tail->next = node`, where `tail` is what was read -/
  | link (node tail : Ptr T)
  /-- `set->tail = node` -/
  | swing (node : Ptr T)
  /-- `UNLOCK_A(&set->tail_lock)` -/
  | unlock
  /-- `return 1` -/
  | done

/-- The thread is between `LOCK_A` and `UNLOCK_A`. -/
def AddPc.Inside : AddPc T V → Prop
  | .loadTail _ | .link _ _ | .swing _ | .unlock => True
  | _ => False

/-- The next access of an `add` of thread `me`, and what follows from it. -/
def addStep (A : LockOps T Λ) (me : T) (s : LockedQueue T V Λ) :
    AddPc T V → Option (LockedQueue T V Λ × AddPc T V)
  | .alloc item =>
    let (queue, node) := s.queue.allocateStackqueueNode me item
    some ({ s with queue := queue }, .lock node)
  | .lock node => (A.lock me s.tailLock).map fun w => ({ s with tailLock := w }, .loadTail node)
  | .loadTail node => some (s, .link node s.queue.tail)
  | .link node tail => some ({ s with queue := s.queue.setNext tail node }, .swing node)
  | .swing node => some ({ s with queue := s.queue.setTail node }, .unlock)
  | .unlock => some ({ s with tailLock := A.unlock me s.tailLock }, .done)
  | .done => some (s, .done)

/-- What `add` does with `tail_lock`, and that it leaves `head_lock` alone. -/
theorem addStep_lock {A : LockOps T Λ} {me : T} {s s' : LockedQueue T V Λ} {l l' : AddPc T V}
    (h : addStep A me s l = some (s', l')) : s'.headLock = s.headLock ∧
    (((∃ node, l = .lock node) ∧ A.lock me s.tailLock = some s'.tailLock ∧ l'.Inside) ∨
      (l.Inside ∧ ¬ l'.Inside ∧ s'.tailLock = A.unlock me s.tailLock) ∨
      ((∀ node, l ≠ .lock node) ∧ s'.tailLock = s.tailLock ∧ (l'.Inside ↔ l.Inside))) := by
  cases l with
  | lock node =>
    obtain ⟨w, hw, he⟩ := Option.map_eq_some_iff.mp h
    cases he
    exact ⟨rfl, Or.inl ⟨⟨node, rfl⟩, hw, trivial⟩⟩
  | unlock =>
    cases h
    exact ⟨rfl, Or.inr (Or.inl ⟨trivial, id, rfl⟩)⟩
  | alloc =>
    cases h
    exact ⟨rfl, Or.inr (Or.inr ⟨nofun, rfl, Iff.rfl⟩)⟩
  | loadTail =>
    cases h
    exact ⟨rfl, Or.inr (Or.inr ⟨nofun, rfl, Iff.rfl⟩)⟩
  | link =>
    cases h
    exact ⟨rfl, Or.inr (Or.inr ⟨nofun, rfl, Iff.rfl⟩)⟩
  | swing =>
    cases h
    exact ⟨rfl, Or.inr (Or.inr ⟨nofun, rfl, Iff.rfl⟩)⟩
  | done =>
    cases h
    exact ⟨rfl, Or.inr (Or.inr ⟨nofun, rfl, Iff.rfl⟩)⟩

/-! ### The assertions -/

/-- A step that links nothing: `tail` stays, or moves on to the node behind it. -/
structure Still (s s' : MsQueue T V) : Prop where
  next : ∀ x ∈ s.all, s'.next x = s.next x
  tail : s'.tail = s.tail ∨ s.next s.tail ≠ .null ∧ s'.tail = s.next s.tail

/-- What holds at each local state of an `add(item)` of thread `t`. -/
def AddAt (t : T) (s : MsQueue T V) (item : V) : AddPc T V → Prop
  | .alloc v => v = item
  | .lock node => Own t s item node
  | .loadTail node => Own t s item node ∧ s.next s.tail = .null
  | .link node tail => Own t s item node ∧ s.tail = tail ∧ s.next tail = .null
  | .swing node => node ∈ s.all ∧ s.next node = .null ∧ (s.tail = node ∨ s.next s.tail = node)
  | .unlock => s.next s.tail = .null
  | .done => True

/-- The result of an `add` that has linked its node. -/
def addLin : AddPc T V → Option (Answer V)
  | .swing _ | .unlock | .done => some (.flag true)
  | _ => none

variable {t u : T} {s s' : MsQueue T V} {item : V}

theorem Still.last (h : Still s s') (w : Wf s) (hz : s.next s.tail = .null) :
    s'.tail = s.tail ∧ s'.next s'.tail = .null := by
  have ht : s'.tail = s.tail := h.tail.resolve_right fun h => h.1 hz
  exact ⟨ht, by rw [ht, h.next _ w.tail, hz]⟩

/-- A write after which the list is the same links nothing. -/
theorem Still.of_act (a : Act t s s') (w : Wf s) (h : s'.all = s.all) : Still s s' := by
  cases a with
  | skip => exact ⟨fun _ _ => rfl, Or.inl rfl⟩
  | own hn he _ _ _ ht =>
    refine ⟨fun x hx => ?_, Or.inl ht⟩
    exact congrArg StackqueueNode.next (he x fun h => hn (h ▸ hx))
  | @link m hz hn _ hn' =>
    have he : s.all ++ [.node t m] = s.all := (link_onward w hz hn hn' w.root).symm.trans h
    have hlen : s.all.length + 1 = s.all.length := by simpa using congrArg List.length he
    omega
  | swing hn => exact ⟨fun _ _ => rfl, Or.inr ⟨hn, rfl⟩⟩
  | pop => exact ⟨fun _ _ => rfl, Or.inl rfl⟩
  | free => exact ⟨fun _ _ => rfl, Or.inl rfl⟩

/-- The assertions of an `add` are stable, if nobody links while it has the lock. -/
theorem AddAt.keeps {l : AddPc T V} (h : AddAt u s item l) (w : Wf s) (k : Keeps t s s') (hu : u ≠ t)
    (hs : l.Inside → Still s s') : AddAt u s' item l := by
  cases l with
  | alloc v => exact h
  | lock node => exact Own.keeps h k hu
  | loadTail node => exact ⟨h.1.keeps k hu, ((hs trivial).last w h.2).2⟩
  | link node tail =>
    obtain ⟨h1, rfl, h3⟩ := h
    obtain ⟨ht, hz⟩ := (hs trivial).last w h3
    exact ⟨h1.keeps k hu, ht, by rw [← ht]; exact hz⟩
  | swing node =>
    obtain ⟨h1, h2, h3⟩ := h
    have hstill := hs trivial
    refine ⟨k.all h1, by rw [hstill.next node h1]; exact h2, ?_⟩
    rcases hstill.tail with ht | ⟨hn, ht⟩
    · rw [ht, hstill.next _ w.tail]
      exact h3
    · -- a dequeuer has moved `tail` on to the node
      rcases h3 with h3 | h3
      · rw [h3] at hn
        exact absurd h2 hn
      · exact Or.inl (ht.trans h3)
  | unlock => exact ((hs trivial).last w h).2
  | done => trivial

/-! ### The steps -/

/-- What a step does: it is one of the writes, it leads to the next assertion,
and it changes the items only where the call takes effect. -/
structure AddOk (t : T) (s : MsQueue T V) (item : V) (l : AddPc T V) (s' : MsQueue T V) (l' : AddPc T V) :
    Prop where
  act : Act t s s'
  head : s'.head = s.head
  next : AddAt t s' item l'
  still : ¬ l.Inside → Still s s'
  point : (addLin l' = addLin l ∧ s'.abs = s.abs) ∨
    (addLin l = none ∧ addLin l' = some (.flag true) ∧
      s'.abs = s.abs ++ [item])

/-- When the lock is given back, `set->tail` is the last node. -/
theorem addStep_last {A : LockOps T Λ} {s s' : LockedQueue T V Λ} {l l' : AddPc T V}
    (h : AddAt t s.queue item l) (hstep : addStep A t s l = some (s', l')) (hi : l.Inside)
    (hn : ¬ l'.Inside) : s'.queue.next s'.queue.tail = .null := by
  cases l with
  | unlock =>
    cases hstep
    exact h
  | loadTail =>
    cases hstep
    exact absurd trivial hn
  | link =>
    cases hstep
    exact absurd trivial hn
  | swing =>
    cases hstep
    exact absurd trivial hn
  | alloc => exact hi.elim
  | lock => exact hi.elim
  | done => exact hi.elim

theorem addStep_ok {A : LockOps T Λ} {s s' : LockedQueue T V Λ} (w : Wf s.queue) {l l' : AddPc T V}
    (h : AddAt t s.queue item l)
    (hfree : (∃ node, l = .lock node) → (A.lock t s.tailLock).isSome → s.queue.next s.queue.tail = .null)
    (hstep : addStep A t s l = some (s', l')) : AddOk t s.queue item l s'.queue l' := by
  have hskip : Still s.queue s.queue := ⟨fun _ _ => rfl, Or.inl rfl⟩
  cases l with
  | alloc v =>
    cases hstep
    obtain rfl : v = item := h
    have hact : Act t s.queue (s.queue.allocateStackqueueNode t v).1 := allocate_act w
    refine ⟨hact, rfl, allocate_own w, fun _ => .of_act hact w ?_, Or.inl ⟨rfl, allocate_abs w⟩⟩
    exact allocate_all w
  | lock node =>
    obtain ⟨word, hw, he⟩ := Option.map_eq_some_iff.mp hstep
    cases he
    exact ⟨.skip, rfl, ⟨h, hfree ⟨node, rfl⟩ (by rw [hw]; rfl)⟩, fun _ => hskip, Or.inl ⟨rfl, rfl⟩⟩
  | loadTail node =>
    cases hstep
    exact ⟨.skip, rfl, ⟨h.1, rfl, h.2⟩, fun _ => hskip, Or.inl ⟨rfl, rfl⟩⟩
  | link node tail =>
    cases hstep
    obtain ⟨h1, rfl, h3⟩ := h
    have hact := h1.link_act w h3
    have hall : node ∈ (s.queue.setNext s.queue.tail node).all := by
      rw [MsQueue.all, h1.link_onward w h3 w.root]
      exact List.mem_append_right _ (List.mem_singleton_self _)
    refine ⟨hact, rfl, ⟨hall, ?_, Or.inr (next_setNext_self ..)⟩, fun hn => absurd trivial hn, ?_⟩
    · exact h1.link_next w
    · exact Or.inr ⟨rfl, rfl, h1.link_abs w h3⟩
  | swing node =>
    cases hstep
    obtain ⟨h1, h2, h3⟩ := h
    refine ⟨?_, rfl, h2, fun hn => absurd trivial hn, Or.inl ⟨rfl, rfl⟩⟩
    rcases h3 with rfl | rfl
    · exact .skip
    · exact .swing (w.ne_null h1)
  | unlock =>
    cases hstep
    exact ⟨.skip, rfl, trivial, fun _ => hskip, Or.inl ⟨rfl, rfl⟩⟩
  | done =>
    cases hstep
    exact ⟨.skip, rfl, trivial, fun _ => hskip, Or.inl ⟨rfl, rfl⟩⟩

end LockedQueue

end Ascylib
