/-
# The queue with two locks

`src/algorithms/queue_ms_lb.h`: `add` works under `tail_lock` and `remove` under
`head_lock`. Its proofs are about the build with a lock for every node, where
`UNLOCK` is `UNLOCK_A`. Between the two
stores of an `add` a dequeuer may take the new item and free the node that
`set->tail` points to. The next `add` waits for the second store, so it links
behind the last node, and that one is never freed.

Key theorem: `queue_ms_lb_linearizable`.
-/
import Ascylib.MsEnqueue

set_option linter.unusedSectionVars false
set_option linter.constructorNameAsVariable false

namespace Ascylib

open Concur MsQueue LockedQueue

namespace QueueMSLB

variable {T V Λ : Type*} [DecidableEq T]

/-- Where a `remove` is, with the local variables that are live there. -/
inductive RemovePc (T V : Type*) where
  /-- `LOCK_A(&set->head_lock)` -/
  | lock
  /-- `node = set->head` -/
  | loadHead
  /-- `head_new = node->next`, and `head_new == NULL` -/
  | loadNext (node : Ptr T)
  /-- `UNLOCK(&set->head_lock)`, before `return 0` -/
  | unlockEmpty
  /-- `val = head_new->item` -/
  | loadItem (node headNew : Ptr T)
  /-- `set->head = head_new` -/
  | setHead (node headNew : Ptr T) (val : V)
  /-- `UNLOCK_A(&set->head_lock)` -/
  | unlock (node : Ptr T) (val : V)
  /-- `release_stackqueue_node(node)` -/
  | release (node : Ptr T) (val : V)
  /-- `return val` -/
  | done (val : V)
  /-- `return 0` -/
  | empty

/-- The thread is between `LOCK_A` and `UNLOCK_A` of `head_lock`. -/
def RemovePc.Inside : RemovePc T V → Prop
  | .loadHead | .loadNext _ | .unlockEmpty | .loadItem _ _ | .setHead _ _ _ | .unlock _ _ => True
  | _ => False

/-- The next access of a `remove` of thread `me`, and what follows from it. -/
def removeStep (A : LockOps T Λ) (llGlobalLock : Bool) (me : T) (s : LockedQueue T V Λ) :
    RemovePc T V → Option (LockedQueue T V Λ × RemovePc T V)
  | .lock => (A.lock me s.headLock).map fun w => ({ s with headLock := w }, .loadHead)
  | .loadHead => some (s, .loadNext s.queue.head)
  | .loadNext node =>
    some (s, if s.queue.next node = .null then .unlockEmpty else .loadItem node (s.queue.next node))
  | .unlockEmpty =>
    some ({ s with headLock := unlockNode A llGlobalLock me s.headLock }, .empty)
  | .loadItem node headNew => some (s, .setHead node headNew (s.queue.item headNew))
  | .setHead node headNew val => some ({ s with queue := s.queue.setHead headNew }, .unlock node val)
  | .unlock node val => some ({ s with headLock := A.unlock me s.headLock }, .release node val)
  | .release node val => some ({ s with queue := s.queue.releaseStackqueueNode node }, .done val)
  | .done val => some (s, .done val)
  | .empty => some (s, .empty)

inductive Pc (T V : Type*) where
  | add (l : AddPc T V)
  | remove (l : RemovePc T V)

def start : SqCall V → Pc T V
  | .add item => .add (.alloc item)
  | .remove => .remove .lock

def step (A : LockOps T Λ) (llGlobalLock : Bool) (me : T) (s : LockedQueue T V Λ) :
    Pc T V → Option (LockedQueue T V Λ × Pc T V)
  | .add l => (addStep A me s l).map fun q => (q.1, .add q.2)
  | .remove l => (removeStep A llGlobalLock me s l).map fun q => (q.1, .remove q.2)

def result [Zero V] : Pc T V → Option (Answer V)
  | .add .done => some (.flag true)
  | .remove (.done val) => some (.val val)
  | .remove .empty => some (.val 0)
  | _ => none

/-- The queue whose locks the constructor found in these states. -/
def program [Zero V] (A : LockOps T Λ) (llGlobalLock : Bool) (headLock tailLock : Λ) :
    Program T (SqCall V) (Answer V) (LockedQueue T V Λ) (Pc T V) Unit where
  init := LockedQueue.empty headLock tailLock
  pre := SqClient
  start := start
  step _ me s _ l := step A llGlobalLock me s l
  result := result

/-! ### The locks -/

/-- What `remove` does with `head_lock`, and that it leaves `tail_lock` alone. -/
theorem removeStep_lock {A : LockOps T Λ} {me : T} {s s' : LockedQueue T V Λ} {l l' : RemovePc T V}
    (h : removeStep A false me s l = some (s', l')) : s'.tailLock = s.tailLock ∧
    ((l = .lock ∧ A.lock me s.headLock = some s'.headLock ∧ l'.Inside) ∨
      (l.Inside ∧ ¬ l'.Inside ∧ s'.headLock = A.unlock me s.headLock) ∨
      (l ≠ .lock ∧ s'.headLock = s.headLock ∧ (l'.Inside ↔ l.Inside))) := by
  cases l with
  | lock =>
    obtain ⟨w, hw, he⟩ := Option.map_eq_some_iff.mp h
    cases he
    exact ⟨rfl, Or.inl ⟨rfl, hw, trivial⟩⟩
  | unlockEmpty =>
    cases h
    exact ⟨rfl, Or.inr (Or.inl ⟨trivial, id, rfl⟩)⟩
  | unlock =>
    cases h
    exact ⟨rfl, Or.inr (Or.inl ⟨trivial, id, rfl⟩)⟩
  | loadNext node =>
    cases h
    refine ⟨rfl, Or.inr (Or.inr ⟨nofun, rfl, ?_⟩)⟩
    by_cases hn : s.queue.next node = .null
    · rw [if_pos hn]
      exact Iff.rfl
    · rw [if_neg hn]
      exact Iff.rfl
  | _ =>
    cases h
    exact ⟨rfl, Or.inr (Or.inr ⟨nofun, rfl, Iff.rfl⟩)⟩

def AsksTail : Pc T V → Prop
  | .add (.lock _) => True
  | _ => False

def AsksHead : Pc T V → Prop
  | .remove .lock => True
  | _ => False

/-- Between `LOCK_A` and `UNLOCK_A` of `tail_lock`. -/
def InsideTail : Pc T V → Prop
  | .add l => l.Inside
  | .remove _ => False

/-- Between `LOCK_A` and `UNLOCK_A` of `head_lock`. -/
def InsideHead : Pc T V → Prop
  | .add _ => False
  | .remove l => l.Inside

section use

variable [Zero V] (A : LockOps T Λ) (headLock tailLock : Λ) (pre : SqCall V → Prop)

/-- How the queue uses `tail_lock`, whatever its clients do. -/
def tailUse : LockUse A { program A false headLock tailLock with pre := pre } where
  word s := s.tailLock
  Asks := AsksTail
  Holds := InsideTail
  start op := by cases op <;> exact id
  result := by
    intro l r h
    rcases l with l | l
    · cases l <;> cases h
      exact ⟨id, id⟩
    · exact ⟨id, id⟩
  apart {l} h := by
    rcases l with l | l <;> cases l <;> first | exact h.elim | exact id
  step := by
    intro i t s op l s' l' h
    rcases l with l | l
    · obtain ⟨⟨s₁, l₁⟩, hadd, he⟩ := Option.map_eq_some_iff.mp h
      cases he
      rcases (addStep_lock hadd).2 with ⟨⟨node, rfl⟩, h1, h2⟩ | h1 | ⟨h1, h2⟩
      · exact Or.inl ⟨trivial, h1, h2⟩
      · exact Or.inr (Or.inl h1)
      · refine Or.inr (Or.inr ⟨?_, h2⟩)
        cases l
        case lock node => exact absurd rfl (h1 node)
        all_goals exact id
    · obtain ⟨⟨s₁, l₁⟩, hremove, he⟩ := Option.map_eq_some_iff.mp h
      cases he
      exact Or.inr (Or.inr ⟨id, (removeStep_lock hremove).1, Iff.rfl⟩)
  enter := by
    intro t s l w i op h hw
    rcases l with l | l
    · cases l
      case lock node =>
        have hs : step A false t s (.add (.lock node)) =
            some ({ s with tailLock := w }, .add (.loadTail node)) := by
          simp [step, addStep, hw]
        exact Option.isSome_iff_exists.mpr ⟨_, hs⟩
      all_goals exact h.elim
    · exact h.elim

/-- How the queue uses `head_lock`, whatever its clients do. -/
def headUse : LockUse A { program A false headLock tailLock with pre := pre } where
  word s := s.headLock
  Asks := AsksHead
  Holds := InsideHead
  start op := by cases op <;> exact id
  result := by
    intro l r h
    rcases l with l | l
    · exact ⟨id, id⟩
    · cases l <;> cases h <;> exact ⟨id, id⟩
  apart {l} h := by
    rcases l with l | l <;> cases l <;> first | exact h.elim | exact id
  step := by
    intro i t s op l s' l' h
    rcases l with l | l
    · obtain ⟨⟨s₁, l₁⟩, hadd, he⟩ := Option.map_eq_some_iff.mp h
      cases he
      exact Or.inr (Or.inr ⟨id, (addStep_lock hadd).1, Iff.rfl⟩)
    · obtain ⟨⟨s₁, l₁⟩, hremove, he⟩ := Option.map_eq_some_iff.mp h
      cases he
      rcases (removeStep_lock hremove).2 with ⟨rfl, h1, h2⟩ | h1 | ⟨h1, h2⟩
      · exact Or.inl ⟨trivial, h1, h2⟩
      · exact Or.inr (Or.inl h1)
      · refine Or.inr (Or.inr ⟨?_, h2⟩)
        cases l
        case lock => exact absurd rfl h1
        all_goals exact id
  enter := by
    intro t s l w i op h hw
    rcases l with l | l
    · exact h.elim
    · cases l
      case lock =>
        have hs : step A false t s (.remove .lock) = some ({ s with headLock := w }, .remove .loadHead) := by
          simp [step, removeStep, hw]
        exact Option.isSome_iff_exists.mpr ⟨_, hs⟩
      all_goals exact h.elim

end use

/-! ### The assertions -/

variable [Zero V]

/-- What holds at each local state of a `remove`; `E` says that the queue was
empty at some moment since the call. -/
def RemoveAt (E : Prop) (s : MsQueue T V) : RemovePc T V → Prop
  | .lock => True
  | .loadHead => True
  | .loadNext node => s.head = node
  | .unlockEmpty => E
  | .loadItem node headNew => s.head = node ∧ headNew ≠ .null ∧ s.next node = headNew
  | .setHead node headNew val => s.head = node ∧ headNew ≠ .null ∧ s.next node = headNew ∧
      s.item headNew = val
  | .unlock node val => s.Passed node ∧ val ≠ 0
  | .release node val => s.Passed node ∧ val ≠ 0
  | .done val => val ≠ 0
  | .empty => E

/-- The result of a `remove` that has taken its item. -/
def removeLin : RemovePc T V → Option (Answer V)
  | .unlock _ val | .release _ val | .done val => some (.val val)
  | _ => none

/-- What holds at each local state of thread `t`, whose call has seen the
queues `W`. -/
def At (t : T) (W : Set (LockedQueue T V Λ)) (s : LockedQueue T V Λ) : SqCall V → Pc T V → Prop
  | .add item, .add l => item ≠ 0 ∧ AddAt t s.queue item l
  | .remove, .remove l => RemoveAt (∃ s₀ ∈ W, s₀.queue.abs = []) s.queue l
  | _, _ => False

def lin (_ : LockedQueue T V Λ) (_ : SqCall V) : Pc T V → Option (Answer V)
  | .add l => addLin l
  | .remove l => removeLin l

section remove

variable {t u : T} {s s' : MsQueue T V} {E E' : Prop}

/-- The assertions of a `remove` are stable, if nobody moves `head` while it has
the lock. -/
theorem RemoveAt.keeps {l : RemovePc T V} (h : RemoveAt E s l) (w : Wf s) (k : Keeps t s s')
    (hE : E → E') (hs : l.Inside → s'.head = s.head) : RemoveAt E' s' l := by
  have hnext : ∀ {node headNew}, s.head = node → headNew ≠ .null → s.next node = headNew →
      s'.next node = headNew := by
    rintro node headNew rfl h2 h3
    rw [k.next w.head (by rw [h3]; exact h2), h3]
  cases l with
  | lock => trivial
  | loadHead => trivial
  | loadNext node => exact (hs trivial).trans h
  | unlockEmpty => exact hE h
  | loadItem node headNew =>
    obtain ⟨h1, h2, h3⟩ := h
    exact ⟨(hs trivial).trans h1, h2, hnext h1 h2 h3⟩
  | setHead node headNew val =>
    obtain ⟨h1, h2, h3, h4⟩ := h
    have hmem : headNew ∈ s.all := by
      rw [← h3, ← h1]
      exact w.mem_next w.head (by rw [h1, h3]; exact h2)
    exact ⟨(hs trivial).trans h1, h2, hnext h1 h2 h3, by rw [k.item hmem, h4]⟩
  | unlock node val => exact ⟨h.1.keeps w k, h.2⟩
  | release node val => exact ⟨h.1.keeps w k, h.2⟩
  | done val => exact h
  | empty => exact hE h

end remove

/-! ### The steps -/

/-- What a `remove` does. -/
structure RemoveOk (t : T) (E : Prop) (s : MsQueue T V) (l : RemovePc T V) (s' : MsQueue T V)
    (l' : RemovePc T V) : Prop where
  act : Act t s s'
  filled : s'.Filled
  all : s'.all = s.all
  head : ¬ l.Inside → s'.head = s.head
  next : RemoveAt E s' l'
  point : (removeLin l' = removeLin l ∧ s'.abs = s.abs) ∨
    (removeLin l = none ∧ ∃ r, removeLin l' = some r ∧
      (queueObject V).apply .remove s.abs = (s'.abs, r))

section step

variable {A : LockOps T Λ} {t u : T} {W : Set (LockedQueue T V Λ)} {s s' : LockedQueue T V Λ}
  {E E' : Prop}

theorem removeStep_ok (w : Wf s.queue) (hf : s.queue.Filled) {l l' : RemovePc T V}
    (h : RemoveAt E s.queue l) (hE : E → E') (habs : s.queue.abs = [] → E')
    (hstep : removeStep A false t s l = some (s', l')) : RemoveOk t E' s.queue l s'.queue l' := by
  have read : ∀ {l l' : RemovePc T V}, RemoveAt E' s.queue l' → removeLin l' = removeLin l →
      RemoveOk t E' s.queue l s.queue l' :=
    fun h hl => ⟨.skip, hf, rfl, fun _ => rfl, h, Or.inl ⟨hl, rfl⟩⟩
  cases l with
  | lock =>
    obtain ⟨word, hw, he⟩ := Option.map_eq_some_iff.mp hstep
    cases he
    exact read trivial rfl
  | loadHead =>
    cases hstep
    exact read rfl rfl
  | loadNext node =>
    cases hstep
    have h : s.queue.head = node := h
    by_cases hn : s.queue.next node = .null
    · rw [if_pos hn]
      exact read (habs (w.abs_nil (by rw [h]; exact hn))) rfl
    · rw [if_neg hn]
      exact read ⟨h, hn, rfl⟩ rfl
  | unlockEmpty =>
    cases hstep
    exact read (hE h) rfl
  | loadItem node headNew =>
    cases hstep
    obtain ⟨h1, h2, h3⟩ := h
    exact read ⟨h1, h2, h3, rfl⟩ rfl
  | setHead node headNew val =>
    cases hstep
    obtain ⟨rfl, h2, rfl, rfl⟩ := h
    have hcons := w.abs_cons h2
    refine ⟨.pop h2, fun v hv => hf v ?_, rfl, fun hn => absurd trivial hn,
      ⟨⟨w.head, w.not_mem_onward_next w.head⟩, hf _ ?_⟩, Or.inr ⟨rfl, _, rfl, ?_⟩⟩
    · rw [hcons]
      exact List.mem_cons_of_mem _ hv
    · rw [hcons]
      exact List.mem_cons_self
    · rw [hcons]
      rfl
  | unlock node val =>
    cases hstep
    exact read h rfl
  | release node val =>
    cases hstep
    exact ⟨.free h.1.1 h.1.2, hf, rfl, fun _ => rfl, h.2, Or.inl ⟨rfl, rfl⟩⟩
  | done val =>
    cases hstep
    exact read h rfl
  | empty =>
    cases hstep
    exact read (hE h) rfl

/-- A step of the queue. -/
structure StepOk (t : T) (W : Set (LockedQueue T V Λ)) (s : LockedQueue T V Λ) (op : SqCall V)
    (l : Pc T V) (s' : LockedQueue T V Λ) (l' : Pc T V) : Prop where
  act : Act t s.queue s'.queue
  filled : s'.queue.Filled
  next : At t (insert s' W) s' op l'
  still : ¬ InsideTail l → Still s.queue s'.queue
  last : InsideTail l → ¬ InsideTail l' → s'.queue.next s'.queue.tail = .null
  head : ¬ InsideHead l → s'.queue.head = s.queue.head
  point : (lin s' op l' = lin s op l ∧ s'.queue.abs = s.queue.abs) ∨
    (lin s op l = none ∧ ∃ r, lin s' op l' = some r ∧
      (queueObject V).apply op s.queue.abs = (s'.queue.abs, r))

variable {op : SqCall V} {l l' : Pc T V}

theorem step_ok (hs : s ∈ W) (w : Wf s.queue) (hf : s.queue.Filled)
    (hfree : (A.lock t s.tailLock).isSome → s.queue.next s.queue.tail = .null) (h : At t W s op l)
    (hstep : step A false t s l = some (s', l')) : StepOk t W s op l s' l' := by
  cases op with
  | add item =>
    cases l with
    | remove l => exact h.elim
    | add l =>
      obtain ⟨hne, h⟩ := h
      obtain ⟨⟨s₁, l₁⟩, hadd, he⟩ := Option.map_eq_some_iff.mp hstep
      cases he
      obtain ⟨hact, hhead, hnext, hstill, hpoint⟩ := addStep_ok w h (fun _ => hfree) hadd
      refine ⟨hact, hf.add hne (hpoint.imp And.right fun h => h.2.2), ⟨hne, hnext⟩, hstill,
        fun hi hn => addStep_last h hadd hi hn, fun _ => hhead, hpoint.imp_right fun ⟨h1, h2, h3⟩ => ?_⟩
      refine ⟨h1, _, h2, ?_⟩
      rw [h3]
      rfl
  | remove =>
    cases l with
    | add l => exact h.elim
    | remove l =>
      obtain ⟨⟨s₁, l₁⟩, hremove, he⟩ := Option.map_eq_some_iff.mp hstep
      cases he
      have hE : (∃ s₀ ∈ W, s₀.queue.abs = []) → ∃ s₀ ∈ insert s₁ W, s₀.queue.abs = [] :=
        fun ⟨s₀, h0, h1⟩ => ⟨s₀, Set.mem_insert_of_mem _ h0, h1⟩
      obtain ⟨hact, hf', hall, hhead, hnext, hpoint⟩ :=
        removeStep_ok w hf h hE (fun habs => hE ⟨s, hs, habs⟩) hremove
      exact ⟨hact, hf', hnext, fun _ => .of_act hact w hall, fun hi => hi.elim, hhead, hpoint⟩

theorem At.keeps (h : At u W s op l) (w : Wf s.queue) (k : Keeps t s.queue s'.queue) (hu : u ≠ t)
    (ht : InsideTail l → Still s.queue s'.queue) (hh : InsideHead l → s'.queue.head = s.queue.head) :
    At u (insert s' W) s' op l := by
  cases op with
  | add item =>
    cases l with
    | remove l => exact h.elim
    | add l => exact ⟨h.1, h.2.keeps w k hu ht⟩
  | remove =>
    cases l with
    | add l => exact h.elim
    | remove l =>
      refine RemoveAt.keeps h w k (fun ⟨s₀, h0, h1⟩ => ?_) hh
      exact ⟨s₀, Set.mem_insert_of_mem _ h0, h1⟩

end step

/-! ### The invariant -/

section run

variable {A : LockOps T Λ} {Free Held : Λ → Prop} {headLock tailLock : Λ} {t : T} {op : SqCall V}
  {l : Pc T V} {es : Trace T (SqCall V) (Answer V) (LockedQueue T V Λ) (Pc T V)}
  {c : Config T (SqCall V) (LockedQueue T V Λ) (Pc T V)}

/-- Two threads are not between `LOCK_A` and `UNLOCK_A` of one lock. -/
theorem excl (hA : A.Lawful Free Held) (hh : Free headLock) (ht : Free tailLock)
    (hr : (program A false headLock tailLock).Run es c) (hl : c.threads t = some (op, l)) {u : T}
    {op₁ : SqCall V} {l₁ : Pc T V} (hu : u ≠ t) (hl₁ : c.threads u = some (op₁, l₁)) :
    (InsideTail l₁ → ¬ InsideTail l) ∧ (InsideHead l₁ → ¬ InsideHead l) := by
  refine ⟨fun h₁ h => hu ?_, fun h₁ h => hu ?_⟩
  · exact (tailUse A headLock tailLock SqClient).unique hA ht hr ⟨op₁, l₁, hl₁, h₁⟩ ⟨op, l, hl, h⟩
  · exact (headUse A headLock tailLock SqClient).unique hA hh hr ⟨op₁, l₁, hl₁, h₁⟩ ⟨op, l, hl, h⟩

theorem not_insideTail (hA : A.Lawful Free Held) (ht : Free tailLock)
    (hr : (program A false headLock tailLock).Run es c) (hl : c.threads t = some (op, l))
    (hf : Free c.shared.tailLock) : ¬ InsideTail l := by
  intro h
  rcases (tailUse A headLock tailLock SqClient).excl hA ht hr with ⟨-, hn⟩ | ⟨hheld, -⟩
  · exact hn t ⟨op, l, hl, h⟩
  · exact hA.not_both t hf hheld

theorem free_of_isSome (hA : A.Lawful Free Held) (ht : Free tailLock)
    (hr : (program (V := V) A false headLock tailLock).Run es c) (h : (A.lock t c.shared.tailLock).isSome) :
    Free c.shared.tailLock := by
  obtain ⟨w, hw⟩ := Option.isSome_iff_exists.mp h
  exact ((tailUse A headLock tailLock SqClient).taken hA ht hr hw).1

def outline (hA : A.Lawful Free Held) (hh : Free headLock) (ht : Free tailLock) :
    Outline (program (V := V) A false headLock tailLock) (fun _ _ _ _ => True) fun _ _ => False where
  glob _ s := Wf s.queue ∧ s.queue.Filled ∧ (Free s.tailLock → s.queue.next s.queue.tail = .null)
  loc t _ W s op l := At t W s op l
  pair _ _ := True
  pair_symm := id
  init := ⟨Wf.initial, Filled.initial, fun _ => rfl⟩
  frame hg _ := hg
  call t hg hs hp := by
    rename_i op
    cases op with
    | add item => exact ⟨hp item rfl, rfl⟩
    | remove => trivial
  call_pair := trivial
  tau := by
    intro es c t op l i s' l' hr hc hres hstep _ ⟨w, hf, hlast⟩ hat
    have hok := step_ok (hr.shared_mem_window _ hc) w hf
      (fun h => hlast (free_of_isSome hA ht hr h)) hat hstep
    have hk := hok.act.keeps w
    refine ⟨⟨hok.act.wf w, hok.filled, fun hfree => ?_⟩, ?_, fun u op₁ l₁ hu hu₁ hl₁ _ => ⟨?_, trivial⟩⟩
    · rcases (tailUse A headLock tailLock SqClient).step hstep with ⟨-, hw, h⟩ | ⟨h, hn, -⟩ |
        ⟨-, hw, h⟩
      · exact absurd (LockUse.taken hA ht hr hw).2 fun hh => hA.not_both t hfree hh
      · exact hok.last h hn
      · have hfree : Free c.shared.tailLock := by
          rw [show c.shared.tailLock = s'.tailLock from hw.symm]
          exact hfree
        exact ((hok.still (not_insideTail hA ht hr hc hfree)).last w (hlast hfree)).2
    · rw [extend_of_not id]
      exact hok.next
    · obtain ⟨h1, h2⟩ := excl hA hh ht hr hc hu hu₁
      exact hl₁.keeps w hk hu (fun h => hok.still (h1 h)) fun h => hok.head (h2 h)

theorem linearizable [Fintype T] (hA : A.Lawful Free Held) (hh : Free headLock) (ht : Free tailLock) :
    Linearizable (queueObject V) (program (T := T) A false headLock tailLock) fun s => s.queue.abs := by
  refine Concur.linearizable ((outline hA hh ht).points lin abs_empty (fun s op => ?_) ?_ ?_)
  · cases op <;> rfl
  · intro es c t op l i s' l' hr hH hc hres hstep _
    obtain ⟨w, hf, hlast⟩ := hH.glob
    have hok := step_ok (hr.shared_mem_window _ hc) w hf
      (fun h => hlast (free_of_isSome hA ht hr h)) (hH.loc t op l hc) hstep
    exact ⟨hok.point, fun u op₁ l₁ hu ht₁ => rfl⟩
  · intro es c t op l r hr hH hc hres
    have hat : At t (since t es) c.shared op l := hH.loc t op l hc
    cases op with
    | add item =>
      cases l with
      | remove l => exact hat.elim
      | add l =>
        cases l <;> cases hres
        exact Or.inl rfl
    | remove =>
      cases l with
      | add l => exact hat.elim
      | remove l =>
        cases l <;> cases hres
        · exact Or.inl rfl
        · obtain ⟨s₀, h0, h1⟩ := hat
          exact Or.inr ⟨rfl, s₀, h0, by rw [h1]; rfl⟩

end run

/-- **The queue is first in, first out**, whatever the locks are, if both are
free at the start; an `add` stores into the `next` of no freed node, and with
no call running nothing was lost or came out twice. -/
theorem queue_ms_lb_linearizable [Fintype T] [DecidableEq V] (A : LockOps T Λ)
    (Free Held : Λ → Prop) (hA : A.Lawful Free Held) (headLock tailLock : Λ) (hh : Free headLock)
    (ht : Free tailLock) :
    Linearizable (queueObject V) (program A false headLock tailLock) (fun s => s.queue.abs) ∧
    ∀ es c, (program (V := V) A false headLock tailLock).Run es c →
      (∀ t op node tail, c.threads t = some (op, .add (.link node tail)) →
        tail ∉ c.shared.queue.memory.freed) ∧
      (∀ t l, c.threads t = some (.remove, l) → result l = some (.val 0) →
        ∃ s ∈ since t es, s.queue.abs = []) ∧
      ((∀ t, c.threads t = none) →
        ∀ v, (added es).count v = (taken es).count v + c.shared.queue.abs.count v) := by
  have hl := linearizable (V := V) hA hh ht
  refine ⟨hl, fun es c hr => ?_⟩
  have hH := (outline hA hh ht).holds hr
  obtain ⟨w, -, -⟩ := hH.glob
  refine ⟨fun t op node tail hc hf => ?_, fun t l hc hres => ?_,
    fun hidle v => LinearizableIf.count hl isBag_queue (fun _ h => h) hr hidle v⟩
  · have hat : At t (since t es) c.shared op (.add (.link node tail)) := hH.loc t _ _ hc
    cases op with
    | remove => exact hat.elim
    | add item =>
      obtain ⟨-, -, rfl, hz⟩ := hat
      -- the last node comes after `head`
      exact (w.freed _ hf).2 (mem_nodes_last w.head w.tail hz)
  · have hat : At t (since t es) c.shared .remove l := hH.loc t _ _ hc
    rcases l with l | l
    · exact hat.elim
    · cases l <;> cases hres
      · exact absurd rfl hat
      · exact hat

/-- Three threads, and TAS locks. -/
theorem queue_ms_lb_linearizable_tas :
    Linearizable (queueObject ℕ) (program (tasOps (Fin 3)) false TAS_FREE TAS_FREE)
      (fun s => s.queue.abs) :=
  (queue_ms_lb_linearizable (tasOps (Fin 3)) _ _ tasOps_lawful TAS_FREE TAS_FREE rfl rfl).1

end QueueMSLB

end Ascylib
