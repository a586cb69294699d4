/-
# The queue with a lock for adding and CAS for removing

`src/algorithms/queue_ms_hybrid.h`: the `add` of the lock-based queue and the
`remove` of the lock-free one. Only the holder of `tail_lock` links, and a
dequeuer moves `set->tail` only to the node behind it. So the late store of
`set->tail` finds it there or one node before, and a late CAS fails.

Key theorem: `queue_ms_hybrid_linearizable`.
-/
import Ascylib.MsDequeue
import Ascylib.MsEnqueue

set_option linter.unusedSectionVars false

namespace Ascylib

open Concur MsQueue LockedQueue

namespace QueueMSHybrid

variable {T V Λ : Type*} [DecidableEq T]

inductive Pc (T V : Type*) where
  | add (l : AddPc T V)
  | remove (l : RemovePc T V)

def start : SqCall V → Pc T V
  | .add item => .add (.alloc item)
  | .remove => .remove .loadHead

def step (A : LockOps T Λ) (me : T) (s : LockedQueue T V Λ) :
    Pc T V → Option (LockedQueue T V Λ × Pc T V)
  | .add l => (addStep A me s l).map fun q => (q.1, .add q.2)
  | .remove l =>
    let (queue, l') := removeStep s.queue l
    some ({ s with queue := queue }, .remove l')

def result [Zero V] : Pc T V → Option (Answer V)
  | .add .done => some (.flag true)
  | .remove l => l.result
  | _ => none

/-- The queue whose locks the constructor found in these states. -/
def program [Zero V] (A : LockOps T Λ) (headLock tailLock : Λ) :
    Program T (SqCall V) (Answer V) (LockedQueue T V Λ) (Pc T V) Unit where
  init := LockedQueue.empty headLock tailLock
  pre := SqClient
  start := start
  step _ me s _ l := step A me s l
  result := result

/-! ### The lock -/

/-- The thread asks for `tail_lock`. -/
def Asks : Pc T V → Prop
  | .add (.lock _) => True
  | _ => False

/-- The thread is between `LOCK_A` and `UNLOCK_A`. -/
def Inside : Pc T V → Prop
  | .add l => l.Inside
  | .remove _ => False

/-- How the queue uses `tail_lock`, whatever its clients do. -/
def tailUse [Zero V] (A : LockOps T Λ) (headLock tailLock : Λ) (pre : SqCall V → Prop) :
    LockUse A { program A headLock tailLock with pre := pre } where
  word s := s.tailLock
  Asks := Asks
  Holds := Inside
  start op := by cases op <;> exact id
  result := by
    intro l r h
    rcases l with l | l
    · cases l <;> cases h
      exact ⟨id, id⟩
    · exact ⟨id, id⟩
  apart {l} h := by
    rcases l with l | l <;> cases l <;> first | exact h.elim | exact id
  step := by
    intro i t s op l s' l' h
    rcases l with l | l
    · obtain ⟨⟨s₁, l₁⟩, hadd, he⟩ := Option.map_eq_some_iff.mp h
      cases he
      rcases (addStep_lock hadd).2 with ⟨⟨node, rfl⟩, h1, h2⟩ | h1 | ⟨h1, h2⟩
      · exact Or.inl ⟨trivial, h1, h2⟩
      · exact Or.inr (Or.inl h1)
      · refine Or.inr (Or.inr ⟨?_, h2⟩)
        cases l
        case lock node => exact absurd rfl (h1 node)
        all_goals exact id
    · cases h
      exact Or.inr (Or.inr ⟨id, rfl, Iff.rfl⟩)
  enter := by
    intro t s l w i op h hw
    rcases l with l | l
    · cases l
      case lock node =>
        have hs : step A t s (.add (.lock node)) = some ({ s with tailLock := w }, .add (.loadTail node)) := by
          simp [step, addStep, hw]
        exact Option.isSome_iff_exists.mpr ⟨_, hs⟩
      all_goals exact h.elim
    · exact h.elim

/-! ### The assertions -/

variable [Zero V]

/-- What holds at each local state of thread `t`, whose call has seen the
queues `W`. -/
def At (t : T) (W : Set (LockedQueue T V Λ)) (s : LockedQueue T V Λ) : SqCall V → Pc T V → Prop
  | .add item, .add l => item ≠ 0 ∧ AddAt t s.queue item l
  | .remove, .remove l => RemoveAt (∃ s₀ ∈ W, s₀.queue.abs = []) s.queue l
  | _, _ => False

def lin (s : LockedQueue T V Λ) (_ : SqCall V) : Pc T V → Option (Answer V)
  | .add l => addLin l
  | .remove l => removeLin s.queue l

/-- A step of the queue. -/
structure StepOk (t : T) (W : Set (LockedQueue T V Λ)) (s : LockedQueue T V Λ) (op : SqCall V)
    (l : Pc T V) (s' : LockedQueue T V Λ) (l' : Pc T V) : Prop where
  act : Act t s.queue s'.queue
  inv : Inv s'.queue
  next : At t (insert s' W) s' op l'
  still : ¬ Inside l → Still s.queue s'.queue
  last : Inside l → ¬ Inside l' → s'.queue.next s'.queue.tail = .null
  point : (lin s' op l' = lin s op l ∧ s'.queue.abs = s.queue.abs) ∨
    (lin s op l = none ∧ ∃ r, lin s' op l' = some r ∧
      (queueObject V).apply op s.queue.abs = (s'.queue.abs, r))

variable {A : LockOps T Λ} {t u : T} {W : Set (LockedQueue T V Λ)} {s s' : LockedQueue T V Λ}
  {op : SqCall V} {l l' : Pc T V}

theorem step_ok (hs : s ∈ W) (i : Inv s.queue)
    (hfree : (A.lock t s.tailLock).isSome → s.queue.next s.queue.tail = .null) (h : At t W s op l)
    (hstep : step A t s l = some (s', l')) : StepOk t W s op l s' l' := by
  cases op with
  | add item =>
    cases l with
    | remove l => exact h.elim
    | add l =>
      obtain ⟨hne, h⟩ := h
      obtain ⟨⟨s₁, l₁⟩, hadd, he⟩ := Option.map_eq_some_iff.mp hstep
      cases he
      obtain ⟨hact, hhead, hnext, hstill, hpoint⟩ := addStep_ok i.wf h (fun _ => hfree) hadd
      refine ⟨hact, ⟨hact.wf i.wf, hact.behind i.wf i.behind (Or.inl hhead), ?_⟩, ⟨hne, hnext⟩,
        hstill, fun hi hn => addStep_last h hadd hi hn, hpoint.imp_right fun ⟨h1, h2, h3⟩ => ?_⟩
      · exact i.filled.add hne (hpoint.imp And.right fun h => h.2.2)
      · refine ⟨h1, _, h2, ?_⟩
        rw [h3]
        rfl
  | remove =>
    cases l with
    | add l => exact h.elim
    | remove l =>
      cases hstep
      have hact : Act t s.queue (removeStep s.queue l).1 := removeStep_act i.wf h t
      refine ⟨hact, ⟨hact.wf i.wf, hact.behind i.wf i.behind (removeStep_head i.wf h),
        removeStep_filled i.wf h i.filled⟩, ?_, fun _ => .of_act hact i.wf (removeStep_all _ l),
        fun hi => hi.elim, removeStep_point i.wf h⟩
      refine removeStep_at i.wf i.behind h i.filled (fun ⟨s₀, h0, h1⟩ => ?_) fun habs => ?_
      · exact ⟨s₀, Set.mem_insert_of_mem _ h0, h1⟩
      · exact ⟨s, Set.mem_insert_of_mem _ hs, habs⟩

theorem At.keeps (h : At u W s op l) (w : Wf s.queue) (k : Keeps t s.queue s'.queue) (hu : u ≠ t)
    (hs : Inside l → Still s.queue s'.queue) :
    At u (insert s' W) s' op l ∧ lin s' op l = lin s op l := by
  cases op with
  | add item =>
    cases l with
    | remove l => exact h.elim
    | add l => exact ⟨⟨h.1, h.2.keeps w k hu hs⟩, rfl⟩
  | remove =>
    cases l with
    | add l => exact h.elim
    | remove l =>
      refine ⟨RemoveAt.keeps h w k fun ⟨s₀, h0, h1⟩ => ?_, RemoveAt.lin_keeps h k⟩
      exact ⟨s₀, Set.mem_insert_of_mem _ h0, h1⟩

/-! ### The invariant -/

section run

variable {Free Held : Λ → Prop} (hA : A.Lawful Free Held) {headLock tailLock : Λ}
  (h0 : Free tailLock)

/-- Two threads are not between `LOCK_A` and `UNLOCK_A`, and the lock is free
when nobody is. -/
theorem tail_excl {es} {c : Config T (SqCall V) (LockedQueue T V Λ) (Pc T V)}
    (hA : A.Lawful Free Held) (h0 : Free tailLock) (hr : (program A headLock tailLock).Run es c)
    (ht : c.threads t = some (op, l)) :
    (∀ u op₁ l₁, u ≠ t → c.threads u = some (op₁, l₁) → Inside l₁ → ¬ Inside l) ∧
      (Free c.shared.tailLock → ¬ Inside l) := by
  refine ⟨fun u op₁ l₁ hu hu₁ hi₁ hi => hu ?_, fun hf hi => ?_⟩
  · exact (tailUse A headLock tailLock SqClient).unique hA h0 hr ⟨op₁, l₁, hu₁, hi₁⟩ ⟨op, l, ht, hi⟩
  · rcases (tailUse A headLock tailLock SqClient).excl hA h0 hr with ⟨-, hn⟩ | ⟨hh, -⟩
    · exact hn t ⟨op, l, ht, hi⟩
    · exact hA.not_both t hf hh

def outline (headLock : Λ) (hA : A.Lawful Free Held) (h0 : Free tailLock) :
    Outline (program (V := V) A headLock tailLock) (fun _ _ _ _ => True) fun _ _ => False where
  glob es s := Inv s.queue ∧ (Free s.tailLock → s.queue.next s.queue.tail = .null) ∧
    ∀ s₀ ∈ (program (V := V) A headLock tailLock).seen es, s.queue.WasTail s₀.queue.tail
  loc t _ W s op l := At t W s op l
  pair _ _ := True
  pair_symm := id
  init := by
    refine ⟨Inv.initial, fun _ => rfl, fun s₀ hs => ?_⟩
    cases Set.mem_singleton_iff.mp hs
    exact ⟨Wf.initial.tail, Wf.initial.self Wf.initial.tail⟩
  frame := by
    intro es s e th ⟨h1, h2, h3⟩ _
    refine ⟨h1, h2, fun s₀ hs => ?_⟩
    rcases Set.mem_insert_iff.mp hs with rfl | hs
    · exact ⟨h1.wf.tail, h1.wf.self h1.wf.tail⟩
    · exact h3 s₀ hs
  call t hg hs hp := by
    rename_i op
    cases op with
    | add item => exact ⟨hp item rfl, rfl⟩
    | remove => trivial
  call_pair := trivial
  tau := by
    intro es c t op l i s' l' hr ht hres hstep _ ⟨hi, hlast, hseen⟩ hl
    obtain ⟨hexcl, hfree⟩ := tail_excl hA h0 hr ht
    have hok := step_ok (hr.shared_mem_window _ ht) hi (fun h => hlast ?_) hl hstep
    · have hk := hok.act.keeps hi.wf
      refine ⟨⟨hok.inv, fun hf => ?_, fun s₀ hs => ?_⟩, ?_, fun u op₁ l₁ hu hu₁ hl₁ _ => ⟨?_, trivial⟩⟩
      · rcases (tailUse A headLock tailLock SqClient).step hstep with ⟨-, hw, h⟩ | ⟨h, hn, -⟩ |
          ⟨-, hw, h⟩
        · exact absurd (LockUse.taken hA h0 hr hw).2 fun hh => hA.not_both t hf hh
        · exact hok.last h hn
        · have hf : Free c.shared.tailLock := by
            rw [show c.shared.tailLock = s'.tailLock from hw.symm]
            exact hf
          exact ((hok.still (hfree hf)).last hi.wf (hlast hf)).2
      · rcases Set.mem_insert_iff.mp hs with rfl | hs
        · exact ⟨hok.inv.wf.tail, hok.inv.wf.self hok.inv.wf.tail⟩
        · exact (hseen s₀ hs).keeps hk
      · rw [extend_of_not id]
        exact hok.next
      · exact (hl₁.keeps hi.wf hk hu fun h => hok.still (hexcl u op₁ l₁ hu hu₁ h)).1
    · obtain ⟨w, hw⟩ := Option.isSome_iff_exists.mp h
      exact ((tailUse A headLock tailLock SqClient).taken hA h0 hr hw).1

theorem linearizable [Fintype T] (headLock : Λ) (hA : A.Lawful Free Held) (h0 : Free tailLock) :
    Linearizable (queueObject V) (program (T := T) A headLock tailLock) fun s => s.queue.abs := by
  have hok : ∀ {es c t op l s' l'}, (program (V := V) A headLock tailLock).Run es c →
      (outline (V := V) headLock hA h0).Holds es c → c.threads t = some (op, l) →
      step A t c.shared l = some (s', l') → StepOk t (since t es) c.shared op l s' l' := by
    intro es c t op l s' l' hr hH ht hstep
    refine step_ok (hr.shared_mem_window _ ht) hH.glob.1 (fun h => hH.glob.2.1 ?_) (hH.loc t op l ht)
      hstep
    obtain ⟨w, hw⟩ := Option.isSome_iff_exists.mp h
    exact ((tailUse A headLock tailLock SqClient).taken hA h0 hr hw).1
  refine Concur.linearizable ((outline headLock hA h0).points lin abs_empty (fun s op => ?_) ?_ ?_)
  · cases op <;> rfl
  · intro es c t op l i s' l' hr hH ht hres hstep _
    have h := hok hr hH ht hstep
    refine ⟨h.point, fun u op₁ l₁ hu ht₁ => ?_⟩
    have hwf := hH.glob.1.wf
    refine ((hH.loc u op₁ l₁ ht₁).keeps hwf (h.act.keeps hwf) hu fun hi => h.still ?_).2
    exact (tail_excl hA h0 hr ht).1 u op₁ l₁ hu ht₁ hi
  · intro es c t op l r hr hH ht hres
    have hat : At t (since t es) c.shared op l := hH.loc t op l ht
    cases op with
    | add item =>
      cases l with
      | remove l => exact hat.elim
      | add l =>
        cases l <;> cases hres
        exact Or.inl rfl
    | remove =>
      cases l with
      | add l => exact hat.elim
      | remove l =>
        cases l <;> cases hres
        · exact Or.inl rfl
        · obtain ⟨s₀, h0, h1⟩ := hat
          exact Or.inr ⟨rfl, s₀, h0, by rw [h1]; rfl⟩

end run

/-- **The queue is first in, first out**, whatever lock guards `add`, if that
lock is free at the start: `tail` only moves on and points to no freed node,
`remove` returns 0 only if the queue was empty, and with no call running
nothing was lost or came out twice. -/
theorem queue_ms_hybrid_linearizable [Fintype T] [DecidableEq V] (A : LockOps T Λ)
    (Free Held : Λ → Prop) (hA : A.Lawful Free Held) (headLock tailLock : Λ) (h0 : Free tailLock) :
    Linearizable (queueObject V) (program A headLock tailLock) (fun s => s.queue.abs) ∧
    ∀ es c, (program (V := V) A headLock tailLock).Run es c →
      (∀ s ∈ (program A headLock tailLock).seen es,
        c.shared.queue.tail ∈ c.shared.queue.onward s.queue.tail) ∧
      c.shared.queue.tail ∉ c.shared.queue.memory.freed ∧
      (∀ t l, c.threads t = some (.remove, l) → result l = some (.val 0) →
        ∃ s ∈ since t es, s.queue.abs = []) ∧
      ((∀ t, c.threads t = none) →
        ∀ v, (added es).count v = (taken es).count v + c.shared.queue.abs.count v) := by
  have hl := linearizable (V := V) headLock hA h0
  refine ⟨hl, fun es c hr => ?_⟩
  have hH := (outline headLock hA h0).holds hr
  obtain ⟨i, -, hseen⟩ := hH.glob
  refine ⟨fun s hs => (hseen s hs).2, fun hf => (i.wf.freed _ hf).2 i.behind, fun t l ht hres => ?_,
    fun hidle v => LinearizableIf.count hl isBag_queue (fun _ h => h) hr hidle v⟩
  have hat : At t (since t es) c.shared .remove l := hH.loc t _ _ ht
  rcases l with l | l
  · exact hat.elim
  · cases l <;> cases hres
    · exact absurd rfl hat
    · exact hat

/-- Three threads, and TAS locks. -/
theorem queue_ms_hybrid_linearizable_tas :
    Linearizable (queueObject ℕ) (program (tasOps (Fin 3)) TAS_FREE TAS_FREE)
      (fun s => s.queue.abs) :=
  (queue_ms_hybrid_linearizable (tasOps (Fin 3)) _ _ tasOps_lawful TAS_FREE TAS_FREE rfl).1

end QueueMSHybrid

end Ascylib
