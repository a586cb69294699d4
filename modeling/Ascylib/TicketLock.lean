/-
# The ticket lock

`include/lock_if.h` with `TICKET`: two counters in one word of 64 bits.
`ticket_lock` draws a ticket with a fetch-and-increment and waits for `curr` to
come up to it, `ticket_trylock` replaces the whole word if nobody has a ticket,
and `ticket_unlock` increments `curr` in two steps. One local state for each
access to the word. Each thread is a client that calls the operations in any
order, `ticket_unlock` only while it holds the lock.

Key theorem: `ticket_lock`, for fewer than 2^32 threads.
-/
import Ascylib.LockIf
import Ascylib.Concur.Run
import Ascylib.Concur.Tickets
import Mathlib.Tactic.Common

set_option linter.unusedSectionVars false

namespace Ascylib

open Concur

namespace TicketLock

inductive Operation where
  | lock
  | trylock
  | unlock
  deriving DecidableEq

/-- Where a thread is. -/
inductive Pc where
  /-- between two operations -/
  | client
  /-- `ticket_lock`: `ticket = FAI_U32(&l->ticket)` -/
  | lockFai
  /-- the ticket is drawn: `PREFETCHW(l)` -/
  | lockPrefetch (ticket : BitVec 32)
  /-- `ticket != l->curr` -/
  | lockWait (ticket : BitVec 32)
  /-- `ticket_trylock`: `tc = *(volatile uint64_t*) l` -/
  | trylockLoad
  /-- `CAS_U64((uint64_t*) l, tc_old, tc)` -/
  | trylockCas (tcOld : TicketWord)
  /-- `ticket_unlock`: the load of `l->curr++` -/
  | unlockLoad
  /-- the store of `l->curr++` -/
  | unlockStore (curr : BitVec 32)
  /-- `ticket_lock` took the lock and returns -/
  | acquired
  /-- `ticket_trylock` took the lock and returns 1 -/
  | took
  /-- `ticket_trylock` returns 0 -/
  | failed
  /-- `ticket_unlock` returns -/
  | unlocked
  deriving DecidableEq

/-- A thread: its operation, where it is in it, and whether it holds the lock. -/
structure Thread where
  op : Operation
  pc : Pc
  holds : Bool
  deriving DecidableEq

/-- The first access of an operation. -/
def enter (holds : Bool) : Operation → Option Pc
  | .lock => some .lockFai
  | .trylock => some .trylockLoad
  | .unlock => if holds then some .unlockLoad else none

/-- The next access of a thread to the word; `next` is the operation it calls
when it is between two. -/
def step (next : Operation) (w : TicketWord) (l : Thread) : Option (TicketWord × Thread) :=
  match l.pc with
  | .client => (enter l.holds next).map fun pc => (w, { l with op := next, pc := pc })
  | .lockFai => some ({ w with ticket := w.ticket + 1 }, { l with pc := .lockPrefetch w.ticket })
  | .lockPrefetch ticket => some (w, { l with pc := .lockWait ticket })
  | .lockWait ticket =>
    some (w, if ticket ≠ w.curr then l else { l with pc := .acquired, holds := true })
  | .trylockLoad =>
    some (w, if w.curr = w.ticket then { l with pc := .trylockCas w } else { l with pc := .failed })
  | .trylockCas tcOld =>
    some (if w = tcOld then
      ({ tcOld with ticket := tcOld.ticket + 1 }, { l with pc := .took, holds := true })
    else (w, { l with pc := .failed }))
  | .unlockLoad => some (w, { l with pc := .unlockStore w.curr })
  | .unlockStore curr => some ({ w with curr := curr + 1 }, { l with pc := .unlocked, holds := false })
  | .acquired | .took | .failed | .unlocked => some (w, { l with pc := .client })

/-- Any number of clients of one lock; `ticket_init` sets both counters to 0. -/
def program (T : Type*) : Program T Unit Empty TicketWord Thread Operation where
  init := ⟨0, 0⟩
  pre _ := True
  start _ := ⟨.lock, .client, false⟩
  step next _ w _ l := step next w l
  result _ := none

abbrev Run (T : Type*) := Trace T Unit Empty TicketWord Thread

variable {T : Type*}

def Holds (c : Config T Unit TicketWord Thread) (t : T) : Prop :=
  ∃ l, c.threads t = some ((), l) ∧ l.holds = true

/-- The ticket of a thread that waits in `ticket_lock`. -/
def Thread.ticket (l : Thread) : Option (BitVec 32) :=
  match l.pc with
  | .lockPrefetch ticket | .lockWait ticket => some ticket
  | _ => none

def ticketOf (c : Config T Unit TicketWord Thread) (t : T) : Option (BitVec 32) :=
  (c.threads t).bind fun f => f.2.ticket

/-! ### What happens in a run -/

/-- The local state that an event leads to. -/
def after (p : Event T Unit Empty × Config T Unit TicketWord Thread) : Option Thread :=
  match p.1 with
  | .tau t => (p.2.threads t).map Prod.snd
  | _ => none

def Thread.draws (l : Thread) : Bool :=
  match l.pc with
  | .lockPrefetch _ => true
  | _ => false

def Thread.granted (l : Thread) : Bool := l.pc = .acquired

/-- The threads of the events that lead to such a local state, the earliest
first. -/
def threadsOf (f : Thread → Bool) : Run T → List T
  | [] => []
  | p :: es => threadsOf f es ++ if (after p).any f = true then [p.1.thread] else []

/-- Who drew a ticket, in this order. -/
def drawn (es : Run T) : List T := threadsOf Thread.draws es

/-- To whom a blocking acquisition was granted, in this order. -/
def granted (es : Run T) : List T := threadsOf Thread.granted es

/-- A step of `ticket_trylock` takes a lock that is free and has nobody waiting,
or it leaves both counters. -/
def TrylockStep (c : Config T Unit TicketWord Thread) (e : Event T Unit Empty)
    (c' : Config T Unit TicketWord Thread) : Prop :=
  ∀ t l, e = .tau t → c'.threads t = some ((), l) → l.op = .trylock →
    if l.pc = .took then (∀ u, ¬ Holds c u) ∧ ∀ u, ticketOf c u = none
    else c'.shared = c.shared

/-! ### What a step does -/

/-- The assertion at each local state. -/
def Static (l : Thread) : Prop :=
  match l.pc with
  | .lockFai | .lockPrefetch _ | .lockWait _ => l.op = .lock
  | .trylockLoad => l.op = .trylock
  | .trylockCas tcOld => l.op = .trylock ∧ tcOld.curr = tcOld.ticket
  | .unlockLoad | .unlockStore _ => l.op = .unlock ∧ l.holds = true
  | _ => True

/-- What one step does to the word and to the thread. -/
inductive Effect (w : TicketWord) (l : Thread) : TicketWord → Thread → Prop
  | none {l'} : l'.holds = l.holds → l'.ticket = l.ticket → l'.draws = false →
      l'.granted = false → l'.pc ≠ .took → Effect w l w l'
  | draw {l'} : l.ticket = none → l'.holds = l.holds → l'.op = .lock →
      l'.pc = .lockPrefetch w.ticket → Effect w l { w with ticket := w.ticket + 1 } l'
  | grant {l'} : l.ticket = some w.curr → l'.holds = true → l'.op = .lock → l'.pc = .acquired →
      Effect w l w l'
  | take {l'} : w.curr = w.ticket → l.ticket = none → l'.holds = true → l'.pc = .took →
      Effect w l { w with ticket := w.ticket + 1 } l'
  | unlock {l'} (curr : BitVec 32) : l.pc = .unlockStore curr → l.holds = true →
      l'.op = .unlock → l'.holds = false → l'.pc = .unlocked →
      Effect w l { w with curr := curr + 1 } l'

theorem effect_of_step {next : Operation} {w w' : TicketWord} {l l' : Thread} (hst : Static l)
    (hs : step next w l = some (w', l')) :
    Effect w l w' l' ∧ Static l' ∧ ∀ curr, l'.pc = .unlockStore curr → w'.curr = curr := by
  obtain ⟨op, pc, holds⟩ := l
  cases pc with
  | client =>
    cases next <;> simp only [step, enter, Option.map_some, Option.map_eq_some_iff] at hs
    case unlock =>
      obtain ⟨pc, hpc, hs⟩ := hs
      split at hpc
      · cases hpc
        cases hs
        exact ⟨.none rfl rfl rfl rfl nofun, ⟨rfl, ‹_›⟩, nofun⟩
      · cases hpc
    all_goals
      cases hs
      exact ⟨.none rfl rfl rfl rfl nofun, by simp [Static], nofun⟩
  | lockFai =>
    cases hs
    exact ⟨.draw rfl rfl hst rfl, hst, nofun⟩
  | lockPrefetch ticket =>
    cases hs
    exact ⟨.none rfl rfl rfl rfl nofun, hst, nofun⟩
  | lockWait ticket =>
    by_cases he : ticket = w.curr
    · simp only [step, he, ne_eq, not_true_eq_false, if_false] at hs
      cases hs
      exact ⟨.grant (by rw [he]; rfl) rfl hst rfl, trivial, nofun⟩
    · simp only [step, he, ne_eq, not_false_eq_true, if_true] at hs
      cases hs
      exact ⟨.none rfl rfl rfl rfl nofun, hst, nofun⟩
  | trylockLoad =>
    cases hs
    by_cases he : w.curr = w.ticket
    · simp only [he, if_true]
      exact ⟨.none rfl rfl rfl rfl nofun, ⟨hst, he⟩, nofun⟩
    · simp only [he, if_false]
      exact ⟨.none rfl rfl rfl rfl nofun, trivial, nofun⟩
  | trylockCas tcOld =>
    by_cases he : w = tcOld
    · subst he
      simp only [step, if_true] at hs
      cases hs
      exact ⟨.take hst.2 rfl rfl rfl, trivial, nofun⟩
    · simp only [step, he, if_false] at hs
      cases hs
      exact ⟨.none rfl rfl rfl rfl nofun, trivial, nofun⟩
  | unlockLoad =>
    cases hs
    exact ⟨.none rfl rfl rfl rfl nofun, hst, fun _ he => Pc.unlockStore.inj he⟩
  | unlockStore curr =>
    cases hs
    exact ⟨.unlock curr rfl hst.2 hst.1 rfl rfl, trivial, nofun⟩
  | acquired | took | failed | unlocked =>
    cases hs
    exact ⟨.none rfl rfl rfl rfl nofun, trivial, nofun⟩

/-- Only the holder changes `curr`. -/
theorem Effect.curr_eq {w w' : TicketWord} {l l' : Thread} (he : Effect w l w' l')
    (hl : l.holds ≠ true) : w'.curr = w.curr := by
  cases he with
  | unlock _ _ h => exact absurd h hl
  | _ => rfl

/-! ### The queue -/

variable [DecidableEq T] {es : Run T} {c : Config T Unit TicketWord Thread} {t : T}
  {w' : TicketWord} {l' : Thread}

theorem becomes : Becomes (Holds c) (ticketOf c) t (l'.holds = true) l'.ticket
    (Holds ⟨w', Function.update c.threads t (some ((), l'))⟩)
    (ticketOf ⟨w', Function.update c.threads t (some ((), l'))⟩) where
  self := by simp [Holds]
  other u hu := by simp [Holds, hu]
  ticket_self := by simp [ticketOf]
  ticket_other u hu := by simp [ticketOf, hu]

theorem holds_iff {l : Thread} (hl : c.threads t = some ((), l)) : Holds c t ↔ l.holds = true := by
  simp [Holds, hl]

theorem ticketOf_eq {l : Thread} (hl : c.threads t = some ((), l)) : ticketOf c t = l.ticket := by
  simp [ticketOf, hl]

/-- What a step adds to the threads of an event. -/
theorem threadsOf_tau (f : Thread → Bool) :
    threadsOf f ((.tau t, ⟨w', Function.update c.threads t (some ((), l'))⟩) :: es) =
      threadsOf f es ++ if f l' = true then [t] else [] := by
  simp [threadsOf, after, Event.thread]

/-- The holder and the queue, with the assertions of the threads. The queue is
what has been drawn and not been granted. -/
structure Queue (es : Run T) (c : Config T Unit TicketWord Thread) (h : Option T) (q : List T) :
    Prop where
  static : ∀ t l, c.threads t = some ((), l) → Static l
  store : ∀ t l v, c.threads t = some ((), l) → l.pc = .unlockStore v → c.shared.curr = v
  tickets : Tickets c.shared.curr c.shared.ticket (Holds c) (ticketOf c) h q
  order : drawn es = granted es ++ q

theorem Queue.initial : Queue [] (program T).initial none [] where
  static _ _ h := by cases h
  store _ _ _ h := by cases h
  tickets := by
    refine Tickets.initial (fun t => ?_) fun _ => rfl
    rintro ⟨l, hl, -⟩
    cases hl
  order := rfl

theorem Queue.call {h : Option T} {q : List T} (H : Queue es c h q) (hidle : c.threads t = none) :
    Queue ((.call t (), ⟨c.shared, Function.update c.threads t (some ((), ⟨.lock, .client, false⟩))⟩)
        :: es)
      ⟨c.shared, Function.update c.threads t (some ((), ⟨.lock, .client, false⟩))⟩ h q := by
  have hn : ¬ Holds c t := by
    rintro ⟨l, hl, -⟩
    rw [hidle] at hl
    cases hl
  refine ⟨fun u m hu => ?_, fun u m v hu hv => ?_, ?_, ?_⟩
  · rcases update_eq_some.mp hu with ⟨-, h1⟩ | ⟨-, h1⟩
    · cases h1
      trivial
    · exact H.static u m h1
  · rcases update_eq_some.mp hu with ⟨-, h1⟩ | ⟨-, h1⟩
    · cases h1
      cases hv
    · exact H.store u m v h1 hv
  · exact H.tickets.same becomes (by simpa using hn) (by simp [ticketOf, hidle, Thread.ticket])
  · simpa [drawn, granted, threadsOf, after] using H.order

/-- What a step says about the threads, given what it does to the tickets. -/
theorem Queue.of_step {h h' : Option T} {q q' : List T} (H : Queue es c h q) {next : Operation}
    {l : Thread} (hl : c.threads t = some ((), l)) (hs : step next c.shared l = some (w', l'))
    (ht : Tickets w'.curr w'.ticket
      (Holds ⟨w', Function.update c.threads t (some ((), l'))⟩)
      (ticketOf ⟨w', Function.update c.threads t (some ((), l'))⟩) h' q')
    (hq : q ++ (if l'.draws = true then [t] else []) =
      (if l'.granted = true then [t] else []) ++ q') :
    Queue ((.tau t, ⟨w', Function.update c.threads t (some ((), l'))⟩) :: es)
      ⟨w', Function.update c.threads t (some ((), l'))⟩ h' q' := by
  obtain ⟨he, hst, hstore⟩ := effect_of_step (H.static t l hl) hs
  refine ⟨fun u m hu => ?_, fun u m v hu hv => ?_, ht, ?_⟩
  · rcases update_eq_some.mp hu with ⟨-, h1⟩ | ⟨-, h1⟩
    · cases h1
      exact hst
    · exact H.static u m h1
  · rcases update_eq_some.mp hu with ⟨-, h1⟩ | ⟨hut, h1⟩
    · cases h1
      exact hstore v hv
    · -- the thread that unlocks is the holder
      have hm := H.static u m h1
      rw [Static, hv] at hm
      have hnl : l.holds ≠ true := fun h2 =>
        hut (H.tickets.unique ((holds_iff h1).mpr hm.2) ((holds_iff hl).mpr h2))
      change w'.curr = v
      rw [he.curr_eq hnl]
      exact H.store u m v h1 hv
  · rw [drawn, granted, threadsOf_tau, threadsOf_tau, List.append_assoc, ← hq, ← List.append_assoc]
    exact congrArg (· ++ _) H.order

variable [Fintype T]

/-- **A step keeps the queue**, and a step of `ticket_trylock` does what it
should. -/
theorem Queue.step (hcard : Fintype.card T < 2 ^ 32) {h : Option T} {q : List T}
    (H : Queue es c h q) {e : Event T Unit Empty} {c' : Config T Unit TicketWord Thread}
    (hst : (program T).Step c e c') :
    (∃ h' q', Queue ((e, c') :: es) c' h' q') ∧ TrylockStep c e c' := by
  have hlen := H.tickets.length_le
  cases hst with
  | call hidle => exact ⟨⟨h, q, H.call hidle⟩, nofun⟩
  | ret _ hres => cases hres
  | @tau t op l w' l' i hl hres hstep =>
    have hstep : TicketLock.step i c.shared l = some (w', l') := hstep
    have he := (effect_of_step (H.static t l hl) hstep).1
    have htl := ticketOf_eq hl
    have hhl := holds_iff hl
    -- the step of `ticket_trylock` is one of the thread that steps
    have htry : (l'.op = .trylock → if l'.pc = .took then (∀ u, ¬ Holds c u) ∧
        ∀ u, ticketOf c u = none else w' = c.shared) → TrylockStep c (.tau t)
        ⟨w', Function.update c.threads t (some ((), l'))⟩ := by
      intro h u m hu hm hop
      cases hu
      obtain rfl : l' = m := by simpa using hm
      exact h hop
    cases he with
    | none h1 h2 h3 h4 h5 =>
      refine ⟨⟨h, q, H.of_step hl hstep
        (H.tickets.same becomes (by rw [h1, hhl]) (by rw [h2, htl])) (by simp [h3, h4])⟩,
        htry fun _ => ?_⟩
      rw [if_neg h5]
    | draw h1 h2 hop hpc =>
      refine ⟨⟨h, q ++ [t], H.of_step hl hstep (H.tickets.draw becomes (by rw [h2, hhl])
        (htl.trans h1) (by simp [Thread.ticket, hpc])) ?_⟩, htry fun ho => ?_⟩
      · simp [Thread.draws, Thread.granted, hpc]
      · rw [hop] at ho
        cases ho
    | grant h1 h2 hop hpc =>
      obtain ⟨rfl, q', rfl⟩ := H.tickets.first (by omega) (htl.trans h1)
      refine ⟨⟨some t, q', H.of_step hl hstep
        (H.tickets.grant becomes h2 (by simp [Thread.ticket, hpc])) ?_⟩, htry fun ho => ?_⟩
      · simp [Thread.draws, Thread.granted, hpc]
      · rw [hop] at ho
        cases ho
    | take hf h1 h2 hpc =>
      have hlt := H.tickets.length_lt (htl.trans h1)
      obtain ⟨rfl, rfl⟩ := H.tickets.free hf.symm (by omega)
      refine ⟨⟨some t, [], H.of_step hl hstep (H.tickets.take becomes h2
        (by rw [htl, h1]; simp [Thread.ticket, hpc])) ?_⟩, htry fun _ => ?_⟩
      · simp [Thread.draws, Thread.granted, hpc]
      · rw [if_pos hpc]
        refine ⟨fun u hu => by simp [H.tickets.holder] at hu, fun u => ?_⟩
        by_contra hu
        exact absurd (H.tickets.waits u hu) (by simp)
    | unlock v hpc hh hop h1 hpc' =>
      obtain rfl := (H.tickets.holder t).mp (hhl.mpr hh)
      have hv : c.shared.curr = v := H.store t l v hl hpc
      subst hv
      have hnone : l.ticket = none := by simp [Thread.ticket, hpc]
      refine ⟨⟨none, q, H.of_step hl hstep (H.tickets.serve becomes (by rw [h1]; nofun)
        (by rw [htl, hnone]; simp [Thread.ticket, hpc'])) ?_⟩, htry fun ho => ?_⟩
      · simp [Thread.draws, Thread.granted, hpc']
      · rw [hop] at ho
        cases ho

theorem exists_queue (hcard : Fintype.card T < 2 ^ 32) (hr : (program T).Run es c) :
    ∃ h q, Queue es c h q := by
  induction hr with
  | init => exact ⟨none, [], Queue.initial⟩
  | step _ hst _ ih =>
    obtain ⟨h, q, H⟩ := ih
    exact (H.step hcard hst).1

/-- **The ticket lock.** With fewer than 2^32 threads, in every state of every
run: at most one thread holds the lock; blocking acquisitions have been granted in
the order in which the tickets were drawn; and every next step of a
`ticket_trylock` takes a lock that is free and has nobody waiting, or leaves both
counters. -/
theorem ticket_lock (hcard : Fintype.card T < 2 ^ 32) (hr : (program T).Run es c) :
    (∀ t u, Holds c t → Holds c u → t = u) ∧ granted es <+: drawn es ∧
      ∀ e c', (program T).Step c e c' → TrylockStep c e c' := by
  obtain ⟨h, q, H⟩ := exists_queue hcard hr
  exact ⟨fun _ _ => H.tickets.unique, ⟨q, H.order.symm⟩, fun e c' hst => (H.step hcard hst).2⟩

/-- One of two threads takes the lock, the other one waits for it. -/
theorem ticket_lock_two : ∃ es c, (program (Fin 2)).Run es c ∧ Holds c 0 ∧ drawn es = [0, 1] ∧
    granted es = [0] ∧ granted es <+: drawn es ∧ ∀ t, Holds c t → t = 0 := by
  have h0 : (program (Fin 2)).Run [] _ := .init
  have h1 := h0.step (e := .call 0 ()) (.call rfl trivial) trivial
  have h2 := h1.step (e := .call 1 ()) (.call rfl trivial) trivial
  have h3 := h2.step (.tau .lock (t := 0) rfl rfl rfl) trivial
  have h4 := h3.step (.tau .lock (t := 1) rfl rfl rfl) trivial
  have h5 := h4.step (.tau .lock (t := 0) rfl rfl rfl) trivial
  have h6 := h5.step (.tau .lock (t := 1) rfl rfl rfl) trivial
  have h7 := h6.step (.tau .lock (t := 0) rfl rfl rfl) trivial
  have h8 := h7.step (.tau .lock (t := 0) rfl rfl rfl) trivial
  obtain ⟨hx, ho, -⟩ := ticket_lock (by simp) h8
  exact ⟨_, _, h8, ⟨_, rfl, rfl⟩, rfl, rfl, ho, fun t ht => hx t 0 ht ⟨_, rfl, rfl⟩⟩

end TicketLock

end Ascylib
