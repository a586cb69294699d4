/-
# The queue of the ticket OPTIK lock

`optik_lock` queues by drawing a ticket, `optik_trylock` and
`optik_trylock_version` take a ticket and the lock at once, `optik_unlock` serves
the next ticket, and `optik_revert` takes the holder's ticket back. While nobody
waits, the ticket that `optik_revert` takes back is the last one, and the lock is
free again. When somebody waits, it is not: the tickets of the waiting threads
stay one ahead of the version, and nobody gets the lock any more.

Key theorem: `ticket_queue`.
-/
import Ascylib.OptikTicket
import Ascylib.Concur.Tickets
import Mathlib.Tactic.FinCases

set_option linter.unusedSectionVars false

namespace Ascylib

open Concur

namespace OptikTicket

/-- The operations of a lock that threads may queue for. -/
def queueing : Operation → Bool
  | .lock | .trylock | .trylockVersion _ | .unlock | .revert => true
  | .trylockVdelete _ => false

variable {T : Type*}

/-- The ticket of a thread that waits in `optik_lock`. -/
def ticketOf (c : Config T Unit OptikT Thread) (t : T) : Option (BitVec 32) :=
  (c.threads t).bind fun f => f.2.ticket

/-- At most one thread holds the lock. -/
def Exclusive (c : Config T Unit OptikT Thread) : Prop := ∀ t u, Holds c t → Holds c u → t = u

/-- A lock that nobody holds is free, or its ticket is that of a waiting thread. -/
def Available (c : Config T Unit OptikT Thread) : Prop :=
  (∀ t, ¬ Holds c t) →
    c.shared.ticket = c.shared.version ∨ ∃ t, ticketOf c t = some c.shared.version

/-- `optik_revert` is not called with threads waiting in `optik_lock`. -/
def NoWaiters (_ : Run T) (c : Config T Unit OptikT Thread) (e : Event T Unit Empty)
    (_ : Config T Unit OptikT Thread) : Prop :=
  ∀ t l, e = .tau t → c.threads t = some ((), l) → l.pc = .revert → ∀ u, ticketOf c u = none

/-! ### A thread takes a step -/

variable [DecidableEq T] {c : Config T Unit OptikT Thread} {t : T} {ol' : OptikT} {l' : Thread}

theorem becomes : Becomes (Holds c) (ticketOf c) t (l'.holds = true) l'.ticket
    (Holds ⟨ol', Function.update c.threads t (some ((), l'))⟩)
    (ticketOf ⟨ol', Function.update c.threads t (some ((), l'))⟩) where
  self := by simp [Holds]
  other u hu := by simp [Holds, hu]
  ticket_self := by simp [ticketOf]
  ticket_other u hu := by simp [ticketOf, hu]

theorem holds_iff {l : Thread} (hl : c.threads t = some ((), l)) : Holds c t ↔ l.holds = true := by
  simp [Holds, hl]

theorem ticketOf_eq {l : Thread} (hl : c.threads t = some ((), l)) : ticketOf c t = l.ticket := by
  simp [ticketOf, hl]

/-! ### The queue -/

/-- The holder and the queue, with the assertions of the threads. -/
structure Queue (c : Config T Unit OptikT Thread) (h : Option T) (q : List T) : Prop where
  static : ∀ t l, c.threads t = some ((), l) → Static queueing l
  store : ∀ t l v, c.threads t = some ((), l) → l.pc = .unlockStore v → c.shared.version = v
  tickets : Tickets c.shared.version c.shared.ticket (Holds c) (ticketOf c) h q

theorem Queue.initial : Queue (program T queueing).initial none [] where
  static _ _ h := by cases h
  store _ _ _ h := by cases h
  tickets := by
    refine Tickets.initial (fun t => ?_) fun _ => rfl
    rintro ⟨l, hl, -⟩
    cases hl

/-- Only the holder changes the version. -/
theorem Effect.version_eq {ol : OptikT} {l : Thread} (he : Effect ol l ol' l')
    (hl : l.holds ≠ true) : ol'.version = ol.version := by
  cases he with
  | unlock _ _ h => exact absurd h hl
  | _ => rfl

/-- What a step says about the threads, given what it does to the tickets. -/
theorem Queue.of_step {h h' : Option T} {q q' : List T} (H : Queue c h q) {next : Operation}
    {l : Thread} (hl : c.threads t = some ((), l))
    (hs : step queueing next c.shared l = some (ol', l'))
    (ht : Tickets ol'.version ol'.ticket
      (Holds ⟨ol', Function.update c.threads t (some ((), l'))⟩)
      (ticketOf ⟨ol', Function.update c.threads t (some ((), l'))⟩) h' q') :
    Queue ⟨ol', Function.update c.threads t (some ((), l'))⟩ h' q' := by
  obtain ⟨he, hst, hstore⟩ := effect_of_step (H.static t l hl) hs
  refine ⟨fun u m hu => ?_, fun u m v hu hv => ?_, ht⟩
  · rcases update_eq_some.mp hu with ⟨-, h1⟩ | ⟨-, h1⟩
    · cases h1
      exact hst
    · exact H.static u m h1
  · rcases update_eq_some.mp hu with ⟨-, h1⟩ | ⟨hut, h1⟩
    · cases h1
      exact hstore v hv
    · -- the thread that unlocks is the holder
      have hm := (H.static u m h1).2
      rw [hv] at hm
      have hnl : l.holds ≠ true := fun h2 =>
        hut (H.tickets.unique ((holds_iff h1).mpr hm.2) ((holds_iff hl).mpr h2))
      change ol'.version = v
      rw [he.version_eq hnl]
      exact H.store u m v h1 hv

/-- A call does nothing to the tickets. -/
theorem Queue.call {h : Option T} {q : List T} (H : Queue c h q) (hidle : c.threads t = none) :
    Queue ⟨c.shared, Function.update c.threads t (some ((), ⟨.lock, .client, false⟩))⟩ h q := by
  have hn : ¬ Holds c t := by
    rintro ⟨l, hl, -⟩
    rw [hidle] at hl
    cases hl
  refine ⟨fun u m hu => ?_, fun u m v hu hv => ?_, ?_⟩
  · rcases update_eq_some.mp hu with ⟨-, h1⟩ | ⟨-, h1⟩
    · cases h1
      exact ⟨fun h => absurd rfl h, trivial⟩
    · exact H.static u m h1
  · rcases update_eq_some.mp hu with ⟨-, h1⟩ | ⟨-, h1⟩
    · cases h1
      cases hv
    · exact H.store u m v h1 hv
  · exact H.tickets.same becomes (by simpa using hn) (by simp [ticketOf, hidle, Thread.ticket])

variable [Fintype T]

/-- **A step that is not a revert with threads waiting keeps the queue.** -/
theorem Queue.step (hcard : Fintype.card T < 2 ^ 32) {h : Option T} {q : List T} (H : Queue c h q)
    {es : Run T} {e : Event T Unit Empty} {c' : Config T Unit OptikT Thread}
    (hst : (program T queueing).Step c e c') (hok : NoWaiters es c e c') :
    ∃ h' q', Queue c' h' q' := by
  have hlen := H.tickets.length_le
  cases hst with
  | call hidle => exact ⟨h, q, H.call hidle⟩
  | ret _ hres => cases hres
  | @tau t op l s' l' i hl hres hstep =>
    have he := (effect_of_step (H.static t l hl) hstep).1
    have hstat := H.static t l hl
    suffices ht : ∃ h' q', Tickets s'.version s'.ticket
        (Holds ⟨s', Function.update c.threads t (some ((), l'))⟩)
        (ticketOf ⟨s', Function.update c.threads t (some ((), l'))⟩) h' q' by
      obtain ⟨h', q', ht⟩ := ht
      exact ⟨h', q', H.of_step hl hstep ht⟩
    have htl := ticketOf_eq hl
    have hhl := holds_iff hl
    cases he with
    | none _ h1 h2 _ => exact ⟨h, q, H.tickets.same becomes (by rw [h1, hhl]) (by rw [h2, htl])⟩
    | draw hpc h1 hpc' =>
      have hnone : ticketOf c t = none := by rw [htl]; simp [Thread.ticket, hpc]
      exact ⟨h, _, H.tickets.draw becomes (by rw [h1, hhl]) hnone (by simp [Thread.ticket, hpc'])⟩
    | grant hpc h1 hpc' =>
      have hserved : ticketOf c t = some c.shared.version := by rw [htl]; simp [Thread.ticket, hpc]
      obtain ⟨rfl, q', rfl⟩ := H.tickets.first (by omega) hserved
      exact ⟨some t, q', H.tickets.grant becomes h1 (by simp [Thread.ticket, hpc'])⟩
    | take hf hpc hpc' _ h1 =>
      have hnone : ticketOf c t = none := by rw [htl]; simp [Thread.ticket, hpc]
      have hlt := H.tickets.length_lt hnone
      obtain ⟨rfl, rfl⟩ := H.tickets.free hf.symm (by omega)
      exact ⟨some t, [], H.tickets.take becomes h1 (by rw [hnone]; simp [Thread.ticket, hpc'])⟩
    | delete _ hpc hop _ _ =>
      have := hstat.1 (by rw [hpc]; nofun)
      rw [hop] at this
      cases this
    | unlock v hpc hh hpc' h1 =>
      have hnone : ticketOf c t = none := by rw [htl]; simp [Thread.ticket, hpc]
      obtain rfl := (H.tickets.holder t).mp (hhl.mpr hh)
      refine ⟨none, q, ?_⟩
      rw [← H.store t l v hl hpc]
      exact H.tickets.serve becomes (by rw [h1]; nofun) (by rw [hnone]; simp [Thread.ticket, hpc'])
    | revert hpc hh hpc' h1 =>
      have hnone : ticketOf c t = none := by rw [htl]; simp [Thread.ticket, hpc]
      obtain rfl := (H.tickets.holder t).mp (hhl.mpr hh)
      have hq : q = [] := List.eq_nil_iff_forall_not_mem.mpr fun u hu =>
        H.tickets.mem_iff.mp hu (hok t l rfl hl hpc u)
      subst hq
      exact ⟨none, [], H.tickets.revert becomes (by rw [h1]; nofun)
        (by rw [hnone]; simp [Thread.ticket, hpc'])⟩

/-- **After a revert with threads waiting nobody can acquire the lock.** -/
theorem Queue.stuck (hcard : Fintype.card T < 2 ^ 32) {h : Option T} {q : List T} (H : Queue c h q)
    {es : Run T} {e : Event T Unit Empty} {c' : Config T Unit OptikT Thread}
    (hst : (program T queueing).Step c e c') (hok : ¬ NoWaiters es c e c') : ¬ Available c' := by
  have hlen := H.tickets.length_le
  unfold NoWaiters at hok
  push Not at hok
  obtain ⟨t, l, rfl, hl, hpc, u, hu⟩ := hok
  cases hst with
  | @tau _ op l₁ s' l' i hl₁ hres hstep =>
    rw [hl] at hl₁
    cases hl₁
    have hstat := H.static t l hl
    have hh : l.holds = true := by
      have := hstat.2
      rw [hpc] at this
      exact this.2
    obtain rfl := (H.tickets.holder t).mp ((holds_iff hl).mpr hh)
    have hne : q ≠ [] := List.ne_nil_of_mem (H.tickets.waits u hu)
    obtain ⟨hs1, hs2⟩ := H.tickets.stuck hne (by omega)
    change OptikTicket.step queueing i c.shared l = some (s', l') at hstep
    simp only [OptikTicket.step, hpc] at hstep
    cases hstep
    intro hav
    rcases hav (H.tickets.given becomes fun h => by cases h) with h1 | ⟨v, hv⟩
    · exact hs1 h1
    · rw [becomes.ticket_same (by rw [ticketOf_eq hl]; simp [Thread.ticket, hpc])] at hv
      exact hs2 v hv

theorem Queue.available {h : Option T} {q : List T} (H : Queue c h q) : Available c := by
  intro hn
  cases h with
  | none => exact H.tickets.available
  | some t => exact absurd ((H.tickets.holder t).mpr rfl) (hn t)

/-- **The queue of the ticket OPTIK lock.** Fewer than 2^32 threads. In a run in
which no `optik_revert` is called with threads waiting, at most one thread holds
the lock, and it is available when nobody does; a step that breaks the condition
leaves a lock that is not. -/
theorem ticket_queue (hcard : Fintype.card T < 2 ^ 32) {es : Run T}
    (hr : (program T queueing).RunIf NoWaiters es c) :
    (Exclusive c ∧ Available c) ∧ ∀ e c', (program T queueing).Step c e c' →
      (Exclusive c' ∧ Available c' ↔ NoWaiters es c e c') := by
  have hq : ∃ h q, Queue c h q := by
    induction hr with
    | init => exact ⟨none, [], Queue.initial⟩
    | step _ hst hok ih =>
      obtain ⟨h, q, H⟩ := ih
      exact H.step hcard hst hok
  obtain ⟨h, q, H⟩ := hq
  have hprop : ∀ {c₁ : Config T Unit OptikT Thread} {h₁ q₁}, Queue c₁ h₁ q₁ →
      Exclusive c₁ ∧ Available c₁ := fun H₁ => ⟨fun _ _ => H₁.tickets.unique, H₁.available⟩
  refine ⟨hprop H, fun e c' hst => ⟨fun hav => ?_, fun hok => ?_⟩⟩
  · by_contra hok
    exact H.stuck hcard hst hok hav.2
  · obtain ⟨h', q', H'⟩ := H.step hcard hst hok
    exact hprop H'

theorem NoWaiters.of_pc {es : Run T} {c' : Config T Unit OptikT Thread} {l : Thread}
    (hl : c.threads t = some ((), l)) (hpc : l.pc ≠ .revert) : NoWaiters es c (.tau t) c' := by
  intro u m hu hm hpc'
  cases hu
  rw [hl] at hm
  cases hm
  exact absurd hpc' hpc

/-- A thread unlocks and the lock is available to the one that waits. -/
theorem ticket_queue_two : ∃ es c, (program (Fin 2) queueing).RunIf NoWaiters es c ∧
    (∀ t, ¬ Holds c t) ∧ ticketOf c 1 = some c.shared.version ∧ Exclusive c ∧ Available c := by
  have h0 : (program (Fin 2) queueing).RunIf NoWaiters [] _ := .init
  have h1 := h0.step (e := .call 0 ()) (.call rfl trivial) nofun
  have h2 := h1.step (e := .call 1 ()) (.call rfl trivial) nofun
  have h3 := h2.step (.tau .lock (t := 0) rfl rfl rfl) (.of_pc rfl nofun)
  have h4 := h3.step (.tau .lock (t := 0) rfl rfl rfl) (.of_pc rfl nofun)
  have h5 := h4.step (.tau .lock (t := 0) rfl rfl rfl) (.of_pc rfl nofun)
  have h6 := h5.step (.tau .lock (t := 1) rfl rfl rfl) (.of_pc rfl nofun)
  have h7 := h6.step (.tau .lock (t := 1) rfl rfl rfl) (.of_pc rfl nofun)
  have h8 := h7.step (.tau .lock (t := 0) rfl rfl rfl) (.of_pc rfl nofun)
  have h9 := h8.step (.tau .unlock (t := 0) rfl rfl rfl) (.of_pc rfl nofun)
  have h10 := h9.step (.tau .unlock (t := 0) rfl rfl rfl) (.of_pc rfl nofun)
  have h11 := h10.step (.tau .unlock (t := 0) rfl rfl rfl) (.of_pc rfl nofun)
  obtain ⟨hav, -⟩ := ticket_queue (by simp) h11
  refine ⟨_, _, h11, fun t => ?_, rfl, hav⟩
  fin_cases t <;> (rintro ⟨l, hl, hh⟩; cases hl; cases hh)

/-- **A holder reverts while a thread waits**: the version is 0, the only ticket
out is 1, and nobody holds the lock. -/
theorem revert_with_waiter : ¬ ∀ es c, (program (Fin 2) queueing).Run es c →
    Exclusive c ∧ Available c := by
  intro hclaim
  have h0 : (program (Fin 2) queueing).Run [] _ := .init
  have h1 := h0.step (e := .call 0 ()) (.call rfl trivial) trivial
  have h2 := h1.step (e := .call 1 ()) (.call rfl trivial) trivial
  have h3 := h2.step (.tau .lock (t := 0) rfl rfl rfl) trivial
  have h4 := h3.step (.tau .lock (t := 0) rfl rfl rfl) trivial
  have h5 := h4.step (.tau .lock (t := 0) rfl rfl rfl) trivial
  have h6 := h5.step (.tau .lock (t := 1) rfl rfl rfl) trivial
  have h7 := h6.step (.tau .lock (t := 1) rfl rfl rfl) trivial
  have h8 := h7.step (.tau .lock (t := 0) rfl rfl rfl) trivial
  have h9 := h8.step (.tau .revert (t := 0) rfl rfl rfl) trivial
  have h10 := h9.step (.tau .lock (t := 0) rfl rfl rfl) trivial
  have hav := (hclaim _ _ h10).2 fun t => by
    fin_cases t <;> (rintro ⟨l, hl, hh⟩; cases hl; cases hh)
  rcases hav with h | ⟨t, ht⟩
  · exact absurd h (by decide)
  · fin_cases t
    · cases ht
    · exact absurd (Option.some.inj ht) (by decide)

end OptikTicket

end Ascylib
