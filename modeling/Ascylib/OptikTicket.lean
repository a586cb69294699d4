/-
# The ticket OPTIK lock

`include/optik.h` with `OPTIK_TICKET`: a word of two halves, `version` and
`ticket`. The lock is free while they are equal. `optik_lock` draws a ticket and
waits for the version to come up to it; the others replace the word as a whole.
`optik_trylock_vdelete` leaves a ticket that is one behind the version.

One local state for each access to the word; the plain increment of
`optik_unlock` is a load and a store. The clients are those of the integer lock,
and may be restricted to some of the operations.

Both halves wrap, and that is where `optik_is_deleted` goes wrong: a deleted word
with version 0 has the greatest ticket, and a locked one with the greatest
version has ticket 0.

Key theorem: `optik_is_deleted`.
-/
import Ascylib.Concur.Run
import Mathlib.Data.BitVec
import Mathlib.Tactic.Common

set_option linter.unusedSectionVars false

namespace Ascylib

open Concur

namespace OptikTicket

/-- `optik_t` -/
structure OptikT where
  version : BitVec 32
  ticket : BitVec 32
  deriving DecidableEq

/-- `OPTIK_INIT` -/
def optikInit : OptikT := ⟨0, 0⟩

/-- `optik_is_deleted` -/
def optikIsDeleted (ol : OptikT) : Bool := ol.ticket < ol.version

/-- The operations; `old` is a value read earlier. -/
inductive Operation where
  | lock
  | trylock
  | trylockVersion (old : OptikT)
  | trylockVdelete (old : OptikT)
  | unlock
  | revert
  deriving DecidableEq

/-- Where a thread is. -/
inductive Pc where
  /-- between two operations -/
  | client
  /-- `optik_lock`: `ticket = FAI_U32(&ol->ticket)` -/
  | lockFai
  /-- `ticket != ol->version` -/
  | lockWait (ticket : BitVec 32)
  /-- `optik_trylock`: `version = ol->version` -/
  | trylockVersion
  /-- `ol->ticket != version` -/
  | trylockTicket (version : BitVec 32)
  /-- `optik_trylock_version`, `optik_trylock_vdelete`: `version != ol_old.ticket ||
  version != ol->ticket` -/
  | tryTicket (old : OptikT)
  /-- `CAS_U64(&ol->to_uint64, olo.to_uint64, oln.to_uint64)` -/
  | tryCas (olo oln : OptikT)
  /-- `optik_unlock`: the load of `ol->version++` -/
  | unlockLoad
  /-- the store of `ol->version++` -/
  | unlockStore (version : BitVec 32)
  /-- `optik_revert`: `FAD_U32(&ol->ticket)` -/
  | revert
  /-- the operation took the lock and returns 1 -/
  | acquired
  /-- `optik_trylock_vdelete` deleted the lock and returns 1 -/
  | deleted
  /-- the operation did not take the lock and returns 0 -/
  | failed
  /-- `optik_unlock` returns -/
  | unlocked
  /-- `optik_revert` returns -/
  | reverted
  deriving DecidableEq

/-- A thread: its operation, where it is in it, and whether it holds the lock. -/
structure Thread where
  op : Operation
  pc : Pc
  holds : Bool
  deriving DecidableEq

/-- The first access of an operation; a thread that does not hold the lock
cannot give it back. -/
def enter (holds : Bool) : Operation → Option Pc
  | .lock => some .lockFai
  | .trylock => some .trylockVersion
  | .trylockVersion old => some (.tryTicket old)
  | .trylockVdelete old => some (.tryTicket old)
  | .unlock => if holds then some .unlockLoad else none
  | .revert => if holds then some .revert else none

/-- The word that `optik_trylock_version` or `optik_trylock_vdelete` puts in the
place of `old`. -/
def newWord (op : Operation) (old : OptikT) : OptikT :=
  match op with
  | .trylockVdelete _ => { old with ticket := old.version - 1 }
  | _ => { old with ticket := old.ticket + 1 }

/-- A thread after its CAS. -/
def swapped (l : Thread) : Thread :=
  match l.op with
  | .trylockVdelete _ => { l with pc := .deleted }
  | _ => { l with pc := .acquired, holds := true }

/-- The next access of a thread to the word; `next` is the operation it calls
when it is between two. -/
def step (allowed : Operation → Bool) (next : Operation) (ol : OptikT) (l : Thread) :
    Option (OptikT × Thread) :=
  match l.pc with
  | .client =>
    if allowed next then (enter l.holds next).map fun pc => (ol, { l with op := next, pc := pc })
    else none
  | .lockFai => some ({ ol with ticket := ol.ticket + 1 }, { l with pc := .lockWait ol.ticket })
  | .lockWait ticket =>
    some (ol, if ticket ≠ ol.version then l else { l with pc := .acquired, holds := true })
  | .trylockVersion => some (ol, { l with pc := .trylockTicket ol.version })
  | .trylockTicket version =>
    some (ol, if ol.ticket ≠ version then { l with pc := .failed }
      else { l with pc := .tryCas ⟨version, version⟩ ⟨version, version + 1⟩ })
  | .tryTicket old =>
    some (ol, if old.version ≠ old.ticket ∨ old.version ≠ ol.ticket then { l with pc := .failed }
      else { l with pc := .tryCas old (newWord l.op old) })
  | .tryCas olo oln => some (if ol = olo then (oln, swapped l) else (ol, { l with pc := .failed }))
  | .unlockLoad => some (ol, { l with pc := .unlockStore ol.version })
  | .unlockStore version =>
    some ({ ol with version := version + 1 }, { l with pc := .unlocked, holds := false })
  | .revert => some ({ ol with ticket := ol.ticket - 1 }, { l with pc := .reverted, holds := false })
  | .acquired | .deleted | .failed | .unlocked | .reverted => some (ol, { l with pc := .client })

/-- Any number of clients of one lock, which keep to the operations that are
allowed. -/
def program (T : Type*) (allowed : Operation → Bool) :
    Program T Unit Empty OptikT Thread Operation where
  init := optikInit
  pre _ := True
  start _ := ⟨.lock, .client, false⟩
  step next _ ol _ l := step allowed next ol l
  result _ := none

abbrev Run (T : Type*) := Trace T Unit Empty OptikT Thread

variable {T : Type*} {allowed : Operation → Bool}

def Holds (c : Config T Unit OptikT Thread) (t : T) : Prop :=
  ∃ l, c.threads t = some ((), l) ∧ l.holds = true

/-! ### What a step does -/

/-- The ticket of a thread that waits in `optik_lock`. -/
def Thread.ticket (l : Thread) : Option (BitVec 32) :=
  match l.pc with
  | .lockWait ticket => some ticket
  | _ => none

/-- The assertion at each local state. -/
def Static (allowed : Operation → Bool) (l : Thread) : Prop :=
  (l.pc ≠ .client → allowed l.op = true) ∧
  match l.pc with
  | .lockFai | .lockWait _ => l.op = .lock
  | .trylockVersion | .trylockTicket _ => l.op = .trylock
  | .tryTicket old => l.op = .trylockVersion old ∨ l.op = .trylockVdelete old
  | .tryCas olo oln => olo.version = olo.ticket ∧ oln = newWord l.op olo
  | .unlockLoad | .unlockStore _ => l.op = .unlock ∧ l.holds = true
  | .revert => l.op = .revert ∧ l.holds = true
  | _ => True

/-- What one step does to the word and to the thread. -/
inductive Effect (ol : OptikT) (l : Thread) : OptikT → Thread → Prop
  | none {l'} : (∀ oln, l.pc ≠ .tryCas ol oln) → l'.holds = l.holds → l'.ticket = l.ticket →
      l'.pc ≠ .deleted → Effect ol l ol l'
  | draw {l'} : l.pc = .lockFai → l'.holds = l.holds → l'.pc = .lockWait ol.ticket →
      Effect ol l { ol with ticket := ol.ticket + 1 } l'
  | grant {l'} : l.pc = .lockWait ol.version → l'.holds = true → l'.pc = .acquired →
      Effect ol l ol l'
  | take {l' oln} : ol.version = ol.ticket → l.pc = .tryCas ol oln → l'.pc = .acquired →
      (∀ old, l.op ≠ .trylockVdelete old) → l'.holds = true →
      Effect ol l { ol with ticket := ol.ticket + 1 } l'
  | delete {l' oln old} : ol.version = ol.ticket → l.pc = .tryCas ol oln →
      l.op = .trylockVdelete old → l'.pc = .deleted → l'.holds = l.holds →
      Effect ol l { ol with ticket := ol.version - 1 } l'
  | unlock {l'} (version : BitVec 32) : l.pc = .unlockStore version → l.holds = true →
      l'.pc = .unlocked → l'.holds = false → Effect ol l { ol with version := version + 1 } l'
  | revert {l'} : l.pc = .revert → l.holds = true → l'.pc = .reverted → l'.holds = false →
      Effect ol l { ol with ticket := ol.ticket - 1 } l'

theorem effect_of_step {next : Operation} {ol ol' : OptikT} {l l' : Thread}
    (hst : Static allowed l) (hs : step allowed next ol l = some (ol', l')) :
    Effect ol l ol' l' ∧ Static allowed l' ∧
      ∀ version, l'.pc = .unlockStore version → ol'.version = version := by
  obtain ⟨op, pc, holds⟩ := l
  obtain ⟨hal, hst⟩ := hst
  cases pc with
  | client =>
    simp only [step] at hs
    split at hs
    · rename_i hnext
      cases next <;> simp only [enter, Option.map_some, Option.map_eq_some_iff] at hs
      case unlock | revert =>
        obtain ⟨pc, hpc, hs⟩ := hs
        split at hpc
        · cases hpc
          cases hs
          exact ⟨.none nofun rfl rfl nofun, ⟨fun _ => hnext, rfl, ‹_›⟩, nofun⟩
        · cases hpc
      all_goals
        cases hs
        exact ⟨.none nofun rfl rfl nofun, ⟨fun _ => hnext, by simp⟩, nofun⟩
    · cases hs
  | lockFai =>
    cases hs
    exact ⟨.draw rfl rfl rfl, ⟨fun _ => hal nofun, hst⟩, nofun⟩
  | lockWait ticket =>
    by_cases he : ticket = ol.version
    · simp only [step, he, ne_eq, not_true_eq_false, if_false] at hs
      cases hs
      exact ⟨.grant (by rw [he]) rfl rfl, ⟨fun _ => hal nofun, trivial⟩, nofun⟩
    · simp only [step, he, ne_eq, not_false_eq_true, if_true] at hs
      cases hs
      exact ⟨.none nofun rfl rfl nofun, ⟨hal, hst⟩, nofun⟩
  | trylockVersion =>
    cases hs
    exact ⟨.none nofun rfl rfl nofun, ⟨fun _ => hal nofun, hst⟩, nofun⟩
  | trylockTicket version =>
    cases hs
    by_cases he : ol.ticket = version
    · simp only [he, ne_eq, not_true_eq_false, if_false]
      refine ⟨.none nofun rfl rfl nofun, ⟨fun _ => hal nofun, rfl, ?_⟩, nofun⟩
      obtain rfl : op = .trylock := hst
      rfl
    · simp only [he, ne_eq, not_false_eq_true, if_true]
      exact ⟨.none nofun rfl rfl nofun, ⟨fun _ => hal nofun, trivial⟩, nofun⟩
  | tryTicket old =>
    cases hs
    by_cases he : old.version ≠ old.ticket ∨ old.version ≠ ol.ticket
    · simp only [he, if_true]
      exact ⟨.none nofun rfl rfl nofun, ⟨fun _ => hal nofun, trivial⟩, nofun⟩
    · simp only [he, if_false]
      rw [not_or, not_not] at he
      exact ⟨.none nofun rfl rfl nofun, ⟨fun _ => hal nofun, he.1, rfl⟩, nofun⟩
  | tryCas olo oln =>
    obtain ⟨h1, h2⟩ := hst
    simp only at h2
    subst h2
    by_cases he : ol = olo
    · subst he
      simp only [step, if_true] at hs
      cases op with
      | trylockVdelete old =>
        cases hs
        exact ⟨.delete h1 rfl rfl rfl rfl, ⟨fun _ => hal nofun, trivial⟩, nofun⟩
      | lock | trylock | trylockVersion | unlock | revert =>
        cases hs
        exact ⟨.take h1 rfl rfl nofun rfl, ⟨fun _ => hal nofun, trivial⟩, nofun⟩
    · simp only [step, he, if_false] at hs
      cases hs
      have hne : ∀ oln, Pc.tryCas olo (newWord op olo) ≠ .tryCas ol oln := by
        intro oln h
        exact he (Pc.tryCas.inj h).1.symm
      exact ⟨.none hne rfl rfl nofun, ⟨fun _ => hal nofun, trivial⟩, nofun⟩
  | unlockLoad =>
    cases hs
    exact ⟨.none nofun rfl rfl nofun, ⟨fun _ => hal nofun, hst⟩, fun _ he => Pc.unlockStore.inj he⟩
  | unlockStore version =>
    cases hs
    exact ⟨.unlock version rfl hst.2 rfl rfl, ⟨fun _ => hal nofun, trivial⟩, nofun⟩
  | revert =>
    cases hs
    exact ⟨.revert rfl hst.2 rfl rfl, ⟨fun _ => hal nofun, trivial⟩, nofun⟩
  | acquired | deleted | failed | unlocked | reverted =>
    cases hs
    exact ⟨.none nofun rfl rfl nofun, ⟨fun h => absurd rfl h, trivial⟩, nofun⟩

/-! ### Deletion -/

/-- The operations of a lock that may be deleted. -/
def deletable : Operation → Bool
  | .trylock | .trylockVersion _ | .trylockVdelete _ | .unlock => true
  | .lock | .revert => false

/-- The local state that an event leads to. -/
def after (p : Event T Unit Empty × Config T Unit OptikT Thread) : Option Thread :=
  match p.1 with
  | .tau t => (p.2.threads t).map Prod.snd
  | _ => none

/-- The event deletes the lock. -/
def deletes (p : Event T Unit Empty × Config T Unit OptikT Thread) : Bool :=
  (after p).any fun l => l.pc = .deleted

def Deleted (es : Run T) : Prop := ∃ p ∈ es, deletes p = true

/-- The thread is about to replace the word, and the new ticket wraps. -/
def Thread.wraps (ol : OptikT) (l : Thread) : Bool :=
  match l.pc with
  | .tryCas olo _ => ol = olo &&
      match l.op with
      | .trylockVdelete _ => ol.version = 0
      | _ => ol.version = BitVec.allOnes 32
  | _ => false

/-- No ticket wraps: the lock is not taken with the greatest version, and not
deleted with version 0. -/
def Fits (_ : Run T) (c : Config T Unit OptikT Thread) (e : Event T Unit Empty)
    (_ : Config T Unit OptikT Thread) : Prop :=
  match e with
  | .tau t => (c.threads t).any (fun f => f.2.wraps c.shared) = false
  | _ => True

/-- A holder has the lock taken, and nobody else writes the word. -/
structure At (ol : OptikT) (l : Thread) : Prop where
  static : Static deletable l
  locked : l.holds = true → ol.ticket = ol.version + 1
  store : ∀ version, l.pc = .unlockStore version → ol.version = version

theorem deleted_cons {p : Event T Unit Empty × Config T Unit OptikT Thread} {es : Run T} :
    Deleted (p :: es) ↔ deletes p = true ∨ Deleted es := by
  simp [Deleted]

/-- The word is one of a deleted lock, or of one that is free or taken. -/
structure Marked (es : Run T) (ol : OptikT) : Prop where
  deleted : Deleted es → ol.ticket = ol.version - 1
  live : ¬ Deleted es → ol.ticket = ol.version ∨ ol.ticket = ol.version + 1

/-- Nobody queues for such a lock or reverts it. -/
theorem Static.deletable {l : Thread} (h : Static deletable l) :
    l.pc ≠ .lockFai ∧ (∀ ticket, l.pc ≠ .lockWait ticket) ∧ l.pc ≠ .revert := by
  obtain ⟨hal, hst⟩ := h
  have hlock : l.pc ≠ .client → l.op ≠ .lock := fun hc ho => by
    have := hal hc
    rw [ho] at this
    cases this
  refine ⟨fun hpc => ?_, fun ticket hpc => ?_, fun hpc => ?_⟩ <;> rw [hpc] at hst
  · exact hlock (by rw [hpc]; nofun) hst
  · exact hlock (by rw [hpc]; nofun) hst
  · have := hal (by rw [hpc]; nofun)
    rw [hst.1] at this
    cases this

theorem deletes_eq {p : Event T Unit Empty × Config T Unit OptikT Thread} {l : Thread}
    (hp : after p = some l) : deletes p = decide (l.pc = .deleted) := by
  simp [deletes, hp]

/-- A free lock has not been deleted. -/
theorem Marked.not_deleted {es : Run T} {ol : OptikT} (h : Marked es ol)
    (hf : ol.version = ol.ticket ∨ ol.ticket = ol.version + 1) : ¬ Deleted es := by
  intro hd
  have h1 := h.deleted hd
  rcases hf with h2 | h2 <;> bv_omega

/-- A step that leaves the word keeps what it says. -/
theorem Marked.same {es : Run T} {ol : OptikT} (h : Marked es ol)
    {p : Event T Unit Empty × Config T Unit OptikT Thread} (hp : deletes p = false) :
    Marked (p :: es) ol := by
  have hd : Deleted (p :: es) ↔ Deleted es := by simp [deleted_cons, hp]
  exact ⟨fun h1 => h.deleted (hd.mp h1), fun h1 => h.live (h1 ∘ hd.mpr)⟩

theorem Marked.of_live {es : Run T} {ol ol' : OptikT} (h : Marked es ol)
    {p : Event T Unit Empty × Config T Unit OptikT Thread} (hp : deletes p = false)
    (hf : ol.version = ol.ticket ∨ ol.ticket = ol.version + 1)
    (hl : ol'.ticket = ol'.version ∨ ol'.ticket = ol'.version + 1) : Marked (p :: es) ol' := by
  refine ⟨fun hd => ?_, fun _ => hl⟩
  rcases deleted_cons.mp hd with h1 | h1
  · rw [hp] at h1
    cases h1
  · exact absurd h1 (h.not_deleted hf)

theorem Marked.step {es : Run T} {p : Event T Unit Empty × Config T Unit OptikT Thread}
    {ol ol' : OptikT} {l l' : Thread} (h : Marked es ol) (hat : At ol l) (he : Effect ol l ol' l')
    (hp : after p = some l') : Marked (p :: es) ol' := by
  have hdel := deletes_eq hp
  obtain ⟨hdraw, hgrant, hrevert⟩ := hat.static.deletable
  cases he with
  | none _ _ _ hpc => exact h.same (by simpa [hdel] using hpc)
  | draw hpc => exact absurd hpc hdraw
  | grant hpc => exact absurd hpc (hgrant _)
  | take hf _ hpc => exact h.of_live (by simp [hdel, hpc]) (Or.inl hf) (Or.inr (by rw [hf]))
  | delete hf _ _ hpc =>
    exact ⟨fun _ => rfl, fun hd => absurd (deleted_cons.mpr (Or.inl (by simp [hdel, hpc]))) hd⟩
  | unlock version hpc hh hpc' =>
    have h1 := hat.locked hh
    refine h.of_live (by simp [hdel, hpc']) (Or.inr h1) (Or.inl ?_)
    rw [h1, hat.store version hpc]
  | revert hpc => exact absurd hpc hrevert

/-- A thread that takes its step holds the lock with the word as it is then. -/
theorem At.of_effect {ol ol' : OptikT} {l l' : Thread} (h : At ol l) (he : Effect ol l ol' l')
    (hst : Static deletable l') (hs : ∀ version, l'.pc = .unlockStore version → ol'.version = version) :
    At ol' l' := by
  obtain ⟨hdraw, hgrant, hrevert⟩ := h.static.deletable
  refine ⟨hst, fun hh => ?_, hs⟩
  cases he with
  | none _ h1 => exact h.locked (h1 ▸ hh)
  | draw hpc => exact absurd hpc hdraw
  | grant hpc => exact absurd hpc (hgrant _)
  | take hf => rw [hf]
  | delete hf _ _ _ h1 =>
    have := h.locked (h1 ▸ hh)
    bv_omega
  | unlock _ _ _ _ h1 =>
    rw [h1] at hh
    cases hh
  | revert hpc => exact absurd hpc hrevert

/-- The word is the holder's: a step of another thread leaves it, and does not
take the lock. -/
theorem At.other {ol ol' : OptikT} {l l' m : Thread} (h : At ol l) (he : Effect ol l ol' l')
    (hm : At ol m) (hh : m.holds = true) (hx : ¬ (l.holds = true ∧ m.holds = true)) :
    ol' = ol ∧ l'.holds = false := by
  obtain ⟨hdraw, hgrant, hrevert⟩ := h.static.deletable
  have hl := hm.locked hh
  have hf : l.holds = false := by
    cases hlh : l.holds with
    | false => rfl
    | true => exact absurd ⟨hlh, hh⟩ hx
  cases he with
  | none _ h1 => exact ⟨rfl, h1.trans hf⟩
  | draw hpc => exact absurd hpc hdraw
  | grant hpc => exact absurd hpc (hgrant _)
  | take h1 =>
    exfalso
    bv_omega
  | delete h1 =>
    exfalso
    bv_omega
  | unlock _ _ h1 => exact absurd ⟨h1, hh⟩ hx
  | revert hpc => exact absurd hpc hrevert

variable [DecidableEq T] {es : Run T} {c : Config T Unit OptikT Thread}

/-- The proof outline: `Marked` and `At` hold, and two threads never both hold
the lock. -/
def outline : Outline (program T deletable) (fun _ _ _ _ => True) (fun _ _ => False) where
  glob es ol := Marked es ol
  loc _ _ _ ol _ l := At ol l
  pair f g := ¬ (f.2.holds = true ∧ g.2.holds = true)
  pair_symm h := fun ⟨h1, h2⟩ => h ⟨h2, h1⟩
  init := ⟨by simp [Deleted], fun _ => Or.inl rfl⟩
  frame := by
    intro es s e th h he
    refine h.same ?_
    cases e with
    | tau t => exact absurd rfl (he t)
    | call => rfl
    | ret => rfl
  call t _ _ _ := ⟨⟨fun h => absurd rfl h, trivial⟩, nofun, nofun⟩
  call_pair := nofun
  tau := by
    intro es c t op l i s' l' _ _ _ hstep _ hm hat
    obtain ⟨he, hst, hs⟩ := effect_of_step hat.static hstep
    refine ⟨hm.step hat he (by simp [after]), hat.of_effect he hst hs, fun u op₁ m _ _ hmu hx => ?_⟩
    by_cases hh : m.holds = true
    · obtain ⟨h1, h2⟩ := hat.other he hmu hh hx
      rw [h1]
      exact ⟨hmu, fun ⟨h3, _⟩ => by rw [h2] at h3; cases h3⟩
    · refine ⟨⟨hmu.static, fun h => absurd h hh, fun v hv => ?_⟩, fun ⟨_, h⟩ => hh h⟩
      have := hmu.static.2
      rw [hv] at this
      exact absurd this.2 hh

theorem marked (hr : (program T deletable).Run es c) : Marked es c.shared := (outline.holds hr).glob

/-- What `optik_is_deleted` should tell. -/
def Tells (es : Run T) (ol : OptikT) : Prop := optikIsDeleted ol = true ↔ Deleted es

theorem wraps_of_ne {ol : OptikT} {l : Thread} (h : ∀ oln, l.pc ≠ .tryCas ol oln) :
    l.wraps ol = false := by
  unfold Thread.wraps
  split
  · rename_i olo oln hpc
    have hne : ol ≠ olo := by
      rintro rfl
      exact h oln hpc
    simp [hne]
  · rfl

theorem wraps_take {ol oln : OptikT} {l : Thread} (hpc : l.pc = .tryCas ol oln)
    (hop : ∀ old, l.op ≠ .trylockVdelete old) :
    l.wraps ol = decide (ol.version = BitVec.allOnes 32) := by
  unfold Thread.wraps
  rw [hpc]
  cases hl : l.op with
  | trylockVdelete old => exact absurd hl (hop old)
  | lock | trylock | trylockVersion | unlock | revert => simp

theorem wraps_delete {ol oln old : OptikT} {l : Thread} (hpc : l.pc = .tryCas ol oln)
    (hop : l.op = .trylockVdelete old) : l.wraps ol = decide (ol.version = 0) := by
  simp [Thread.wraps, hpc, hop]

/-- A ticket one ahead is smaller exactly if it has wrapped. -/
theorem succ_lt_iff (v : BitVec 32) : v + 1 < v ↔ v = BitVec.allOnes 32 := by
  rw [show BitVec.allOnes 32 = 4294967295#32 from rfl]
  bv_omega

/-- A ticket one behind is smaller exactly if it has not wrapped. -/
theorem pred_lt_iff (v : BitVec 32) : v - 1 < v ↔ v ≠ 0 := by bv_omega

/-- It tells it after a step exactly if no ticket wraps in the step. -/
theorem tells_step (hr : (program T deletable).Run es c) (ht : Tells es c.shared)
    {e : Event T Unit Empty} {c' : Config T Unit OptikT Thread}
    (hst : (program T deletable).Step c e c') :
    Tells ((e, c') :: es) c'.shared ↔ Fits es c e c' := by
  have hm := marked hr
  have hsame : ∀ {c₁ : Config T Unit OptikT Thread}, deletes (e, c₁) = false →
      Tells ((e, c₁) :: es) c.shared := fun h => by
    unfold Tells at ht ⊢
    rw [deleted_cons, h, ht]
    simp
  cases hst with
  | call => exact ⟨fun _ => trivial, fun _ => hsame rfl⟩
  | ret _ hres => cases hres
  | @tau t op l s' l' i hl hres hstep =>
    have hat : At c.shared l := (outline.holds hr).loc t op l hl
    obtain ⟨he, -⟩ := effect_of_step hat.static hstep
    obtain ⟨hdraw, hgrant, hrevert⟩ := hat.static.deletable
    have hdel := deletes_eq (p := (.tau t, ⟨s', Function.update c.threads t (some (op, l'))⟩))
      (l := l') (by simp [after])
    have hfits : Fits es c (.tau t) ⟨s', Function.update c.threads t (some (op, l'))⟩ ↔
        l.wraps c.shared = false := by simp [Fits, hl]
    rw [hfits]
    cases he with
    | none hne _ _ hpc =>
      exact ⟨fun _ => wraps_of_ne hne, fun _ => hsame (by simpa [hdel] using hpc)⟩
    | draw hpc => exact absurd hpc hdraw
    | grant hpc => exact absurd hpc (hgrant _)
    | take hf hpc hpc' hop =>
      have hnd : ¬ Deleted es := hm.not_deleted (Or.inl hf)
      rw [wraps_take hpc hop, Tells, deleted_cons, hdel, hpc']
      simp only [optikIsDeleted, ← hf, decide_eq_true_iff, succ_lt_iff]
      simp [hnd]
    | delete hf hpc hop hpc' =>
      rw [wraps_delete hpc hop, Tells, deleted_cons, hdel, hpc']
      simp only [optikIsDeleted, decide_eq_true_iff, pred_lt_iff]
      simp
    | unlock version hpc hh hpc' =>
      have h1 := hat.locked hh
      have hnd : ¬ Deleted es := hm.not_deleted (Or.inr h1)
      refine ⟨fun _ => wraps_of_ne fun oln h => ?_, fun _ => ?_⟩
      · rw [hpc] at h
        cases h
      · rw [Tells, deleted_cons, hdel, hpc']
        simp [hnd, optikIsDeleted, h1, hat.store version hpc]
    | revert hpc => exact absurd hpc hrevert

/-- **`optik_is_deleted`.** It holds exactly of a deleted lock in every run in
which no ticket wraps; a step with which a ticket wraps makes it wrong. -/
theorem optik_is_deleted (hr : (program T deletable).RunIf Fits es c) :
    (optikIsDeleted c.shared = true ↔ Deleted es) ∧
      ∀ e c', (program T deletable).Step c e c' →
        ((optikIsDeleted c'.shared = true ↔ Deleted ((e, c') :: es)) ↔ Fits es c e c') := by
  have hrun : ∀ {es c}, (program T deletable).RunIf Fits es c → (program T deletable).Run es c :=
    fun hr => hr.mono fun _ _ _ _ _ => trivial
  have ht : Tells es c.shared := by
    induction hr with
    | init => simp [Tells, Deleted, optikIsDeleted, Program.initial, program, optikInit]
    | step hr hst hfits ih => exact (tells_step (hrun hr) ih hst).mpr hfits
  exact ⟨ht, fun e c' hst => tells_step (hrun hr) ht hst⟩

/-- A lock that was held once is deleted with version 1. -/
theorem optik_is_deleted_once : ∃ es c, (program (Fin 2) deletable).RunIf Fits es c ∧
    c.shared.version = 1 ∧ optikIsDeleted c.shared = true ∧ Deleted es := by
  have h0 : (program (Fin 2) deletable).RunIf Fits [] _ := .init
  have h1 := h0.step (e := .call 0 ()) (.call rfl trivial) trivial
  have h2 := h1.step (.tau (.trylockVersion ⟨0, 0⟩) (t := 0) rfl rfl rfl) rfl
  have h3 := h2.step (.tau .unlock (t := 0) rfl rfl rfl) rfl
  have h4 := h3.step (.tau .unlock (t := 0) rfl rfl rfl) rfl
  have h5 := h4.step (.tau .unlock (t := 0) rfl rfl rfl) rfl
  have h6 := h5.step (.tau .unlock (t := 0) rfl rfl rfl) rfl
  have h7 := h6.step (.tau .unlock (t := 0) rfl rfl rfl) rfl
  have h8 := h7.step (.tau .unlock (t := 0) rfl rfl rfl) rfl
  have h9 := h8.step (.tau .unlock (t := 0) rfl rfl rfl) rfl
  have h10 := h9.step (.tau (.trylockVdelete ⟨1, 1⟩) (t := 0) rfl rfl rfl) rfl
  have h11 := h10.step (.tau .unlock (t := 0) rfl rfl rfl) rfl
  have h12 := h11.step (.tau .unlock (t := 0) rfl rfl rfl) rfl
  obtain ⟨ht, -⟩ := optik_is_deleted h12
  have hd : optikIsDeleted (⟨1, 0⟩ : OptikT) = true := by decide
  exact ⟨_, _, h12, rfl, hd, ht.mp hd⟩

/-- **A fresh lock is deleted, and `optik_is_deleted` does not tell.** -/
theorem deleted_fresh : ¬ ∀ es c, (program (Fin 1) deletable).Run es c →
    (optikIsDeleted c.shared = true ↔ Deleted es) := by
  intro hclaim
  have h0 : (program (Fin 1) deletable).Run [] _ := .init
  have h1 := h0.step (e := .call 0 ()) (.call rfl trivial) trivial
  have h2 := h1.step (.tau (.trylockVdelete ⟨0, 0⟩) (t := 0) rfl rfl rfl) trivial
  have h3 := h2.step (.tau .unlock (t := 0) rfl rfl rfl) trivial
  have h4 := h3.step (.tau .unlock (t := 0) rfl rfl rfl) trivial
  exact absurd ((hclaim _ _ h4).mpr ⟨_, .head _, rfl⟩) (by decide)

end OptikTicket

end Ascylib
