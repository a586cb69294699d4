/-
# The integer OPTIK lock

`include/optik.h`: the lock operations over one word, one local state for each
access to it; the plain increment of `optik_unlock` is a load and a store.
Each thread is a client that calls the operations in any order, `optik_unlock`
and `optik_revert` only while it holds the lock.

Key theorem: `optik_lock`, in runs with fewer than 2^63 - 1 acquisitions.
-/
import Ascylib.Concur.Run
import Ascylib.Optik
import Mathlib.Data.List.Count

set_option linter.unusedSectionVars false

namespace Ascylib

open Concur

namespace OptikLock

/-- The operations; `old` is a value read earlier. -/
inductive Operation where
  | lock
  | lockVersion (old : OptikT)
  | trylock
  | trylockVersion (old : OptikT)
  | trylockVdelete (old : OptikT)
  | unlock
  | revert
  deriving DecidableEq

/-- Where a thread is. -/
inductive Pc where
  /-- between two operations -/
  | client
  /-- `optik_lock`, `optik_lock_version`: `ol_cur = *ol`, while it is locked -/
  | lockLoad
  /-- `CAS_U64(ol, ol_cur, ol_cur + 1)` -/
  | lockCas (cur : OptikT)
  /-- `optik_trylock_version`, `optik_trylock_vdelete`: `optik_is_locked(ol_old) || *ol != ol_old` -/
  | tryLoad (old : OptikT)
  /-- `CAS_U64(ol, ol_old, ol_old + 1)`, or with `OPTIK_DELETED` -/
  | tryCas (old : OptikT)
  /-- `optik_trylock`: `ol_new = *ol` -/
  | trylockLoad
  /-- `CAS_U64(ol, ol_new, ol_new + 1)` -/
  | trylockCas (new : OptikT)
  /-- `optik_unlock`: the load of `(*ol)++` -/
  | unlockLoad
  /-- the store of `(*ol)++` -/
  | unlockStore (cur : OptikT)
  /-- `optik_revert`: `FAD_U64(ol)` -/
  | revert
  /-- the operation took the lock and returns `r` -/
  | acquired (r : Bool)
  /-- `optik_trylock_vdelete` deleted the lock and returns 1 -/
  | deleted
  /-- the operation did not take the lock and returns 0 -/
  | failed
  /-- `optik_unlock` returns -/
  | unlocked
  /-- `optik_revert` returns -/
  | reverted
  deriving DecidableEq

/-- A thread: its operation, where it is in it, and whether it holds the lock. -/
structure Thread where
  op : Operation
  pc : Pc
  holds : Bool
  deriving DecidableEq

/-- The first access of an operation; a thread that does not hold the lock
cannot give it back. -/
def enter (holds : Bool) : Operation → Option Pc
  | .lock => some .lockLoad
  | .lockVersion _ => some .lockLoad
  | .trylock => some .trylockLoad
  | .trylockVersion old => some (.tryLoad old)
  | .trylockVdelete old => some (.tryLoad old)
  | .unlock => if holds then some .unlockLoad else none
  | .revert => if holds then some .revert else none

/-- What `optik_lock` and `optik_lock_version` return. -/
def lockResult (op : Operation) (cur : OptikT) : Bool :=
  match op with
  | .lockVersion old => cur == old
  | _ => true

/-- The next access of a thread to the word; `next` is the operation it calls
when it is between two. -/
def step (next : Operation) (ol : OptikT) (l : Thread) : Option (OptikT × Thread) :=
  match l.pc with
  | .client => (enter l.holds next).map fun pc => (ol, { l with op := next, pc := pc })
  | .lockLoad => some (ol, { l with pc := if optikIsLocked ol then .lockLoad else .lockCas ol })
  | .lockCas cur =>
    if ol = cur then
      some (ol + 1, { l with pc := .acquired (lockResult l.op cur), holds := true })
    else some (ol, { l with pc := .lockLoad })
  | .tryLoad old => some (ol, { l with pc := if optikOutdated ol old then .failed else .tryCas old })
  | .tryCas old =>
    if ol = old then
      match l.op with
      | .trylockVdelete _ => some (optikDeleted, { l with pc := .deleted })
      | _ => some (ol + 1, { l with pc := .acquired true, holds := true })
    else some (ol, { l with pc := .failed })
  | .trylockLoad =>
    some (ol, { l with pc := if optikIsLocked ol then .failed else .trylockCas ol })
  | .trylockCas new =>
    if ol = new then some (ol + 1, { l with pc := .acquired true, holds := true })
    else some (ol, { l with pc := .failed })
  | .unlockLoad => some (ol, { l with pc := .unlockStore ol })
  | .unlockStore cur => some (cur + 1, { l with pc := .unlocked, holds := false })
  | .revert => some (ol - 1, { l with pc := .reverted, holds := false })
  | .acquired _ | .deleted | .failed | .unlocked | .reverted => some (ol, { l with pc := .client })

/-- Any number of clients of one lock. -/
def program (T : Type*) : Program T Unit Empty OptikT Thread Operation where
  init := optikInit
  pre _ := True
  start _ := ⟨.lock, .client, false⟩
  step next _ ol _ l := step next ol l
  result _ := none

/-! ### What happens in a run -/

variable {T : Type*}

abbrev Run (T : Type*) := Trace T Unit Empty OptikT Thread

/-- The local state that an event leads to. -/
def after (p : Event T Unit Empty × Config T Unit OptikT Thread) : Option Thread :=
  match p.1 with
  | .tau t => (p.2.threads t).map Prod.snd
  | _ => none

def Thread.takes (l : Thread) : Bool :=
  match l.pc with
  | .acquired _ | .deleted => true
  | _ => false

def Thread.deletes (l : Thread) : Bool := l.pc = .deleted

def Thread.ends (l : Thread) : Bool := l.pc = .unlocked

/-- The event takes the lock, for good or not. -/
def takes (p : Event T Unit Empty × Config T Unit OptikT Thread) : Bool :=
  (after p).any Thread.takes

/-- The event deletes the lock. -/
def deletes (p : Event T Unit Empty × Config T Unit OptikT Thread) : Bool :=
  (after p).any Thread.deletes

/-- The event ends a critical section with `optik_unlock`. -/
def ends (p : Event T Unit Empty × Config T Unit OptikT Thread) : Bool :=
  (after p).any Thread.ends

/-- The event takes the lock through a versioned operation that returns 1 for
`old`. -/
def takesVersion (old : OptikT) (p : Event T Unit Empty × Config T Unit OptikT Thread) : Prop :=
  ∃ holds, after p = some ⟨.trylockVersion old, .acquired true, holds⟩ ∨
    after p = some ⟨.lockVersion old, .acquired true, holds⟩ ∨
    after p = some ⟨.trylockVdelete old, .deleted, holds⟩

def acquisitions (es : Run T) : ℕ := es.countP takes

def Deleted (es : Run T) : Prop := ∃ p ∈ es, deletes p = true

def Holds (c : Config T Unit OptikT Thread) (t : T) : Prop :=
  ∃ l, c.threads t = some ((), l) ∧ l.holds = true

/-- Fewer than 2^63 - 1 acquisitions in total. -/
def Few (es : Run T) (_ : Config T Unit OptikT Thread) (e : Event T Unit Empty)
    (c' : Config T Unit OptikT Thread) : Prop := acquisitions ((e, c') :: es) < 2 ^ 63 - 1

/-! ### What holds at each point -/

/-- The assertion at each local state. -/
def Static (l : Thread) : Prop :=
  match l.pc with
  | .lockLoad => l.op = .lock ∨ ∃ old, l.op = .lockVersion old
  | .lockCas cur => (l.op = .lock ∨ ∃ old, l.op = .lockVersion old) ∧ optikIsLocked cur = false
  | .tryLoad old => l.op = .trylockVersion old ∨ l.op = .trylockVdelete old
  | .tryCas old => (l.op = .trylockVersion old ∨ l.op = .trylockVdelete old) ∧
      optikIsLocked old = false
  | .trylockLoad => l.op = .trylock
  | .trylockCas new => l.op = .trylock ∧ optikIsLocked new = false
  | .unlockLoad | .unlockStore _ | .revert => l.holds = true
  | _ => True

/-- The lock is taken while a thread holds it, and nobody else writes it. -/
structure At (ol : OptikT) (l : Thread) : Prop where
  static : Static l
  locked : l.holds = true → optikIsLocked ol = true ∧ ol ≠ optikDeleted
  store : ∀ cur, l.pc = .unlockStore cur → ol = cur

/-- What one step does to the word. -/
inductive Effect (ol : OptikT) (l : Thread) : OptikT → Thread → Prop
  | none {l'} : l'.holds = l.holds → l'.takes = false → l'.ends = false → Effect ol l ol l'
  | take {l' r} : optikIsLocked ol = false → l'.pc = .acquired r → l'.holds = true →
      (∀ old, l'.op = .trylockVersion old ∨ l'.op = .lockVersion old → r = true → ol = old) →
      Effect ol l (ol + 1) l'
  | delete {l'} : optikIsLocked ol = false → l'.pc = .deleted → l'.holds = l.holds →
      (∀ old, l'.op = .trylockVdelete old → ol = old) → Effect ol l optikDeleted l'
  | unlock {l'} : l.holds = true → l'.pc = .unlocked → l'.holds = false → Effect ol l (ol + 1) l'
  | revert {l'} : l.holds = true → l'.pc = .reverted → l'.holds = false → Effect ol l (ol - 1) l'

theorem effect_of_step {next : Operation} {ol ol' : OptikT} {l l' : Thread} (h : At ol l)
    (hs : step next ol l = some (ol', l')) : Effect ol l ol' l' ∧ Static l' ∧
      ∀ cur, l'.pc = .unlockStore cur → ol' = cur := by
  obtain ⟨op, pc, holds⟩ := l
  have hst := h.static
  cases pc with
  | client =>
    cases next <;> simp only [step, enter, Option.map_some, Option.map_eq_some_iff] at hs
    case unlock | revert =>
      obtain ⟨pc, hpc, hs⟩ := hs
      split at hpc
      · cases hpc
        cases hs
        exact ⟨.none rfl rfl rfl, ‹_›, nofun⟩
      · cases hpc
    all_goals
      cases hs
      exact ⟨.none rfl rfl rfl, by simp [Static], nofun⟩
  | lockLoad =>
    cases hs
    by_cases hl : optikIsLocked ol = true
    · simp only [hl, if_true]
      exact ⟨.none rfl rfl rfl, hst, nofun⟩
    · simp only [hl]
      exact ⟨.none rfl rfl rfl, ⟨hst, Bool.not_eq_true _ ▸ hl⟩, nofun⟩
  | lockCas cur =>
    by_cases he : ol = cur
    · subst he
      simp only [step, if_true] at hs
      cases hs
      refine ⟨.take hst.2 rfl rfl fun old ho hr => ?_, trivial, nofun⟩
      rcases ho with rfl | rfl
      · simp [Static] at hst
      · simpa [lockResult] using hr
    · simp only [step, he, if_false] at hs
      cases hs
      exact ⟨.none rfl rfl rfl, hst.1, nofun⟩
  | tryLoad old =>
    cases hs
    by_cases ho : optikOutdated ol old = true
    · simp only [ho, if_true]
      exact ⟨.none rfl rfl rfl, trivial, nofun⟩
    · simp only [ho]
      exact ⟨.none rfl rfl rfl, ⟨hst, not_locked_of_outdated ho⟩, nofun⟩
  | tryCas old =>
    by_cases he : ol = old
    · subst he
      simp only [step, if_true] at hs
      obtain ⟨rfl | rfl, hl⟩ := hst
      · cases hs
        exact ⟨.take hl rfl rfl (by simp), trivial, nofun⟩
      · cases hs
        exact ⟨.delete hl rfl rfl (by simp), trivial, nofun⟩
    · simp only [step, he, if_false] at hs
      cases hs
      exact ⟨.none rfl rfl rfl, trivial, nofun⟩
  | trylockLoad =>
    cases hs
    by_cases hl : optikIsLocked ol = true
    · simp only [hl, if_true]
      exact ⟨.none rfl rfl rfl, trivial, nofun⟩
    · simp only [hl]
      exact ⟨.none rfl rfl rfl, ⟨hst, Bool.not_eq_true _ ▸ hl⟩, nofun⟩
  | trylockCas new =>
    by_cases he : ol = new
    · subst he
      simp only [step, if_true] at hs
      cases hs
      refine ⟨.take hst.2 rfl rfl fun old ho _ => ?_, trivial, nofun⟩
      rcases ho with rfl | rfl <;> simp [Static] at hst
    · simp only [step, he, if_false] at hs
      cases hs
      exact ⟨.none rfl rfl rfl, trivial, nofun⟩
  | unlockLoad =>
    cases hs
    exact ⟨.none rfl rfl rfl, hst, fun _ he => Pc.unlockStore.inj he⟩
  | unlockStore cur =>
    cases hs
    rw [← h.store cur rfl]
    exact ⟨.unlock hst rfl rfl, trivial, nofun⟩
  | revert =>
    cases hs
    exact ⟨.revert hst rfl rfl, trivial, nofun⟩
  | acquired r | deleted | failed | unlocked | reverted =>
    cases hs
    exact ⟨.none rfl rfl rfl, trivial, nofun⟩

/-- A step of another thread leaves the word of a holder alone. -/
theorem Effect.of_holds {ol ol' : OptikT} {l l' m : Thread} (h : Effect ol l ol' l') (hm : At ol m)
    (hh : m.holds = true) (hx : ¬ (l.holds = true ∧ m.holds = true)) : ol' = ol := by
  have hl := (hm.locked hh).1
  cases h with
  | none => rfl
  | take hu => rw [hu] at hl; cases hl
  | delete hu => rw [hu] at hl; cases hl
  | unlock h1 => exact absurd ⟨h1, hh⟩ hx
  | revert h1 => exact absurd ⟨h1, hh⟩ hx

theorem At.of_step {next : Operation} {ol ol' : OptikT} {l l' : Thread} (h : At ol l)
    (hs : step next ol l = some (ol', l'))
    (hd : optikIsLocked ol = false → l'.pc ≠ .deleted → ol' ≠ optikDeleted) :
    At ol' l' := by
  obtain ⟨he, h1, h2⟩ := effect_of_step h hs
  refine ⟨h1, fun hh => ?_, h2⟩
  cases he with
  | none h3 => exact h.locked (h3 ▸ hh)
  | take hu hp => exact ⟨lock_locked hu, hd hu (by rw [hp]; nofun)⟩
  | delete hu hp h3 => rw [(h.locked (h3 ▸ hh)).1] at hu; cases hu
  | unlock _ _ h3 => rw [h3] at hh; cases hh
  | revert _ _ h3 => rw [h3] at hh; cases hh

variable [DecidableEq T]

/-- What the word says about the run: unless the lock has been deleted, it is
at most twice the number of acquisitions. -/
structure Bounded (es : Run T) (ol : OptikT) : Prop where
  few : acquisitions es < 2 ^ 63 - 1
  deleted : Deleted es → ol = optikDeleted
  le : ¬ Deleted es → ol.toNat ≤ 2 * acquisitions es
  lt : ¬ Deleted es → optikIsLocked ol = true → ol.toNat + 1 ≤ 2 * acquisitions es

theorem Bounded.ne_deleted {es : Run T} {ol : OptikT} (h : Bounded es ol) (hd : ¬ Deleted es) :
    ol ≠ optikDeleted := by
  rintro rfl
  have h1 := h.le hd
  have h2 := h.few
  rw [toNat_optikDeleted] at h1
  omega

theorem deleted_cons {p : Event T Unit Empty × Config T Unit OptikT Thread} {es : Run T} :
    Deleted (p :: es) ↔ deletes p = true ∨ Deleted es := by
  simp [Deleted]

/-- One step keeps the bound. -/
theorem Bounded.step {es : Run T} {p : Event T Unit Empty × Config T Unit OptikT Thread}
    {ol ol' : OptikT} {l l' : Thread} (h : Bounded es ol) (hat : At ol l) (he : Effect ol l ol' l')
    (hp : after p = some l') (hf : acquisitions (p :: es) < 2 ^ 63 - 1) : Bounded (p :: es) ol' := by
  have htake : takes p = l'.takes := by simp [OptikLock.takes, hp]
  have hdel : deletes p = l'.deletes := by simp [OptikLock.deletes, hp]
  have hacq : acquisitions (p :: es) = acquisitions es + if l'.takes = true then 1 else 0 := by
    simp [acquisitions, List.countP_cons, htake]
  have hdd : Deleted (p :: es) ↔ l'.deletes = true ∨ Deleted es := by rw [deleted_cons, hdel]
  cases he with
  | none _ h2 _ =>
    have h3 : l'.deletes = false := by
      unfold Thread.takes at h2
      unfold Thread.deletes
      rcases hpc : l'.pc <;> simp_all
    refine ⟨hf, fun hd => h.deleted ?_, fun hd => ?_, fun hd hl => ?_⟩ <;>
      simp only [hdd, h3, hacq, h2] at *
    · simpa using hd
    · simpa using h.le (by simpa using hd)
    · simpa using h.lt (by simpa using hd) hl
  | take hu hpc _ _ =>
    have h2 : l'.takes = true := by simp [Thread.takes, hpc]
    have h3 : l'.deletes = false := by simp [Thread.deletes, hpc]
    have hnd : ¬ Deleted es := fun hd => by
      rw [h.deleted hd, optikDeleted_locked] at hu
      cases hu
    have h4 := h.le hnd
    have h5 := toNat_lock hu
    rw [h2, if_pos rfl] at hacq
    exact ⟨hf, fun hd => absurd (hdd.mp hd) (by simp [h3, hnd]), fun _ => by omega,
      fun _ _ => by omega⟩
  | delete hu hpc _ _ =>
    have h3 : l'.deletes = true := by simp [Thread.deletes, hpc]
    exact ⟨hf, fun _ => rfl, fun hd => absurd (hdd.mpr (Or.inl h3)) hd,
      fun hd => absurd (hdd.mpr (Or.inl h3)) hd⟩
  | unlock hh hpc _ =>
    obtain ⟨hl, hne⟩ := hat.locked hh
    have h2 : l'.takes = false := by simp [Thread.takes, hpc]
    have h3 : l'.deletes = false := by simp [Thread.deletes, hpc]
    have hnd : ¬ Deleted es := fun hd => hne (h.deleted hd)
    have h4 := h.lt hnd hl
    have h5 := toNat_unlock hne
    have h6 := unlock_unlocked hl hne
    have hacq' : acquisitions (p :: es) = acquisitions es := by rw [hacq, h2]; rfl
    refine ⟨hf, fun hd => absurd (hdd.mp hd) (by simp [h3, hnd]), fun _ => by omega, fun _ hl' => ?_⟩
    rw [h6] at hl'
    cases hl'
  | revert hh hpc _ =>
    obtain ⟨hl, hne⟩ := hat.locked hh
    have h2 : l'.takes = false := by simp [Thread.takes, hpc]
    have h3 : l'.deletes = false := by simp [Thread.deletes, hpc]
    have hnd : ¬ Deleted es := fun hd => hne (h.deleted hd)
    have h4 := h.lt hnd hl
    have h5 := toNat_revert hl
    have h6 := revert_unlocked hl
    have hacq' : acquisitions (p :: es) = acquisitions es := by rw [hacq, h2]; rfl
    refine ⟨hf, fun hd => absurd (hdd.mp hd) (by simp [h3, hnd]), fun _ => by omega, fun _ hl' => ?_⟩
    rw [h6] at hl'
    cases hl'

/-- The proof outline: `Bounded` and `At` hold, and two threads never both
hold the lock. -/
def outline : Outline (program T) Few (fun _ _ => False) where
  glob es ol := Bounded es ol
  loc _ _ _ ol _ l := At ol l
  pair f g := ¬ (f.2.holds = true ∧ g.2.holds = true)
  pair_symm h := fun ⟨h1, h2⟩ => h ⟨h2, h1⟩
  init := ⟨by simp [acquisitions], by simp [Deleted], fun _ => by simp [program, optikInit],
    fun _ h => by simp [program, optikInit_unlocked] at h⟩
  frame := by
    intro es s e th h he
    have hn : after (e, (⟨s, th⟩ : Config T Unit OptikT Thread)) = none := by
      cases e with
      | tau t => exact absurd rfl (he t)
      | call => rfl
      | ret => rfl
    have hacq : acquisitions ((e, ⟨s, th⟩) :: es) = acquisitions es := by
      simp [acquisitions, takes, hn]
    have hdd : Deleted ((e, ⟨s, th⟩) :: es) ↔ Deleted es := by
      simp [deleted_cons, deletes, hn]
    exact ⟨hacq ▸ h.few, fun hd => h.deleted (hdd.mp hd), fun hd => hacq ▸ h.le (hd ∘ hdd.mpr),
      fun hd => hacq ▸ h.lt (hd ∘ hdd.mpr)⟩
  call t _ _ _ := ⟨trivial, nofun, nofun⟩
  call_pair := nofun
  tau := by
    intro es c t op l i s' l' _ _ _ hstep hfew hb hat
    have hs : step i c.shared l = some (s', l') := hstep
    obtain ⟨he, -⟩ := effect_of_step hat hs
    have hb' := hb.step hat he (by simp [after]) hfew
    have hat' : At s' l' := hat.of_step hs fun hu hpc => hb'.ne_deleted fun hd => by
      rcases deleted_cons.mp hd with h | h
      · simp [deletes, after, Thread.deletes, hpc] at h
      · rw [hb.deleted h, optikDeleted_locked] at hu
        cases hu
    refine ⟨hb', hat', fun u op₁ m hu _ hm hx => ⟨?_, ?_⟩⟩
    · refine ⟨hm.static, fun hh => ?_, fun cur hcur => ?_⟩
      · rw [he.of_holds hm hh hx]; exact hm.locked hh
      · have hh : m.holds = true := by
          have := hm.static
          rw [Static, hcur] at this
          exact this
        rw [he.of_holds hm hh hx]
        exact hm.store cur hcur
    · rintro ⟨h1, h2⟩
      have h3 := hm.locked h2
      cases he with
      | none h => exact hx ⟨h ▸ h1, h2⟩
      | take hu => rw [h3.1] at hu; cases hu
      | delete hu => rw [h3.1] at hu; cases hu
      | unlock _ _ h => change l'.holds = true at h1; rw [h] at h1; cases h1
      | revert _ _ h => change l'.holds = true at h1; rw [h] at h1; cases h1

variable {es : Run T} {c : Config T Unit OptikT Thread}

/-- **The word is odd exactly while a thread holds the lock or it is deleted.** -/
theorem locked_iff (hr : (program T).RunIf Few es c) :
    optikIsLocked c.shared = true ↔ (∃ t, Holds c t) ∨ Deleted es := by
  constructor
  · induction hr with
    | init => exact fun h => by simp [Program.initial, program, optikInit_unlocked] at h
    | @step es c e c' hr hst hfew ih =>
      intro hl
      cases hst with
      | @call t op hidle =>
        rcases ih hl with ⟨u, l, hu, hh⟩ | hd
        · refine Or.inl ⟨u, l, ?_, hh⟩
          have : u ≠ t := by rintro rfl; rw [hidle] at hu; cases hu
          simpa [this] using hu
        · exact Or.inr (deleted_cons.mpr (Or.inr hd))
      | @tau t op l s' l' i ht hres hstep =>
        have hat : At c.shared l := (outline.holds hr).loc t op l ht
        have hself : l'.holds = true →
            Holds (⟨s', Function.update c.threads t (some (op, l'))⟩ : Config T Unit OptikT Thread) t :=
          fun hh => ⟨l', by simp, hh⟩
        have hother : ∀ u, u ≠ t → Holds c u →
            Holds (⟨s', Function.update c.threads t (some (op, l'))⟩ : Config T Unit OptikT Thread) u :=
          fun u hu hheld => by
            obtain ⟨m, hm, hh⟩ := hheld
            exact ⟨m, by simpa [hu] using hm, hh⟩
        cases (effect_of_step hat hstep).1 with
        | none h1 =>
          rcases ih hl with ⟨u, hu⟩ | hd
          · by_cases hut : u = t
            · subst hut
              obtain ⟨m, hm, hh⟩ := hu
              rw [ht] at hm
              cases hm
              exact Or.inl ⟨u, hself (h1 ▸ hh)⟩
            · exact Or.inl ⟨u, hother u hut hu⟩
          · exact Or.inr (deleted_cons.mpr (Or.inr hd))
        | take _ _ h1 => exact Or.inl ⟨t, hself h1⟩
        | delete _ h1 =>
          exact Or.inr (deleted_cons.mpr (Or.inl (by simp [deletes, after, Thread.deletes, h1])))
        | unlock h1 =>
          obtain ⟨h2, h3⟩ := hat.locked h1
          change optikIsLocked (c.shared + 1) = true at hl
          rw [unlock_unlocked h2 h3] at hl
          cases hl
        | revert h1 =>
          change optikIsLocked (c.shared - 1) = true at hl
          rw [revert_unlocked (hat.locked h1).1] at hl
          cases hl
      | ret _ hres => cases hres
  · have hh := outline.holds hr
    rintro (⟨t, l, ht, h⟩ | hd)
    · exact ((hh.loc t () l ht).locked h).1
    · rw [hh.glob.deleted hd]; exact optikDeleted_locked

theorem holds_unique (hr : (program T).RunIf Few es c) {t u : T} (ht : Holds c t) (hu : Holds c u) :
    t = u := by
  obtain ⟨l, hl, h1⟩ := ht
  obtain ⟨m, hm, h2⟩ := hu
  by_contra hne
  exact (outline.holds hr).pair t u _ _ hne hl hm ⟨h1, h2⟩

/-- What an event of a run does to the word. -/
theorem effect_of_run {p : Event T Unit Empty × Config T Unit OptikT Thread} {c'}
    (hr : (program T).RunIf Few (p :: es) c') : ∃ c, (program T).RunIf Few es c ∧
      ((after p = none ∧ c'.shared = c.shared) ∨
        ∃ l l', after p = some l' ∧ At c.shared l ∧ Effect c.shared l c'.shared l') := by
  cases hr with
  | @step _ c e c' hr hst hfew =>
    refine ⟨c, hr, ?_⟩
    cases hst with
    | call => exact Or.inl ⟨rfl, rfl⟩
    | @tau t op l s' l' i ht hres hstep =>
      have hat : At c.shared l := (outline.holds hr).loc t op l ht
      exact Or.inr ⟨l, l', by simp [after], hat, (effect_of_step hat hstep).1⟩
    | ret _ hres => cases hres

/-- The critical sections counted by the word never go back, and grow when
one ends. -/
theorem sections_step {p : Event T Unit Empty × Config T Unit OptikT Thread} {c'}
    (hr : (program T).RunIf Few (p :: es) c') : ∃ c, (program T).RunIf Few es c ∧
      sections c.shared ≤ sections c'.shared ∧
      (ends p = true → sections c.shared < sections c'.shared) := by
  obtain ⟨c, hrc, ⟨h1, h2⟩ | ⟨l, l', hp, hat, he⟩⟩ := effect_of_run hr
  · exact ⟨c, hrc, by rw [h2], by simp [ends, h1]⟩
  · refine ⟨c, hrc, ?_⟩
    have hends : ends p = l'.ends := by simp [ends, hp]
    rw [hends]
    generalize c'.shared = ol' at he
    cases he with
    | none _ _ h3 => exact ⟨le_rfl, by rw [h3]; nofun⟩
    | take hu hpc => exact ⟨(sections_lock hu).ge, by simp [Thread.ends, hpc]⟩
    | delete hu hpc => exact ⟨sections_le_deleted _, by simp [Thread.ends, hpc]⟩
    | unlock hh =>
      obtain ⟨h1, h2⟩ := hat.locked hh
      rw [sections_unlock h1 h2]
      exact ⟨Nat.le_succ _, fun _ => Nat.lt_succ_self _⟩
    | revert hh hpc => exact ⟨(sections_revert (hat.locked hh).1).ge, by simp [Thread.ends, hpc]⟩

/-- **Two moments with the same count: no critical section ended in between.** -/
theorem sections_mono {es₁ es₂ : Run T} (hr : (program T).RunIf Few (es₂ ++ es₁) c) :
    sections ((program T).last es₁) ≤ sections c.shared ∧
      ((∃ p ∈ es₂, ends p = true) → sections ((program T).last es₁) < sections c.shared) := by
  induction es₂ generalizing c with
  | nil => exact ⟨by rw [List.nil_append] at hr; rw [hr.last_eq], by simp⟩
  | cons p es₂ ih =>
    obtain ⟨c₀, hr₀, h1, h2⟩ := sections_step hr
    obtain ⟨h3, h4⟩ := ih hr₀
    refine ⟨h3.trans h1, ?_⟩
    rintro ⟨q, hq, he⟩
    rcases List.mem_cons.mp hq with rfl | hq
    · exact h3.trans_lt (h2 he)
    · exact (h4 ⟨q, hq, he⟩).trans_le h1

/-- A versioned operation that returns 1 found its value in the word. -/
theorem eq_of_takesVersion {old : OptikT} {p : Event T Unit Empty × Config T Unit OptikT Thread} {c'}
    (hr : (program T).RunIf Few (p :: es) c') (hp : takesVersion old p) :
    ∃ c, (program T).RunIf Few es c ∧ c.shared = old := by
  obtain ⟨c, hrc, ⟨h1, -⟩ | ⟨l, l', hl', -, he⟩⟩ := effect_of_run hr
  · obtain ⟨b, h | h | h⟩ := hp <;> rw [h1] at h <;> cases h
  · refine ⟨c, hrc, ?_⟩
    obtain ⟨b, hb⟩ := hp
    rw [hl'] at hb
    simp only [Option.some.injEq] at hb
    generalize c'.shared = ol' at he
    cases he with
    | none _ h2 => rcases hb with rfl | rfl | rfl <;> cases h2
    | take _ h2 _ h4 =>
      rcases hb with rfl | rfl | rfl
      · exact h4 old (Or.inl rfl) (by simpa using h2.symm)
      · exact h4 old (Or.inr rfl) (by simpa using h2.symm)
      · cases h2
    | delete _ h2 _ h4 =>
      rcases hb with rfl | rfl | rfl
      · cases h2
      · cases h2
      · exact h4 old rfl
    | unlock _ h2 => rcases hb with rfl | rfl | rfl <;> cases h2
    | revert _ h2 => rcases hb with rfl | rfl | rfl <;> cases h2

/-- **The integer OPTIK lock.** The word is odd exactly while one thread holds
the lock or the lock has been deleted; a deleted lock is never taken again;
and when a versioned operation returns 1, no critical section has ended with
`optik_unlock` since any moment at which the word had that version. -/
theorem optik_lock (hr : (program T).RunIf Few es c) :
    ((optikIsLocked c.shared = true ↔ (∃ t, Holds c t) ∨ Deleted es) ∧
      ∀ t u, Holds c t → Holds c u → t = u) ∧
    (∀ p es', es = p :: es' → Deleted es' → takes p = false) ∧
    ∀ p es₂ es₁ old, es = p :: (es₂ ++ es₁) → takesVersion old p → (program T).last es₁ = old →
      ∀ q ∈ es₂, ends q = false := by
  refine ⟨⟨locked_iff hr, fun t u => holds_unique hr⟩, ?_, ?_⟩
  · rintro p es' rfl hd
    obtain ⟨c₀, hr₀, ⟨h1, -⟩ | ⟨l, l', hl', -, he⟩⟩ := effect_of_run hr
    · simp [takes, h1]
    · have hw := (outline.holds hr₀).glob.deleted hd
      have htake : takes p = l'.takes := by simp [takes, hl']
      rw [htake]
      generalize c.shared = ol' at he
      cases he with
      | none _ h2 => exact h2
      | take hu => rw [hw, optikDeleted_locked] at hu; cases hu
      | delete hu => rw [hw, optikDeleted_locked] at hu; cases hu
      | unlock _ h2 => simp [Thread.takes, h2]
      | revert _ h2 => simp [Thread.takes, h2]
  · rintro p es₂ es₁ old rfl hp hlast q hq
    obtain ⟨c₀, hr₀, hold⟩ := eq_of_takesVersion hr hp
    by_contra he
    have := (sections_mono hr₀).2 ⟨q, hq, by simpa using he⟩
    rw [hlast, hold] at this
    exact lt_irrefl _ this

/-- One of two threads takes a fresh lock with `optik_trylock_version`. -/
theorem optik_lock_trylock : ∃ es c, (program (Fin 2)).RunIf Few es c ∧
    (∃ t, Holds c t ∧ ∀ u, Holds c u → u = t) ∧ optikIsLocked c.shared = true ∧
    ∀ p es₂, es = p :: es₂ → ∀ q ∈ es₂, ends q = false := by
  have h0 : (program (Fin 2)).RunIf Few [] _ := .init
  have h1 := h0.step (e := .call 0 ()) (.call rfl trivial) (by unfold Few; decide)
  have h2 := h1.step (.tau (.trylockVersion 0) (t := 0) rfl rfl rfl) (by unfold Few; decide)
  have h3 := h2.step (.tau .unlock (t := 0) rfl rfl rfl) (by unfold Few; decide)
  have h4 := h3.step (.tau .unlock (t := 0) rfl rfl rfl) (by unfold Few; decide)
  obtain ⟨⟨hl, hu⟩, -, hv⟩ := optik_lock h4
  refine ⟨_, _, h4, ?_, ?_⟩
  · exact ⟨0, ⟨_, rfl, rfl⟩, fun u h => hu u 0 h ⟨_, rfl, rfl⟩⟩
  · refine ⟨hl.mpr (Or.inl ⟨0, _, rfl, rfl⟩), fun p es₂ he => ?_⟩
    cases he
    exact hv _ _ [] 0 (congrArg _ (List.append_nil _).symm) ⟨true, Or.inl rfl⟩ rfl

end OptikLock

end Ascylib
