/-
# The separate OPTIK lock

`include/optik.h` with `OPTIK_SEPARATE`: a lock word and a version, which are
accessed one after the other. `optik_unlock` increments the version and then
frees the lock. `optik_trylock_version` compares the version after it has the
lock; `optik_lock_version` compares the one that its loop read before it took
the lock, and that may be older. Each thread is a client that calls the
operations in any order, `optik_unlock` only while it holds the lock.

Key theorem: `optik_separate`, in runs with fewer than 2^32 unlocks.
-/
import Ascylib.Concur.Run
import Mathlib.Data.BitVec
import Mathlib.Data.List.Count
import Mathlib.Tactic.Common

set_option linter.unusedSectionVars false

namespace Ascylib

open Concur

namespace OptikSeparate

/-- `optik_t` -/
structure OptikT where
  lock : BitVec 32
  version : BitVec 32
  deriving DecidableEq

def OPTIK_LOCKED : BitVec 32 := 1

def OPTIK_FREE : BitVec 32 := 0

/-- `OPTIK_INIT` -/
def optikInit : OptikT := ⟨OPTIK_FREE, 0⟩

def optikIsLocked (ol : OptikT) : Bool := ol.lock = OPTIK_LOCKED

/-- The operations; `old` is a value read earlier. -/
inductive Operation where
  | lock
  | trylock
  | trylockVersion (old : OptikT)
  | lockVersion (old : OptikT)
  | unlock
  deriving DecidableEq

/-- Where a thread is. -/
inductive Pc where
  /-- between two operations -/
  | client
  /-- `optik_lock`, `optik_lock_version`: the load of `lock` of `ol_cur = *ol` -/
  | lockLoad
  /-- the load of `version`, while it is locked -/
  | lockLoadVersion (lock : BitVec 32)
  /-- `CAS_U32(&ol->lock, 0, 1)` -/
  | lockCas (cur : OptikT)
  /-- `optik_trylock_version`: `ol->version != ol_old.version` -/
  | tryCheck (old : OptikT)
  /-- `ol->lock = OPTIK_FREE` -/
  | tryFree
  /-- `optik_trylock`: the load of `lock` of `*ol` -/
  | trylockLoad
  /-- the load of `version` -/
  | trylockLoadVersion (lock : BitVec 32)
  /-- `CAS_U32(&ol->lock, 0, 1)` -/
  | trylockCas
  /-- `optik_unlock`: the load of `ol->version++` -/
  | unlockLoad
  /-- the store of `ol->version++` -/
  | unlockStore (version : BitVec 32)
  /-- `ol->lock = 0` -/
  | unlockFree
  /-- the operation took the lock and returns `r` -/
  | acquired (r : Bool)
  /-- the operation did not take the lock and returns 0 -/
  | failed
  /-- `optik_unlock` returns -/
  | unlocked
  deriving DecidableEq

/-- A thread: its operation, where it is in it, and whether it holds the lock. -/
structure Thread where
  op : Operation
  pc : Pc
  holds : Bool
  deriving DecidableEq

/-- The first access of an operation. -/
def enter (holds : Bool) : Operation → Option Pc
  | .lock => some .lockLoad
  | .trylock => some .trylockLoad
  | .trylockVersion _ => some .lockLoad
  | .lockVersion _ => some .lockLoad
  | .unlock => if holds then some .unlockLoad else none

/-- A thread that leaves the loop of `optik_lock` or `optik_lock_version` with
the lock. -/
def locked (cur : OptikT) (l : Thread) : Thread :=
  match l.op with
  | .trylockVersion old => { l with pc := .tryCheck old }
  | .lockVersion old => { l with pc := .acquired (cur.version = old.version), holds := true }
  | _ => { l with pc := .acquired true, holds := true }

/-- The next access of a thread to the lock; `next` is the operation it calls
when it is between two. -/
def step (next : Operation) (ol : OptikT) (l : Thread) : Option (OptikT × Thread) :=
  match l.pc with
  | .client => (enter l.holds next).map fun pc => (ol, { l with op := next, pc := pc })
  | .lockLoad => some (ol, { l with pc := .lockLoadVersion ol.lock })
  | .lockLoadVersion lock =>
    some (ol, if optikIsLocked ⟨lock, ol.version⟩ then { l with pc := .lockLoad }
      else { l with pc := .lockCas ⟨lock, ol.version⟩ })
  | .lockCas cur =>
    some (if ol.lock = 0 then ({ ol with lock := 1 }, locked cur l)
      else (ol, { l with pc := .lockLoad }))
  | .tryCheck old =>
    some (ol, if ol.version ≠ old.version then { l with pc := .tryFree }
      else { l with pc := .acquired true, holds := true })
  | .tryFree => some ({ ol with lock := OPTIK_FREE }, { l with pc := .failed })
  | .trylockLoad => some (ol, { l with pc := .trylockLoadVersion ol.lock })
  | .trylockLoadVersion lock =>
    some (ol, if optikIsLocked ⟨lock, ol.version⟩ then { l with pc := .failed }
      else { l with pc := .trylockCas })
  | .trylockCas =>
    some (if ol.lock = 0 then ({ ol with lock := 1 }, { l with pc := .acquired true, holds := true })
      else (ol, { l with pc := .failed }))
  | .unlockLoad => some (ol, { l with pc := .unlockStore ol.version })
  | .unlockStore version => some ({ ol with version := version + 1 }, { l with pc := .unlockFree })
  | .unlockFree => some ({ ol with lock := 0 }, { l with pc := .unlocked, holds := false })
  | .acquired _ | .failed | .unlocked => some (ol, { l with pc := .client })

/-- Any number of clients of one lock. -/
def program (T : Type*) : Program T Unit Empty OptikT Thread Operation where
  init := optikInit
  pre _ := True
  start _ := ⟨.lock, .client, false⟩
  step next _ ol _ l := step next ol l
  result _ := none

/-! ### What happens in a run -/

variable {T : Type*}

abbrev Run (T : Type*) := Trace T Unit Empty OptikT Thread

/-- The local state that an event leads to. -/
def after (p : Event T Unit Empty × Config T Unit OptikT Thread) : Option Thread :=
  match p.1 with
  | .tau t => (p.2.threads t).map Prod.snd
  | _ => none

/-- The event increments the version. -/
def increments (p : Event T Unit Empty × Config T Unit OptikT Thread) : Bool :=
  (after p).any fun l => l.pc = .unlockFree

/-- The event ends a critical section with `optik_unlock`. -/
def ends (p : Event T Unit Empty × Config T Unit OptikT Thread) : Bool :=
  (after p).any fun l => l.pc = .unlocked

/-- With the event a versioned operation that returns 1 for `old` has the lock. -/
def takesVersion (old : OptikT) (p : Event T Unit Empty × Config T Unit OptikT Thread) : Prop :=
  ∃ holds, after p = some ⟨.trylockVersion old, .acquired true, holds⟩ ∨
    after p = some ⟨.lockVersion old, .acquired true, holds⟩

def unlocks (es : Run T) : ℕ := es.countP increments

/-- Fewer than 2^32 unlocks in total. -/
def Few (es : Run T) (_ : Config T Unit OptikT Thread) (e : Event T Unit Empty)
    (c' : Config T Unit OptikT Thread) : Prop := unlocks ((e, c') :: es) < 2 ^ 32

/-- At the end of the run the thread is between the two stores of
`optik_unlock`. -/
def Unlocking (es : Run T) (t : T) : Prop :=
  ∃ p ∈ es.head?, ∃ l, p.2.threads t = some ((), l) ∧ l.pc = .unlockFree

/-! ### What a step does -/

/-- The thread has set the lock and not freed it yet. -/
def Thread.owns (l : Thread) : Bool :=
  l.holds || match l.pc with
    | .tryCheck _ | .tryFree => true
    | _ => false

/-- The assertion at each local state. -/
def Static (l : Thread) : Prop :=
  match l.pc with
  | .tryCheck old => l.op = .trylockVersion old ∧ l.holds = false
  | .tryFree => l.holds = false
  | .trylockLoad | .trylockLoadVersion _ | .trylockCas => l.op = .trylock
  | .unlockLoad | .unlockStore _ | .unlockFree => l.op = .unlock ∧ l.holds = true
  | _ => True

/-- Whoever has set the lock has it, and nobody else writes. -/
structure At (ol : OptikT) (l : Thread) : Prop where
  static : Static l
  locked : l.owns = true → ol.lock = 1
  store : ∀ version, l.pc = .unlockStore version → ol.version = version

/-- The step is not one of the two stores of `optik_unlock`. -/
def Outside (l l' : Thread) : Prop := l.pc ≠ .unlockFree ∧ l'.pc ≠ .unlockFree ∧ l'.pc ≠ .unlocked

/-- What one step does to the lock. -/
inductive Effect (ol : OptikT) (l : Thread) : OptikT → Thread → Prop
  | none {l'} : l'.owns = l.owns → Outside l l' → Effect ol l ol l'
  | take {l'} : ol.lock = 0 → l'.owns = true → Outside l l' → Effect ol l { ol with lock := 1 } l'
  | drop {l'} : l.owns = true → l'.owns = false → Outside l l' →
      Effect ol l { ol with lock := 0 } l'
  | store {l'} : l.owns = true → l'.owns = true → l.pc ≠ .unlockFree → l'.pc = .unlockFree →
      Effect ol l { ol with version := ol.version + 1 } l'
  | unlock {l'} : l.owns = true → l'.owns = false → l.pc = .unlockFree → l'.pc = .unlocked →
      Effect ol l { ol with lock := 0 } l'

theorem effect_of_step {next : Operation} {ol ol' : OptikT} {l l' : Thread} (h : At ol l)
    (hs : step next ol l = some (ol', l')) : Effect ol l ol' l' ∧ Static l' ∧
      ∀ version, l'.pc = .unlockStore version → ol'.version = version := by
  obtain ⟨op, pc, holds⟩ := l
  have hst := h.static
  cases pc with
  | client =>
    cases next <;> simp only [step, enter, Option.map_some, Option.map_eq_some_iff] at hs
    case unlock =>
      obtain ⟨pc, hpc, hs⟩ := hs
      split at hpc
      · cases hpc
        cases hs
        exact ⟨.none rfl ⟨nofun, nofun, nofun⟩, ⟨rfl, ‹_›⟩, nofun⟩
      · cases hpc
    all_goals
      cases hs
      exact ⟨.none rfl ⟨nofun, nofun, nofun⟩, by simp [Static], nofun⟩
  | lockLoad =>
    cases hs
    exact ⟨.none rfl ⟨nofun, nofun, nofun⟩, trivial, nofun⟩
  | lockLoadVersion lock =>
    cases hs
    split
    · exact ⟨.none rfl ⟨nofun, nofun, nofun⟩, trivial, nofun⟩
    · exact ⟨.none rfl ⟨nofun, nofun, nofun⟩, trivial, nofun⟩
  | lockCas cur =>
    by_cases he : ol.lock = 0
    · simp only [step, he, if_true] at hs
      have hf : holds = false := by
        cases holds with
        | false => rfl
        | true =>
          have := h.locked rfl
          rw [he] at this
          cases this
      cases op with
      | trylockVersion old =>
        cases hs
        exact ⟨.take he (by simp [Thread.owns, locked]) ⟨nofun, nofun, nofun⟩, ⟨rfl, hf⟩, nofun⟩
      | lock | trylock | lockVersion | unlock =>
        cases hs
        exact ⟨.take he rfl ⟨nofun, nofun, nofun⟩, trivial, nofun⟩
    · simp only [step, he, if_false] at hs
      cases hs
      exact ⟨.none rfl ⟨nofun, nofun, nofun⟩, trivial, nofun⟩
  | tryCheck old =>
    cases hs
    split
    · exact ⟨.none rfl ⟨nofun, nofun, nofun⟩, hst.2, nofun⟩
    · exact ⟨.none (by simp [Thread.owns]) ⟨nofun, nofun, nofun⟩, trivial, nofun⟩
  | tryFree =>
    cases hs
    have hf : holds = false := hst
    exact ⟨.drop (by simp [Thread.owns]) (by simp [Thread.owns, hf]) ⟨nofun, nofun, nofun⟩, trivial,
      nofun⟩
  | trylockLoad =>
    cases hs
    exact ⟨.none rfl ⟨nofun, nofun, nofun⟩, hst, nofun⟩
  | trylockLoadVersion lock =>
    cases hs
    split
    · exact ⟨.none rfl ⟨nofun, nofun, nofun⟩, trivial, nofun⟩
    · exact ⟨.none rfl ⟨nofun, nofun, nofun⟩, hst, nofun⟩
  | trylockCas =>
    by_cases he : ol.lock = 0
    · simp only [step, he, if_true] at hs
      cases hs
      exact ⟨.take he rfl ⟨nofun, nofun, nofun⟩, trivial, nofun⟩
    · simp only [step, he, if_false] at hs
      cases hs
      exact ⟨.none rfl ⟨nofun, nofun, nofun⟩, trivial, nofun⟩
  | unlockLoad =>
    cases hs
    exact ⟨.none rfl ⟨nofun, nofun, nofun⟩, hst, fun _ he => Pc.unlockStore.inj he⟩
  | unlockStore version =>
    cases hs
    obtain rfl : holds = true := hst.2
    rw [← h.store version rfl]
    exact ⟨.store rfl rfl nofun rfl, hst, nofun⟩
  | unlockFree =>
    cases hs
    obtain rfl : holds = true := hst.2
    exact ⟨.unlock rfl rfl rfl rfl, trivial, nofun⟩
  | acquired r | failed | unlocked =>
    cases hs
    exact ⟨.none (by simp [Thread.owns]) ⟨nofun, nofun, nofun⟩, trivial, nofun⟩

/-- The version that the loop has read is the one of the lock at that time. -/
theorem cur_of_step {next : Operation} {ol ol' : OptikT} {l l' : Thread} {cur : OptikT}
    (hs : step next ol l = some (ol', l')) (hpc : l'.pc = .lockCas cur) :
    ol'.version = cur.version := by
  obtain ⟨op, pc, holds⟩ := l
  cases pc with
  | client =>
    obtain ⟨pc, he, hs⟩ := Option.map_eq_some_iff.mp hs
    cases hs
    obtain rfl : pc = .lockCas cur := hpc
    cases next <;> simp [enter] at he
  | lockLoadVersion lock =>
    cases hs
    split at hpc
    · cases hpc
    · cases hpc
      rfl
  | lockCas cur₁ =>
    simp only [step] at hs
    split at hs
    · cases op <;> cases hs <;> cases hpc
    · cases hs
      cases hpc
  | tryCheck old =>
    cases hs
    split at hpc <;> cases hpc
  | trylockLoadVersion lock =>
    cases hs
    split at hpc <;> cases hpc
  | trylockCas =>
    simp only [step] at hs
    split at hs <;> cases hs <;> cases hpc
  | lockLoad | tryFree | trylockLoad | unlockLoad | unlockStore | unlockFree | acquired | failed
  | unlocked =>
    cases hs
    cases hpc

/-- A versioned operation that returns 1 has compared the version under the
lock, or the one that its loop has read. -/
theorem takes_of_step {next : Operation} {ol ol' : OptikT} {l l' : Thread} {old : OptikT}
    (hst : Static l) (hs : step next ol l = some (ol', l')) (hpc : l'.pc = .acquired true) :
    (l'.op = .trylockVersion old → l.owns = true ∧ ol.version = old.version) ∧
      (l'.op = .lockVersion old → ol.lock = 0 ∧ ∃ cur, l.pc = .lockCas cur ∧
        cur.version = old.version) := by
  obtain ⟨op, pc, holds⟩ := l
  cases pc with
  | client =>
    obtain ⟨pc, he, hs⟩ := Option.map_eq_some_iff.mp hs
    cases hs
    obtain rfl : pc = .acquired true := hpc
    cases next <;> simp [enter] at he
  | lockLoadVersion lock =>
    cases hs
    split at hpc <;> cases hpc
  | lockCas cur =>
    simp only [step] at hs
    split at hs
    · rename_i hl
      cases op with
      | lockVersion old₁ =>
        cases hs
        refine ⟨nofun, fun ho => ⟨hl, cur, rfl, ?_⟩⟩
        cases ho
        simpa [locked] using hpc
      | trylockVersion old₁ =>
        cases hs
        cases hpc
      | lock | trylock | unlock =>
        cases hs
        exact ⟨nofun, nofun⟩
    · cases hs
      cases hpc
  | tryCheck old₁ =>
    obtain ⟨rfl, -⟩ : op = .trylockVersion old₁ ∧ _ := hst
    cases hs
    split at hpc
    · cases hpc
    · rename_i hv
      rw [if_neg hv]
      refine ⟨fun ho => ?_, nofun⟩
      cases ho
      exact ⟨by simp [Thread.owns], not_not.mp hv⟩
  | trylockLoadVersion lock =>
    cases hs
    split at hpc <;> cases hpc
  | trylockCas =>
    obtain rfl : op = .trylock := hst
    simp only [step] at hs
    split at hs
    · cases hs
      exact ⟨nofun, nofun⟩
    · cases hs
      cases hpc
  | lockLoad | tryFree | trylockLoad | unlockLoad | unlockStore | unlockFree | acquired | failed
  | unlocked =>
    cases hs
    cases hpc

/-- A step of another thread leaves the lock of its owner alone. -/
theorem Effect.of_owns {ol ol' : OptikT} {l l' m : Thread} (h : Effect ol l ol' l') (hm : At ol m)
    (ho : m.owns = true) (hx : ¬ (l.owns = true ∧ m.owns = true)) :
    ol' = ol ∧ l'.owns = l.owns := by
  have hl := hm.locked ho
  cases h with
  | none h1 => exact ⟨rfl, h1⟩
  | take h1 =>
    rw [hl] at h1
    cases h1
  | drop h1 => exact absurd ⟨h1, ho⟩ hx
  | store h1 => exact absurd ⟨h1, ho⟩ hx
  | unlock h1 => exact absurd ⟨h1, ho⟩ hx

theorem At.of_step {next : Operation} {ol ol' : OptikT} {l l' : Thread} (h : At ol l)
    (hs : step next ol l = some (ol', l')) : At ol' l' := by
  obtain ⟨he, h1, h2⟩ := effect_of_step h hs
  refine ⟨h1, fun ho => ?_, h2⟩
  cases he with
  | none h3 => exact h.locked (h3 ▸ ho)
  | take => rfl
  | drop _ h3 =>
    rw [h3] at ho
    cases ho
  | store h3 => exact h.locked h3
  | unlock _ h3 =>
    rw [h3] at ho
    cases ho

theorem At.of_store {ol : OptikT} {l : Thread} (h : At ol l) {version : BitVec 32}
    (hpc : l.pc = .unlockStore version) : l.owns = true := by
  have hst := h.static
  rw [Static, hpc] at hst
  simp [Thread.owns, hst.2]

theorem At.of_free {ol : OptikT} {l : Thread} (h : At ol l) (hpc : l.pc = .unlockFree) :
    l.owns = true := by
  have hst := h.static
  rw [Static, hpc] at hst
  simp [Thread.owns, hst.2]

variable [DecidableEq T] {es es₁ es₂ : Run T} {c : Config T Unit OptikT Thread}

/-- The proof outline: the version counts the unlocks, `At` holds, and two
threads never both have the lock. -/
def outline : Outline (program T) Few (fun _ _ => False) where
  glob es ol := ol.version = BitVec.ofNat 32 (unlocks es)
  loc _ _ _ ol _ l := At ol l
  pair f g := ¬ (f.2.owns = true ∧ g.2.owns = true)
  pair_symm h := fun ⟨h1, h2⟩ => h ⟨h2, h1⟩
  init := rfl
  frame := by
    intro es s e th h he
    have hn : increments (e, (⟨s, th⟩ : Config T Unit OptikT Thread)) = false := by
      cases e with
      | tau t => exact absurd rfl (he t)
      | call => rfl
      | ret => rfl
    simpa [unlocks, hn] using h
  call t _ _ _ := ⟨trivial, nofun, nofun⟩
  call_pair := nofun
  tau := by
    intro es c t op l i s' l' _ _ _ hstep _ hv hat
    have hs : step i c.shared l = some (s', l') := hstep
    have he := (effect_of_step hat hs).1
    refine ⟨?_, hat.of_step hs, fun u op₁ m hu _ hm hx => ?_⟩
    · have hinc : increments (.tau t, (⟨s', Function.update c.threads t (some (op, l'))⟩ :
          Config T Unit OptikT Thread)) = decide (l'.pc = .unlockFree) := by
        simp [increments, after]
      have hun : unlocks ((.tau t, ⟨s', Function.update c.threads t (some (op, l'))⟩) :: es) =
          unlocks es + if l'.pc = .unlockFree then 1 else 0 := by
        simp [unlocks, List.countP_cons, hinc]
      rw [hun]
      cases he with
      | none _ h1 => rw [if_neg h1.2.1]; exact hv
      | take _ _ h1 => rw [if_neg h1.2.1]; exact hv
      | drop _ _ h1 => rw [if_neg h1.2.1]; exact hv
      | store _ _ _ h1 => rw [if_pos h1, BitVec.ofNat_add, ← hv]; rfl
      | unlock _ _ _ h1 => rw [if_neg (by rw [h1]; nofun)]; exact hv
    · by_cases ho : m.owns = true
      · obtain ⟨h1, h2⟩ := he.of_owns hm ho hx
        rw [h1]
        exact ⟨hm, fun ⟨h3, h4⟩ => hx ⟨h2 ▸ h3, h4⟩⟩
      · exact ⟨⟨hm.static, fun h => absurd h ho, fun v hv => absurd (hm.of_store hv) ho⟩,
          fun ⟨_, h⟩ => ho h⟩

/-! ### The version and the stores of `optik_unlock` -/

theorem few (hr : (program T).RunIf Few es c) : unlocks es < 2 ^ 32 := by
  cases hr with
  | init => simp [unlocks]
  | step _ _ h => exact h

theorem last_version (hr : (program T).RunIf Few es c) :
    ((program T).last es).version = BitVec.ofNat 32 (unlocks es) := by
  rw [hr.last_eq]
  exact (outline.holds hr).glob

/-- **Two moments with the same version: no increment in between.** -/
theorem version_eq_iff (hr : (program T).RunIf Few (es₂ ++ es₁) c) :
    ((program T).last (es₂ ++ es₁)).version = ((program T).last es₁).version ↔
      ∀ q ∈ es₂, increments q ≠ true := by
  obtain ⟨c₁, hr₁⟩ := hr.of_append
  have hlt := few hr
  have hsum : unlocks (es₂ ++ es₁) = unlocks es₂ + unlocks es₁ := List.countP_append
  rw [last_version hr, last_version hr₁, hsum]
  rw [hsum] at hlt
  have h0 : BitVec.ofNat 32 (unlocks es₂ + unlocks es₁) = BitVec.ofNat 32 (unlocks es₁) ↔
      unlocks es₂ = 0 := by
    constructor
    · intro he
      have := congrArg BitVec.toNat he
      simp only [BitVec.toNat_ofNat] at this
      omega
    · intro he
      rw [he, Nat.zero_add]
  rw [h0]
  exact List.countP_eq_zero

theorem unlocking_iff (hr : (program T).RunIf Few es c) {u : T} :
    Unlocking es u ↔ ∃ l, c.threads u = some ((), l) ∧ l.pc = .unlockFree := by
  cases hr with
  | init =>
    refine ⟨fun ⟨p, hp, _⟩ => by simp at hp, ?_⟩
    rintro ⟨l, hl, -⟩
    cases hl
  | step => simp [Unlocking]

/-- The two stores of an `optik_unlock`, one event. -/
theorem unlocking_cons {p : Event T Unit Empty × Config T Unit OptikT Thread} {u : T}
    (hr : (program T).RunIf Few (p :: es) c) :
    (increments p = true ∧ p.1.thread = u) ∨ Unlocking es u ↔
      (ends p = true ∧ p.1.thread = u) ∨ Unlocking (p :: es) u := by
  rw [unlocking_iff hr]
  cases hr with
  | @step _ c₀ e _ hr hst hfew =>
    rw [unlocking_iff hr]
    cases hst with
    | @call t op hidle =>
      have hne : ∀ l, c₀.threads u = some ((), l) → u ≠ t := by
        rintro l hl rfl
        rw [hidle] at hl
        cases hl
      simp only [increments, ends, after, Option.any_none, Bool.false_eq_true, false_and, false_or]
      constructor
      · rintro ⟨l, hl, hpc⟩
        exact ⟨l, by rw [Function.update_of_ne (hne l hl)]; exact hl, hpc⟩
      · rintro ⟨l, hl, hpc⟩
        rcases update_eq_some.mp hl with ⟨-, h⟩ | ⟨-, h⟩
        · cases h
          cases hpc
        · exact ⟨l, h, hpc⟩
    | ret _ hres => cases hres
    | @tau t op l s' l' i ht hres hstep =>
      have hat : At c₀.shared l := (outline.holds hr).loc t op l ht
      have he := (effect_of_step hat hstep).1
      by_cases hut : u = t
      · subst hut
        have hmem : ∀ {f : Thread → Bool}, (after ((.tau u : Event T Unit Empty), (⟨s', Function.update
            c₀.threads u (some (op, l'))⟩ : Config T Unit OptikT Thread))).any f = f l' := by
          intro f
          simp [after]
        simp only [increments, ends, hmem, Event.thread, and_true, ht, Function.update_self]
        have hpc : l'.pc = .unlockFree ∨ l.pc = .unlockFree ↔
            l'.pc = .unlocked ∨ l'.pc = .unlockFree := by
          cases he with
          | none _ h => simp [h.1, h.2.1, h.2.2]
          | take _ _ h => simp [h.1, h.2.1, h.2.2]
          | drop _ _ h => simp [h.1, h.2.1, h.2.2]
          | store _ _ h1 h2 => simp [h2]
          | unlock _ _ h1 h2 => simp [h1, h2]
        simpa using hpc
      · simp [Event.thread, Ne.symm hut, hut]

/-- **The stores of a thread in a part of a run**: it increments the version in
it, or was about to free the lock before, exactly if it frees the lock in it or
is about to do so at its end. -/
theorem unlocking_append {u : T} (hr : (program T).RunIf Few (es₂ ++ es₁) c) :
    (∃ q ∈ es₂, increments q = true ∧ q.1.thread = u) ∨ Unlocking es₁ u ↔
      (∃ q ∈ es₂, ends q = true ∧ q.1.thread = u) ∨ Unlocking (es₂ ++ es₁) u := by
  induction es₂ generalizing c with
  | nil => simp
  | cons p es₂ ih =>
    obtain ⟨c₀, hr₀⟩ := hr.of_cons
    have hp := unlocking_cons (u := u) hr
    rw [List.exists_mem_cons_iff, List.exists_mem_cons_iff, or_assoc, ih hr₀, or_left_comm]
    rw [← List.append_eq, hp, or_left_comm, ← or_assoc]
    rfl

/-- What the loop of a thread has read was the version at a time since when the
thread has not incremented it. -/
theorem read_earlier (hr : (program T).RunIf Few es c) {t : T} {l : Thread} {cur : OptikT}
    (hl : c.threads t = some ((), l)) (hpc : l.pc = .lockCas cur) :
    ∃ fs₂ fs₁, es = fs₂ ++ fs₁ ∧ ((program T).last fs₁).version = cur.version ∧
      ∀ q ∈ fs₂, increments q = true → q.1.thread ≠ t := by
  induction hr generalizing l with
  | init => cases hl
  | @step es c e c' hr hst hfew ih =>
    -- an event of another thread
    have hother : ∀ {l₀}, c.threads t = some ((), l₀) → l₀.pc = .lockCas cur → e.thread ≠ t →
        ∃ fs₂ fs₁, (e, c') :: es = fs₂ ++ fs₁ ∧ ((program T).last fs₁).version = cur.version ∧
          ∀ q ∈ fs₂, increments q = true → q.1.thread ≠ t := by
      intro l₀ hl₀ hpc₀ he
      obtain ⟨fs₂, fs₁, rfl, hv, hq⟩ := ih hl₀ hpc₀
      refine ⟨(e, c') :: fs₂, fs₁, rfl, hv, fun q hm => ?_⟩
      rcases List.mem_cons.mp hm with rfl | hm
      · exact fun _ => he
      · exact hq q hm
    cases hst with
    | @call u op hidle =>
      rcases update_eq_some.mp hl with ⟨-, h⟩ | ⟨hut, h⟩
      · cases h
        cases hpc
      · exact hother h hpc (Ne.symm hut)
    | ret _ hres => cases hres
    | @tau u op m s' m' i hm hres hstep =>
      rcases update_eq_some.mp hl with ⟨rfl, h⟩ | ⟨hut, h⟩
      · cases h
        exact ⟨[], _, rfl, cur_of_step hstep hpc, by simp⟩
      · exact hother h hpc (Ne.symm hut)

/-- A versioned operation that returns 1: the lock is free or the thread's own,
so that nobody else is about to free it. The version was the old one at a time
since when the thread has not incremented it, and with `optik_trylock_version`
it still is. -/
theorem of_takesVersion {p : Event T Unit Empty × Config T Unit OptikT Thread} {old : OptikT}
    (hr : (program T).RunIf Few (p :: es) c) (hp : takesVersion old p) :
    (∀ u, u ≠ p.1.thread → ¬ Unlocking es u) ∧
      ((∃ holds, after p = some ⟨.trylockVersion old, .acquired true, holds⟩) →
        ((program T).last es).version = old.version) ∧
      ∃ fs₂ fs₁, es = fs₂ ++ fs₁ ∧ ((program T).last fs₁).version = old.version ∧
        ∀ q ∈ fs₂, increments q = true → q.1.thread ≠ p.1.thread := by
  cases hr with
  | @step _ c₀ e c' hr hst hfew =>
    cases hst with
    | call => obtain ⟨b, h | h⟩ := hp <;> cases h
    | ret _ hres => cases hres
    | @tau t op l s' l' i hl hres hstep =>
      have hat : At c₀.shared l := (outline.holds hr).loc t op l hl
      have hafter : after (.tau t, ⟨s', Function.update c₀.threads t (some (op, l'))⟩) =
          some l' := by simp [after]
      have hlast : (program T).last es = c₀.shared := hr.last_eq
      -- the lock is not set, or the thread has set it
      have hnot : (c₀.shared.lock = 0 ∨ l.owns = true) → ∀ u, u ≠ t → ¬ Unlocking es u := by
        intro hlock u hut hu
        obtain ⟨m, hm, hpc⟩ := (unlocking_iff hr).mp hu
        have hmat : At c₀.shared m := (outline.holds hr).loc u () m hm
        have ho := hmat.of_free hpc
        rcases hlock with h | h
        · rw [hmat.locked ho] at h
          cases h
        · exact (outline.holds hr).pair u t _ _ hut hm hl ⟨ho, h⟩
      unfold takesVersion at hp
      rw [hafter] at hp ⊢
      obtain ⟨b, h | h⟩ := hp
      · cases h
        obtain ⟨ho, hv⟩ := (takes_of_step hat.static hstep rfl).1 rfl
        exact ⟨hnot (Or.inr ho), fun _ => by rw [hlast, hv], [], es, rfl, by rw [hlast, hv], nofun⟩
      · cases h
        obtain ⟨hlock, cur, hpc, hv⟩ := (takes_of_step hat.static hstep rfl).2 rfl
        obtain ⟨fs₂, fs₁, he, hcur, hq⟩ := read_earlier hr hl hpc
        refine ⟨hnot (Or.inl hlock), ?_, fs₂, fs₁, he, hcur.trans hv, hq⟩
        rintro ⟨b', h⟩
        cases h

/-- If no other thread has incremented the version since it was the old one,
nobody has. -/
theorem version_of_own {t : T} {old : BitVec 32} (hr : (program T).RunIf Few (es₂ ++ es₁) c)
    (hold : ((program T).last es₁).version = old)
    (hown : ∀ q ∈ es₂, increments q = true → q.1.thread = t)
    (hread : ∃ fs₂ fs₁, es₂ ++ es₁ = fs₂ ++ fs₁ ∧ ((program T).last fs₁).version = old ∧
      ∀ q ∈ fs₂, increments q = true → q.1.thread ≠ t) :
    ((program T).last (es₂ ++ es₁)).version = old := by
  obtain ⟨fs₂, fs₁, he, hv, hq⟩ := hread
  rw [← hold, version_eq_iff hr]
  rcases List.append_eq_append_iff.mp he with ⟨gs, rfl, rfl⟩ | ⟨gs, rfl, rfl⟩
  · -- the read comes before the earlier moment
    exact fun q hm hi => hq q (List.mem_append_left _ hm) hi (hown q hm hi)
  · rw [List.append_assoc] at hr
    obtain ⟨c₁, hr₁⟩ := hr.of_append
    have hgs := (version_eq_iff hr₁).mp (hv.trans hold.symm)
    intro q hm hi
    rcases List.mem_append.mp hm with h | h
    · exact hq q h hi (hown q hm hi)
    · exact hgs q h hi

/-- **The separate OPTIK lock.** A versioned operation returns 1 for a version
that was read earlier. No other thread has ended a critical section since then
exactly if the version is still the same when the lock is taken (or, with
`optik_trylock_version`, compared), and it was not read between the two stores of
an `optik_unlock`. `optik_trylock_version` finds the same version in every case. -/
theorem optik_separate (hr : (program T).RunIf Few es c) :
    ∀ p es₂ es₁ old, es = p :: (es₂ ++ es₁) → takesVersion old p →
      ((program T).last es₁).version = old.version →
      ((∀ q ∈ es₂, ends q = true → q.1.thread = p.1.thread) ↔
        ((program T).last (es₂ ++ es₁)).version = old.version ∧
          ∀ u, u ≠ p.1.thread → ¬ Unlocking es₁ u) ∧
      ((∀ q ∈ es₂, increments q = true → q.1.thread = p.1.thread) ↔
        ((program T).last (es₂ ++ es₁)).version = old.version) ∧
      ((∃ holds, after p = some ⟨.trylockVersion old, .acquired true, holds⟩) →
        ((program T).last (es₂ ++ es₁)).version = old.version) := by
  rintro p es₂ es₁ old rfl hp hold
  obtain ⟨hfree, htry, hread⟩ := of_takesVersion hr hp
  obtain ⟨c₀, hr₀⟩ := hr.of_cons
  have hinc : (∀ q ∈ es₂, increments q = true → q.1.thread = p.1.thread) ↔
      ((program T).last (es₂ ++ es₁)).version = old.version := by
    refine ⟨fun hown => version_of_own hr₀ hold hown hread, fun hv q hm hi => ?_⟩
    rw [← hold, version_eq_iff hr₀] at hv
    exact absurd hi (hv q hm)
  refine ⟨?_, hinc, htry⟩
  rw [← hinc]
  constructor
  · intro hends
    refine ⟨fun q hm hi => ?_, fun u hu hun => ?_⟩
    · by_contra hne
      rcases (unlocking_append hr₀).mp (Or.inl ⟨q, hm, hi, rfl⟩) with ⟨q', hm', he, ht⟩ | h
      · exact hne (ht ▸ hends q' hm' he)
      · exact hfree _ hne h
    · rcases (unlocking_append hr₀).mp (Or.inr hun) with ⟨q', hm', he, ht⟩ | h
      · exact hu (ht ▸ hends q' hm' he)
      · exact hfree u hu h
  · rintro ⟨hown, hun⟩ q hm he
    by_contra hne
    rcases (unlocking_append hr₀).mpr (Or.inl ⟨q, hm, he, rfl⟩) with ⟨q', hm', hi, ht⟩ | h
    · exact hne (ht ▸ hown q' hm' hi)
    · exact hun _ hne h

/-- `optik_trylock_version` takes a fresh lock with its first version. -/
theorem optik_separate_trylock : ∃ es c, (program (Fin 2)).RunIf Few es c ∧ optikIsLocked c.shared ∧
    ∀ p es₂, es = p :: es₂ → ∀ q ∈ es₂, ends q = true → q.1.thread = p.1.thread := by
  have h0 : (program (Fin 2)).RunIf Few [] _ := .init
  have h1 := h0.step (e := .call 0 ()) (.call rfl trivial) (by unfold Few; decide)
  have h2 := h1.step (.tau (.trylockVersion ⟨0, 0⟩) (t := 0) rfl rfl rfl) (by unfold Few; decide)
  have h3 := h2.step (.tau .unlock (t := 0) rfl rfl rfl) (by unfold Few; decide)
  have h4 := h3.step (.tau .unlock (t := 0) rfl rfl rfl) (by unfold Few; decide)
  have h5 := h4.step (.tau .unlock (t := 0) rfl rfl rfl) (by unfold Few; decide)
  have h6 := h5.step (.tau .unlock (t := 0) rfl rfl rfl) (by unfold Few; decide)
  refine ⟨_, _, h6, rfl, fun p es₂ he => ?_⟩
  cases he
  have h := optik_separate h6 _ _ [] ⟨0, 0⟩ (congrArg _ (List.append_nil _).symm)
    ⟨true, Or.inl rfl⟩ rfl
  exact h.1.mpr ⟨rfl, fun u _ ⟨_, h, _⟩ => by simp at h⟩

/-- **`optik_lock_version` returns 1 for a version that another thread has left
behind**: between the loop's read of the version 0 and the CAS that thread takes
the lock and unlocks it. -/
theorem lock_version_stale : ¬ ∀ es c, (program (Fin 2)).RunIf Few es c →
    ∀ p es₂ es₁ old, es = p :: (es₂ ++ es₁) → takesVersion old p →
      ((program (Fin 2)).last es₁).version = old.version →
      ∀ q ∈ es₂, ends q = true → q.1.thread = p.1.thread := by
  intro hclaim
  have h0 : (program (Fin 2)).RunIf Few [] _ := .init
  have h1 := h0.step (e := .call 0 ()) (.call rfl trivial) (by unfold Few; decide)
  have h2 := h1.step (e := .call 1 ()) (.call rfl trivial) (by unfold Few; decide)
  have h3 := h2.step (.tau (.lockVersion ⟨0, 0⟩) (t := 0) rfl rfl rfl) (by unfold Few; decide)
  have h4 := h3.step (.tau .lock (t := 0) rfl rfl rfl) (by unfold Few; decide)
  have h5 := h4.step (.tau .lock (t := 0) rfl rfl rfl) (by unfold Few; decide)
  have h6 := h5.step (.tau .trylock (t := 1) rfl rfl rfl) (by unfold Few; decide)
  have h7 := h6.step (.tau .lock (t := 1) rfl rfl rfl) (by unfold Few; decide)
  have h8 := h7.step (.tau .lock (t := 1) rfl rfl rfl) (by unfold Few; decide)
  have h9 := h8.step (.tau .lock (t := 1) rfl rfl rfl) (by unfold Few; decide)
  have h10 := h9.step (.tau .lock (t := 1) rfl rfl rfl) (by unfold Few; decide)
  have h11 := h10.step (.tau .unlock (t := 1) rfl rfl rfl) (by unfold Few; decide)
  have h12 := h11.step (.tau .lock (t := 1) rfl rfl rfl) (by unfold Few; decide)
  have h13 := h12.step (.tau .lock (t := 1) rfl rfl rfl) (by unfold Few; decide)
  have h14 := h13.step (.tau .lock (t := 1) rfl rfl rfl) (by unfold Few; decide)
  have h15 := h14.step (.tau .lock (t := 0) rfl rfl rfl) (by unfold Few; decide)
  have h := hclaim _ _ h15 _ _ [] ⟨0, 0⟩ (congrArg _ (List.append_nil _).symm) ⟨true, Or.inr rfl⟩
    rfl _ (.head _) rfl
  exact absurd h (by decide)

end OptikSeparate

end Ascylib
