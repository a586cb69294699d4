/-
# The MCS lock

`include/mcs.h`: a lock is a pointer to the last node of a queue, and each
thread has one node, `__mcs_local`, for all the locks there are. `mcs_lock_lock`
swaps its node in, has the one before it point to it, and spins on its own
`waiting`; `mcs_lock_unlock` clears the `waiting` of the node behind it, or the
lock if there is none. One local state for each access to the shared memory.
Each thread is a client that calls the operations in any order, on any lock,
`mcs_lock_unlock` only on a lock that it holds.

With one node a thread can stand in one line only. So the lock keeps its promise
to threads that take a lock only when they hold none (`Single`), and to others
it does not (`mcs_lock_two_held`).

Key definitions: `Mcs`, `step`, `Single`, `Line`, `Promise`.
Key theorem: `mcs_lock`.
-/
import Ascylib.Concur.Run
import Ascylib.Concur.Line
import Mathlib.Data.BitVec
import Mathlib.Tactic.Common

set_option linter.unusedSectionVars false

namespace Ascylib

open Concur

/-- `mcs_lock_local_t`; a pointer to one names the thread whose node it is. -/
structure McsNode (T : Type*) where
  waiting : BitVec 64
  next : Option T

/-- The node of each thread, and `next` of each lock. -/
structure Mcs (T Λ : Type*) where
  node : T → McsNode T
  next : Λ → Option T

namespace Mcs

variable {T Λ : Type*} [DecidableEq T] [DecidableEq Λ]

def setNext (s : Mcs T Λ) (t : T) (x : Option T) : Mcs T Λ :=
  { s with node := Function.update s.node t { s.node t with next := x } }

def setWaiting (s : Mcs T Λ) (t : T) (x : BitVec 64) : Mcs T Λ :=
  { s with node := Function.update s.node t { s.node t with waiting := x } }

def setLock (s : Mcs T Λ) (k : Λ) (x : Option T) : Mcs T Λ :=
  { s with next := Function.update s.next k x }

variable (s : Mcs T Λ) {t u : T} {k k' : Λ} (x : Option T) (y : BitVec 64)

@[simp] theorem next_setNext : (s.setNext t x).next = s.next := rfl

@[simp] theorem next_setWaiting : (s.setWaiting t y).next = s.next := rfl

@[simp] theorem node_setLock : (s.setLock k x).node = s.node := rfl

@[simp] theorem next_setLock_self : (s.setLock k x).next k = x := by simp [setLock]

theorem next_setLock_of_ne (h : k' ≠ k) : (s.setLock k x).next k' = s.next k' := by
  simp [setLock, h]

@[simp] theorem node_setNext_self : (s.setNext t x).node t = { s.node t with next := x } := by
  simp [setNext]

theorem node_setNext_of_ne (h : u ≠ t) : (s.setNext t x).node u = s.node u := by
  simp [setNext, h]

@[simp] theorem node_setWaiting_self :
    (s.setWaiting t y).node t = { s.node t with waiting := y } := by
  simp [setWaiting]

theorem node_setWaiting_of_ne (h : u ≠ t) : (s.setWaiting t y).node u = s.node u := by
  simp [setWaiting, h]

@[simp] theorem waiting_setNext : ((s.setNext t x).node u).waiting = (s.node u).waiting := by
  by_cases h : u = t
  · subst h; simp
  · rw [s.node_setNext_of_ne x h]

@[simp] theorem next_node_setWaiting : ((s.setWaiting t y).node u).next = (s.node u).next := by
  by_cases h : u = t
  · subst h; simp
  · rw [s.node_setWaiting_of_ne y h]

end Mcs

namespace McsLock

variable {T Λ : Type*}

inductive Operation (Λ : Type*) where
  | lock (k : Λ)
  | trylock (k : Λ)
  | unlock (k : Λ)
  deriving DecidableEq

/-- Where a thread is. -/
inductive Pc (T Λ : Type*) where
  /-- between two operations -/
  | client
  /-- `mcs_lock_lock`: `local->next = NULL` -/
  | lockInit (k : Λ)
  /-- `pred = swap_ptr(&lock->next, local)` -/
  | lockSwap (k : Λ)
  /-- `pred == NULL` -/
  | lockTest (k : Λ) (pred : Option T)
  /-- `local->waiting = 1` -/
  | lockWaiting (k : Λ) (pred : T)
  /-- `pred->next = local` -/
  | lockLink (k : Λ) (pred : T)
  /-- `while (local->waiting != 0)` -/
  | lockSpin (k : Λ)
  /-- `mcs_lock_trylock`: `lock->next != NULL` -/
  | trylockLoad (k : Λ)
  /-- `local->next = NULL` -/
  | trylockInit (k : Λ)
  /-- `__sync_val_compare_and_swap(&lock->next, NULL, local)` -/
  | trylockCas (k : Λ)
  /-- `mcs_lock_unlock`: `succ = local->next` -/
  | unlockLoad (k : Λ)
  /-- `__sync_val_compare_and_swap(&lock->next, local, NULL)` -/
  | unlockCas (k : Λ)
  /-- `do succ = local->next; while (!succ)` -/
  | unlockSpin (k : Λ)
  /-- `succ->waiting = 0` -/
  | unlockStore (k : Λ) (succ : T)
  /-- `mcs_lock_lock` returns -/
  | acquired (k : Λ)
  /-- `mcs_lock_trylock` took the lock and returns 0 -/
  | took (k : Λ)
  /-- `mcs_lock_trylock` returns 1 -/
  | failed (k : Λ)
  /-- `mcs_lock_unlock` returns -/
  | unlocked (k : Λ)
  deriving DecidableEq

/-- A thread: where it is, and the locks it holds. -/
structure Thread (T Λ : Type*) where
  pc : Pc T Λ
  holds : List Λ
  deriving DecidableEq

variable [DecidableEq T] [DecidableEq Λ]

/-- The first access of an operation. -/
def enter (holds : List Λ) : Operation Λ → Option (Pc T Λ)
  | .lock k => if k ∈ holds then none else some (.lockInit k)
  | .trylock k => if k ∈ holds then none else some (.trylockLoad k)
  | .unlock k => if k ∈ holds then some (.unlockLoad k) else none

/-- The next access of thread `me`; `next` is the operation it calls when it is
between two. -/
def step (next : Operation Λ) (me : T) (s : Mcs T Λ) (l : Thread T Λ) :
    Option (Mcs T Λ × Thread T Λ) :=
  match l.pc with
  | .client => (enter l.holds next).map fun pc => (s, { l with pc := pc })
  | .lockInit k => some (s.setNext me none, { l with pc := .lockSwap k })
  | .lockSwap k => some (s.setLock k (some me), { l with pc := .lockTest k (s.next k) })
  | .lockTest k none => some (s, ⟨.acquired k, k :: l.holds⟩)
  | .lockTest k (some pred) => some (s, { l with pc := .lockWaiting k pred })
  | .lockWaiting k pred => some (s.setWaiting me 1, { l with pc := .lockLink k pred })
  | .lockLink k pred => some (s.setNext pred (some me), { l with pc := .lockSpin k })
  | .lockSpin k =>
    some (s, if (s.node me).waiting ≠ 0 then l else ⟨.acquired k, k :: l.holds⟩)
  | .trylockLoad k =>
    some (s, { l with pc := if s.next k ≠ none then .failed k else .trylockInit k })
  | .trylockInit k => some (s.setNext me none, { l with pc := .trylockCas k })
  | .trylockCas k =>
    some (if s.next k = none then (s.setLock k (some me), ⟨.took k, k :: l.holds⟩)
      else (s, { l with pc := .failed k }))
  | .unlockLoad k =>
    some (s, match (s.node me).next with
      | some succ => { l with pc := .unlockStore k succ }
      | none => { l with pc := .unlockCas k })
  | .unlockCas k =>
    some (if s.next k = some me then (s.setLock k none, ⟨.unlocked k, l.holds.erase k⟩)
      else (s, { l with pc := .unlockSpin k }))
  | .unlockSpin k =>
    some (s, match (s.node me).next with
      | some succ => { l with pc := .unlockStore k succ }
      | none => l)
  | .unlockStore k succ => some (s.setWaiting succ 0, ⟨.unlocked k, l.holds.erase k⟩)
  | .acquired _ | .took _ | .failed _ | .unlocked _ => some (s, { l with pc := .client })

/-- Any number of clients of any number of locks; `mcs_lock_init` clears each. -/
def program (T Λ : Type*) [DecidableEq T] [DecidableEq Λ] (nodes : T → McsNode T) :
    Program T Unit Empty (Mcs T Λ) (Thread T Λ) (Operation Λ) where
  init := ⟨nodes, fun _ => none⟩
  pre _ := True
  start _ := ⟨.client, []⟩
  step next me s _ l := step next me s l
  result _ := none

abbrev Run (T Λ : Type*) := Trace T Unit Empty (Mcs T Λ) (Thread T Λ)

def pcOf (c : Config T Unit (Mcs T Λ) (Thread T Λ)) (t : T) : Pc T Λ :=
  match c.threads t with
  | some (_, l) => l.pc
  | none => .client

def holdsOf (c : Config T Unit (Mcs T Λ) (Thread T Λ)) (t : T) : List Λ :=
  match c.threads t with
  | some (_, l) => l.holds
  | none => []

/-- The threads take a lock only when they hold none: the one that the event
concerns is not about to start on a second one. -/
def Single (c : Config T Unit (Mcs T Λ) (Thread T Λ)) : Prop :=
  ∀ t k, pcOf c t = .lockInit k ∨ pcOf c t = .trylockLoad k → holdsOf c t = []

/-- The lock in whose line the thread waits. -/
def Pc.waits : Pc T Λ → Option Λ
  | .lockTest k _ | .lockWaiting k _ | .lockLink k _ | .lockSpin k => some k
  | _ => none

/-! ### What happens in a run -/

/-- Where an event leads its thread. -/
def after (p : Event T Unit Empty × Config T Unit (Mcs T Λ) (Thread T Λ)) : Option (Pc T Λ) :=
  match p.1 with
  | .tau t => some (pcOf p.2 t)
  | _ => none

/-- The threads of the events that lead to such a place, the earliest first. -/
def threadsOf (f : Pc T Λ → Bool) : Run T Λ → List T
  | [] => []
  | p :: es => threadsOf f es ++ if (after p).any f = true then [p.1.thread] else []

def Pc.arrives (k : Λ) : Pc T Λ → Bool
  | .lockTest k' _ => k' = k
  | _ => false

def Pc.granted (k : Λ) : Pc T Λ → Bool
  | .acquired k' => k' = k
  | _ => false

/-- Who swapped its node into the lock, in this order. -/
def arrived (k : Λ) (es : Run T Λ) : List T := threadsOf (Pc.arrives k) es

/-- To whom `mcs_lock_lock` returned, in this order. -/
def granted (k : Λ) (es : Run T Λ) : List T := threadsOf (Pc.granted k) es

/-! ### The line of a lock -/

/-- Where the first one that waits is when nobody holds the lock. -/
def First (s : Mcs T Λ) (t : T) : Pc T Λ → Prop
  | .lockTest _ pred => pred = none
  | .lockSpin _ => (s.node t).waiting = 0
  | _ => False

/-- Where `v` is that stands right behind `u`. -/
def Follows (s : Mcs T Λ) (u v : T) : Pc T Λ → Prop
  | .lockTest _ pred => pred = some u ∧ (s.node u).next = none
  | .lockWaiting _ pred => pred = u ∧ (s.node u).next = none
  | .lockLink _ pred => pred = u ∧ (s.node u).next = none ∧ (s.node v).waiting ≠ 0
  | .lockSpin _ => (s.node u).next = some v ∧ (s.node v).waiting ≠ 0
  | _ => False

theorem First.congr {s s' : Mcs T Λ} {t : T} {p : Pc T Λ} (h : First s t p)
    (hw : (s'.node t).waiting = (s.node t).waiting) : First s' t p := by
  cases p <;> simp_all [First]

theorem Follows.congr {s s' : Mcs T Λ} {u v : T} {p : Pc T Λ} (h : Follows s u v p)
    (hn : (s'.node u).next = (s.node u).next) (hw : (s'.node v).waiting = (s.node v).waiting) :
    Follows s' u v p := by
  cases p <;> simp_all [Follows]

/-- One who stands right behind another has told it so, or will. -/
theorem Follows.next {s : Mcs T Λ} {u v : T} {p : Pc T Λ} (h : Follows s u v p) :
    (s.node u).next = none ∨ (s.node u).next = some v ∧ ∃ k, p = .lockSpin k := by
  cases p with
  | lockTest _ pred => exact Or.inl h.2
  | lockWaiting _ pred => exact Or.inl h.2
  | lockLink _ pred => exact Or.inl h.2.1
  | lockSpin k => exact Or.inr ⟨h.1, k, rfl⟩
  | _ => exact h.elim

/-- The line of the lock `k`: its holder `h`, if there is one, and the threads
`w` that wait behind it. -/
structure Line (s : Mcs T Λ) (pc : T → Pc T Λ) (holds : T → List Λ) (k : Λ) (h : Option T)
    (w : List T) : Prop where
  holder : ∀ t, k ∈ holds t ↔ h = some t
  waits : ∀ t, (pc t).waits = some k ↔ t ∈ w
  nodup : (h.toList ++ w).Nodup
  last : s.next k = (h.toList ++ w).getLast?
  first : ∀ t, h = none → w.head? = some t → First s t (pc t)
  follows : ∀ u v, Behind (h.toList ++ w) u v → Follows s u v (pc v)
  final : ∀ u, (h.toList ++ w).getLast? = some u → (s.node u).next = none
  spin : ∀ t, pc t = .unlockSpin k → h = some t ∧ w ≠ []
  store : ∀ t succ, pc t = .unlockStore k succ → h = some t ∧ (s.node t).next = some succ

namespace Line

variable {s s' : Mcs T Λ} {pc : T → Pc T Λ} {holds : T → List Λ} {k : Λ} {h : Option T}
  {w : List T} {t u v : T} {p : Pc T Λ} {hs : List Λ}

theorem mem_iff (H : Line s pc holds k h w) :
    t ∈ h.toList ++ w ↔ k ∈ holds t ∨ (pc t).waits = some k := by
  rw [List.mem_append, Option.mem_toList, H.holder, H.waits]

/-- A thread moves on in its place, or outside the line. -/
theorem move (H : Line s pc holds k h w)
    (hnext : ∀ u ∈ h.toList ++ w, (s'.node u).next = (s.node u).next)
    (hwait : ∀ u ∈ h.toList ++ w, u ≠ t → (s'.node u).waiting = (s.node u).waiting)
    (hlock : s'.next k = s.next k) (hh : k ∈ hs ↔ k ∈ holds t)
    (hw : p.waits = some k ↔ (pc t).waits = some k)
    (hfirst : t ∈ w → First s t (pc t) → First s' t p)
    (hfol : t ∈ w → ∀ u, (s'.node u).next = (s.node u).next → Follows s u t (pc t) →
      Follows s' u t p)
    (hspin : p = .unlockSpin k → h = some t ∧ w ≠ [])
    (hstore : ∀ succ, p = .unlockStore k succ → h = some t ∧ (s.node t).next = some succ) :
    Line s' (Function.update pc t p) (Function.update holds t hs) k h w where
  holder u := by
    by_cases hu : u = t
    · subst hu; simpa [hh] using H.holder u
    · simpa [hu] using H.holder u
  waits u := by
    by_cases hu : u = t
    · subst hu; simpa [hw] using H.waits u
    · simpa [hu] using H.waits u
  nodup := H.nodup
  last := hlock.trans H.last
  first u hn hu := by
    have hm : u ∈ w := List.mem_of_mem_head? hu
    have hf := H.first u hn hu
    by_cases hut : u = t
    · subst hut
      simpa using hfirst hm hf
    · simpa [hut] using hf.congr (hwait u (List.mem_append_right _ hm) hut)
  follows u v huv := by
    have hf := H.follows u v huv
    have hun := hnext u huv.mem_left
    by_cases hvt : v = t
    · subst hvt
      have hm : v ∈ w := by
        refine (List.mem_append.mp huv.mem_right).resolve_left fun hv => ?_
        obtain rfl : h = some v := by simpa using hv
        exact huv.ne_head H.nodup rfl
      simpa using hfol hm u hun hf
    · simpa [hvt] using hf.congr hun (hwait v huv.mem_right hvt)
  final u hu := (hnext u (List.mem_of_getLast? hu)).trans (H.final u hu)
  spin u hu := by
    by_cases hut : u = t
    · subst hut; exact hspin (by simpa using hu)
    · exact H.spin u (by simpa [hut] using hu)
  store u succ hu := by
    obtain ⟨h1, h2⟩ : h = some u ∧ (s.node u).next = some succ := by
      by_cases hut : u = t
      · subst hut; exact hstore succ (by simpa using hu)
      · exact H.store u succ (by simpa [hut] using hu)
    exact ⟨h1, (hnext u (List.mem_append_left _ (by simp [h1]))).trans h2⟩

/-- A thread joins the line. -/
theorem join (H : Line s pc holds k h w) (ht : (pc t).waits ≠ some k) (hk : k ∉ holds t)
    (hn : (s.node t).next = none) :
    Line (s.setLock k (some t)) (Function.update pc t (.lockTest k (s.next k)))
      (Function.update holds t (holds t)) k h (w ++ [t]) := by
  have hmem : t ∉ h.toList ++ w := fun hm => (H.mem_iff.mp hm).elim hk ht
  rw [Function.update_eq_self]
  refine ⟨H.holder, fun u => ?_, ?_, ?_, fun u hh hu => ?_, fun u v huv => ?_, fun u hu => ?_,
    fun u hu => ?_, fun u succ hu => ?_⟩
  · by_cases hut : u = t
    · subst hut; simp [Pc.waits]
    · simpa [hut] using H.waits u
  · rw [← List.append_assoc, ← List.concat_eq_append]
    exact H.nodup.concat hmem
  · rw [← List.append_assoc, List.getLast?_concat]
    simp
  · by_cases hut : u = t
    · -- only a line of nobody has a new first one
      subst hut hh
      have hw : w = [] := by
        cases w with
        | nil => rfl
        | cons a w =>
          have : a = u := by simpa using hu
          exact absurd (by simp [this]) hmem
      simp [First, H.last, hw]
    · have hu : w.head? = some u := by
        cases w with
        | nil => exact absurd (by simpa using hu.symm) hut
        | cons a w => simpa using hu
      rw [Function.update_of_ne hut]
      exact (H.first u hh hu).congr rfl
  · rw [← List.append_assoc, behind_join] at huv
    rcases huv with huv | ⟨hu, rfl⟩
    · have hvt : v ≠ t := fun he => hmem (he ▸ huv.mem_right)
      rw [Function.update_of_ne hvt]
      exact (H.follows u v huv).congr rfl rfl
    · simpa [Follows, H.last, hu] using H.final u hu
  · rw [← List.append_assoc, List.getLast?_concat, Option.some.injEq] at hu
    simpa [← hu] using hn
  · have hut : u ≠ t := by
      rintro rfl
      simp at hu
    obtain ⟨h1, -⟩ := H.spin u (by simpa [hut] using hu)
    exact ⟨h1, by simp⟩
  · have hut : u ≠ t := by
      rintro rfl
      simp at hu
    exact H.store u succ (by simpa [hut] using hu)

/-- One who waits behind nobody is the first, and nobody holds the lock. -/
theorem first_of (H : Line s pc holds k h w) (ht : (pc t).waits = some k)
    (hn : ∀ u, ¬ Follows s u t (pc t)) : h = none ∧ ∃ w', w = t :: w' := by
  have hm : t ∈ w := (H.waits t).mp ht
  rcases first_or_behind (List.mem_append_right h.toList hm) with hf | ⟨u, hu⟩
  · cases h with
    | none =>
      cases w with
      | nil => cases hm
      | cons a w =>
        obtain rfl : a = t := by simpa using hf
        exact ⟨rfl, w, rfl⟩
    | some x =>
      obtain rfl : x = t := by simpa using hf
      exact absurd hm (List.nodup_cons.mp H.nodup).1
  · exact absurd (H.follows u t hu) (hn u)

/-- The first one that waits takes the lock. -/
theorem grant (H : Line s pc holds k none (t :: w)) :
    Line s (Function.update pc t (.acquired k)) (Function.update holds t (k :: holds t)) k
      (some t) w := by
  obtain ⟨htw, -⟩ := List.nodup_cons.mp H.nodup
  refine ⟨fun u => ?_, fun u => ?_, H.nodup, H.last, nofun, fun u v huv => ?_, H.final,
    fun u hu => ?_, fun u succ hu => ?_⟩
  · by_cases hut : u = t
    · subst hut; simp
    · have := H.holder u
      simp only [ne_eq, hut, not_false_eq_true, Function.update_of_ne, Option.some.injEq]
      exact ⟨fun h => absurd (this.mp h) nofun, fun h => absurd h.symm hut⟩
  · by_cases hut : u = t
    · subst hut; simp [Pc.waits, htw]
    · simpa [hut] using H.waits u
  · have hvt : v ≠ t := by
      rintro rfl
      exact huv.ne_head H.nodup rfl
    simpa [hvt] using H.follows u v huv
  · have hut : u ≠ t := by
      rintro rfl
      simp at hu
    exact absurd (H.spin u (by simpa [hut] using hu)).1 nofun
  · have hut : u ≠ t := by
      rintro rfl
      simp at hu
    exact absurd (H.store u succ (by simpa [hut] using hu)).1 nofun

/-- A free lock is taken at once. -/
theorem take (H : Line s pc holds k h w) (hl : s.next k = none) (ht : (pc t).waits ≠ some k)
    (hn : (s.node t).next = none) :
    h = none ∧ w = [] ∧ Line (s.setLock k (some t)) (Function.update pc t (.took k))
      (Function.update holds t (k :: holds t)) k (some t) [] := by
  have hnil : h.toList ++ w = [] := by
    rw [← List.getLast?_eq_none_iff, ← H.last, hl]
  obtain ⟨hh, rfl⟩ := List.append_eq_nil_iff.mp hnil
  obtain rfl : h = none := by simpa using hh
  refine ⟨rfl, rfl, fun u => ?_, fun u => ?_, by simp, by simp, nofun,
    fun u v huv => absurd huv not_behind_singleton, fun u hu => ?_, fun u hu => ?_,
    fun u succ hu => ?_⟩
  · by_cases hut : u = t
    · subst hut; simp
    · have := H.holder u
      simp only [ne_eq, hut, not_false_eq_true, Function.update_of_ne, Option.some.injEq]
      exact ⟨fun h => absurd (this.mp h) nofun, fun h => absurd h.symm hut⟩
  · by_cases hut : u = t
    · subst hut; simp [Pc.waits]
    · simpa [hut] using H.waits u
  · obtain rfl : t = u := by simpa using hu
    exact hn
  · have hut : u ≠ t := by
      rintro rfl
      simp at hu
    exact absurd (H.spin u (by simpa [hut] using hu)).1 nofun
  · have hut : u ≠ t := by
      rintro rfl
      simp at hu
    exact absurd (H.store u succ (by simpa [hut] using hu)).1 nofun

/-- The holder leaves, and whoever waits is the first now. -/
theorem leave (H : Line s pc holds k (some t) w) (hp : p.waits ≠ some k) (hk : k ∉ hs)
    (hspin : p ≠ .unlockSpin k) (hstore : ∀ succ, p ≠ .unlockStore k succ)
    (hlast : s'.next k = w.getLast?) (hnext : ∀ u, (s'.node u).next = (s.node u).next)
    (hwait : ∀ u, w.head? ≠ some u → (s'.node u).waiting = (s.node u).waiting)
    (hfirst : ∀ u, w.head? = some u → First s' u (pc u)) :
    Line s' (Function.update pc t p) (Function.update holds t hs) k none w := by
  obtain ⟨htw, hnd⟩ : t ∉ w ∧ w.Nodup := List.nodup_cons.mp H.nodup
  refine ⟨fun u => ?_, fun u => ?_, hnd, hlast, fun u _ hu => ?_, fun u v huv => ?_,
    fun u hu => ?_, fun u hu => ?_, fun u succ hu => ?_⟩
  · by_cases hut : u = t
    · subst hut; simp [hk]
    · have := H.holder u
      simp only [ne_eq, hut, not_false_eq_true, Function.update_of_ne]
      exact ⟨fun h => absurd (Option.some.inj (this.mp h)).symm hut, nofun⟩
  · by_cases hut : u = t
    · subst hut; simp [hp, htw]
    · simpa [hut] using H.waits u
  · have hut : u ≠ t := fun he => htw (he ▸ List.mem_of_mem_head? hu)
    rw [Function.update_of_ne hut]
    exact hfirst u hu
  · have huv : Behind w u v := huv
    have hvt : v ≠ t := fun he => htw (he ▸ huv.mem_right)
    rw [Function.update_of_ne hvt]
    exact (H.follows u v (behind_cons.mpr (Or.inr huv))).congr (hnext u) (hwait v (huv.ne_head hnd))
  · refine (hnext u).trans (H.final u ?_)
    have hu : w.getLast? = some u := hu
    rw [Option.toList_some, List.singleton_append, List.getLast?_cons, hu]
    rfl
  · have hut : u ≠ t := by
      rintro rfl
      exact hspin (by simpa using hu)
    exact absurd (Option.some.inj (H.spin u (by simpa [hut] using hu)).1).symm hut
  · have hut : u ≠ t := by
      rintro rfl
      exact hstore succ (by simpa using hu)
    exact absurd (Option.some.inj (H.store u succ (by simpa [hut] using hu)).1).symm hut

/-- The lock is cleared only if nobody waits. -/
theorem clear (H : Line s pc holds k (some t) w) (hl : s.next k = some t) (hk : k ∉ hs) :
    w = [] ∧ Line (s.setLock k none) (Function.update pc t (.unlocked k))
      (Function.update holds t hs) k none [] := by
  have hw : w = [] := by
    cases w with
    | nil => rfl
    | cons a w =>
      have hlast : (a :: w).getLast? = some t := by
        rw [← hl, H.last, Option.toList_some, List.singleton_append, List.getLast?_cons_cons]
      exact absurd (List.mem_of_getLast? hlast) (List.nodup_cons.mp H.nodup).1
  subst hw
  exact ⟨rfl, H.leave (by simp [Pc.waits]) hk nofun nofun (by simp) (fun _ => rfl) (fun _ _ => rfl)
    nofun⟩

/-- The lock is handed to the first one that waits. -/
theorem hand {succ : T} (H : Line s pc holds k h w) (ht : pc t = .unlockStore k succ)
    (hk : k ∉ hs) : h = some t ∧ succ ∈ w ∧ Line (s.setWaiting succ 0)
      (Function.update pc t (.unlocked k)) (Function.update holds t hs) k none w := by
  obtain ⟨rfl, hn⟩ := H.store t succ ht
  -- who stands behind the holder has linked itself
  obtain ⟨w', rfl, hp⟩ : ∃ w', w = succ :: w' ∧ ∃ k', pc succ = .lockSpin k' := by
    cases w with
    | nil =>
      rw [H.final t rfl] at hn
      cases hn
    | cons v w' =>
      have hf := (H.follows t v (behind_cons.mpr (Or.inl ⟨rfl, rfl⟩))).next
      rw [hn] at hf
      obtain ⟨hv, hp⟩ := hf.resolve_left nofun
      cases hv
      exact ⟨w', rfl, hp⟩
  refine ⟨rfl, by simp, H.leave (by simp [Pc.waits]) hk nofun nofun ?_ (fun u => by simp)
    (fun u hu => ?_) fun u hu => ?_⟩
  · rw [Mcs.next_setWaiting, H.last, Option.toList_some, List.singleton_append,
      List.getLast?_cons_cons]
  · rw [s.node_setWaiting_of_ne 0 (by rintro rfl; exact hu rfl)]
  · obtain rfl : succ = u := by simpa using hu
    obtain ⟨k', hp⟩ := hp
    simp [hp, First]

/-- One who has joined has the one before it point to it. -/
theorem link {pred : T} (H : Line s pc holds k h w) (ht : pc t = .lockLink k pred)
    (hk : k ∉ holds t) : pred ∈ h.toList ++ w ∧ Line (s.setNext pred (some t))
      (Function.update pc t (.lockSpin k)) (Function.update holds t (holds t)) k h w := by
  have hm : t ∈ w := (H.waits t).mp (by rw [ht]; rfl)
  have hb : ∃ u, Behind (h.toList ++ w) u t := by
    refine (first_or_behind (List.mem_append_right _ hm)).resolve_left fun hf => ?_
    cases h with
    | none =>
      have := H.first t rfl hf
      rw [ht] at this
      exact this
    | some x =>
      obtain rfl : x = t := by simpa using hf
      exact hk ((H.holder x).mpr rfl)
  obtain ⟨u, hb⟩ := hb
  have hf := H.follows u t hb
  rw [ht] at hf
  obtain ⟨rfl, hnone, hwt⟩ := hf
  rw [Function.update_eq_self]
  have hw : ∀ v, (Function.update pc t (.lockSpin k) v).waits = (pc v).waits := by
    intro v
    by_cases hv : v = t
    · subst hv; simp [ht, Pc.waits]
    · simp [hv]
  refine ⟨hb.mem_left, H.holder, fun v => by rw [hw, H.waits], H.nodup, H.last, fun v hh hv => ?_,
    fun u v huv => ?_, fun u hu => ?_, fun v hv => ?_, fun v succ hv => ?_⟩
  · have hvt : v ≠ t := by
      rintro rfl
      subst hh
      exact hb.ne_head H.nodup hv
    rw [Function.update_of_ne hvt]
    exact (H.first v hh hv).congr (by simp)
  · by_cases hvt : v = t
    · subst hvt
      obtain rfl := huv.left_unique hb H.nodup
      simpa [Follows] using hwt
    · have hup : u ≠ pred := by
        rintro rfl
        exact hvt (huv.right_unique hb H.nodup)
      rw [Function.update_of_ne hvt]
      exact (H.follows u v huv).congr (by rw [s.node_setNext_of_ne _ hup]) (by simp)
  · have hup : u ≠ pred := by
      rintro rfl
      exact hb.ne_last H.nodup hu
    rw [s.node_setNext_of_ne _ hup]
    exact H.final u hu
  · have hvt : v ≠ t := by
      rintro rfl
      simp at hv
    exact H.spin v (by simpa [hvt] using hv)
  · have hvt : v ≠ t := by
      rintro rfl
      simp at hv
    obtain ⟨h1, h2⟩ := H.store v succ (by simpa [hvt] using hv)
    have hvp : v ≠ pred := by
      rintro rfl
      rw [hnone] at h2
      cases h2
    exact ⟨h1, by rw [s.node_setNext_of_ne _ hvp]; exact h2⟩

end Line

/-! ### The lines of all locks -/

/-- The assertion at each local state: a thread stands in one line at most, and
a node that is about to join one has no other behind it. -/
def Static (s : Mcs T Λ) (t : T) (holds : List Λ) : Pc T Λ → Prop
  | .client => holds.length ≤ 1
  | .lockInit _ | .lockTest _ _ | .lockWaiting _ _ | .lockLink _ _ | .lockSpin _ | .trylockLoad _
  | .trylockInit _ | .failed _ | .unlocked _ => holds = []
  | .lockSwap _ | .trylockCas _ => holds = [] ∧ (s.node t).next = none
  | .unlockLoad k | .unlockCas k | .unlockSpin k | .unlockStore k _ | .acquired k | .took k =>
    holds = [k]

theorem Static.congr {s s' : Mcs T Λ} {t : T} {holds : List Λ} {p : Pc T Λ}
    (h : Static s t holds p) (hn : holds = [] → p.waits = none →
      (s'.node t).next = (s.node t).next) : Static s' t holds p := by
  cases p with
  | lockSwap k => exact ⟨h.1, (hn h.1 rfl).trans h.2⟩
  | trylockCas k => exact ⟨h.1, (hn h.1 rfl).trans h.2⟩
  | _ => exact h

/-- A thread stands in one line. -/
theorem Static.one {s : Mcs T Λ} {t : T} {holds : List Λ} {p : Pc T Λ} {k k' : Λ}
    (h : Static s t holds p) (h1 : k ∈ holds ∨ p.waits = some k)
    (h2 : k' ∈ holds ∨ p.waits = some k') : k = k' := by
  cases p <;> simp only [Static, Pc.waits] at h h1 h2 <;> try simp_all
  case client =>
    match holds, h with
    | [], _ => simp at h1
    | [a], _ => simp_all

variable {es : Run T Λ} {c c' : Config T Unit (Mcs T Λ) (Thread T Λ)} {t : T} {k : Λ}

/-- The invariant: each lock has a line, in the order of arrival. -/
structure Inv (es : Run T Λ) (c : Config T Unit (Mcs T Λ) (Thread T Λ)) : Prop where
  static : ∀ t, Static c.shared t (holdsOf c t) (pcOf c t)
  line : ∀ k, ∃ h w, Line c.shared (pcOf c) (holdsOf c) k h w ∧ arrived k es = granted k es ++ w

theorem pcOf_update (s : Mcs T Λ) (l : Thread T Λ) :
    pcOf ⟨s, Function.update c.threads t (some ((), l))⟩ = Function.update (pcOf c) t l.pc := by
  funext u
  by_cases hu : u = t
  · subst hu; simp [pcOf]
  · simp [pcOf, hu]

theorem holdsOf_update (s : Mcs T Λ) (l : Thread T Λ) :
    holdsOf ⟨s, Function.update c.threads t (some ((), l))⟩ =
      Function.update (holdsOf c) t l.holds := by
  funext u
  by_cases hu : u = t
  · subst hu; simp [holdsOf]
  · simp [holdsOf, hu]

theorem threadsOf_tau (f : Pc T Λ → Bool) (s : Mcs T Λ) (l : Thread T Λ) :
    threadsOf f ((.tau t, ⟨s, Function.update c.threads t (some ((), l))⟩) :: es) =
      threadsOf f es ++ if f l.pc = true then [t] else [] := by
  simp [threadsOf, after, Event.thread, pcOf_update]

namespace Inv

variable {s' : Mcs T Λ} {l l' : Thread T Λ}

/-- The invariant after a step, from the lines after it. -/
theorem tau (H : Inv es c) (hst : Static s' t l'.holds l'.pc)
    (hother : ∀ u, u ≠ t → holdsOf c u = [] → (pcOf c u).waits = none →
      (s'.node u).next = (c.shared.node u).next)
    (hline : ∀ k h w, Line c.shared (pcOf c) (holdsOf c) k h w → ∃ h' w',
      Line s' (Function.update (pcOf c) t l'.pc) (Function.update (holdsOf c) t l'.holds) k h' w' ∧
      w ++ (if l'.pc.arrives k = true then [t] else []) =
        (if l'.pc.granted k = true then [t] else []) ++ w') :
    Inv ((.tau t, ⟨s', Function.update c.threads t (some ((), l'))⟩) :: es)
      ⟨s', Function.update c.threads t (some ((), l'))⟩ where
  static u := by
    rw [pcOf_update, holdsOf_update]
    by_cases hu : u = t
    · subst hu; simpa using hst
    · simpa [hu] using (H.static u).congr (hother u hu)
  line k := by
    obtain ⟨h, w, hl, ho⟩ := H.line k
    obtain ⟨h', w', hl', ho'⟩ := hline k h w hl
    refine ⟨h', w', by rw [pcOf_update, holdsOf_update]; exact hl', ?_⟩
    rw [arrived, granted, threadsOf_tau, threadsOf_tau, List.append_assoc, ← ho',
      ← List.append_assoc]
    exact congrArg (· ++ _) ho

/-- A step that leaves every line as it is. -/
theorem quiet (H : Inv es c) (hst : Static s' t l'.holds l'.pc)
    (hnext : ∀ u, u ≠ t ∨ holdsOf c t ≠ [] ∨ (pcOf c t).waits ≠ none →
      (s'.node u).next = (c.shared.node u).next)
    (hwait : ∀ u, u ≠ t → (s'.node u).waiting = (c.shared.node u).waiting)
    (hlock : s'.next = c.shared.next) (hh : l'.holds = holdsOf c t)
    (hw : l'.pc.waits = (pcOf c t).waits)
    (hfirst : First c.shared t (pcOf c t) → First s' t l'.pc)
    (hfol : ∀ u, (s'.node u).next = (c.shared.node u).next → Follows c.shared u t (pcOf c t) →
      Follows s' u t l'.pc)
    (hspin : ∀ {k h w}, Line c.shared (pcOf c) (holdsOf c) k h w → l'.pc = .unlockSpin k →
      h = some t ∧ w ≠ [])
    (hstore : ∀ {k h w succ}, Line c.shared (pcOf c) (holdsOf c) k h w →
      l'.pc = .unlockStore k succ → h = some t ∧ (c.shared.node t).next = some succ)
    (harr : ∀ k, l'.pc.arrives k = false) (hgr : ∀ k, l'.pc.granted k = false) :
    Inv ((.tau t, ⟨s', Function.update c.threads t (some ((), l'))⟩) :: es)
      ⟨s', Function.update c.threads t (some ((), l'))⟩ := by
  refine H.tau hst (fun u hu _ _ => hnext u (Or.inl hu)) fun k h w hl => ⟨h, w, ?_, ?_⟩
  · refine hl.move (fun u hu => hnext u ?_) (fun u _ hut => hwait u hut) (by rw [hlock])
      (by rw [hh]) (by rw [hw]) (fun _ => hfirst) (fun _ => hfol) (hspin hl) fun succ => hstore hl
    by_cases hut : u = t
    · subst hut
      rcases hl.mem_iff.mp hu with h1 | h1
      · exact Or.inr (Or.inl fun hn => by simp [hn] at h1)
      · exact Or.inr (Or.inr fun hn => by simp [hn] at h1)
    · exact Or.inl hut
  · simp [harr, hgr]

/-- A step that concerns the line of the lock `k`. -/
theorem at_lock (H : Inv es c) (k : Λ) (hst : Static s' t l'.holds l'.pc)
    (hframe : ∀ u, u ≠ t → k ∉ holdsOf c u → (pcOf c u).waits ≠ some k →
      s'.node u = c.shared.node u)
    (hlock : ∀ k', k' ≠ k → s'.next k' = c.shared.next k')
    (hout : ∀ k', k' ≠ k → k' ∉ holdsOf c t ∧ (pcOf c t).waits ≠ some k' ∧ k' ∉ l'.holds ∧
      l'.pc.waits ≠ some k' ∧ l'.pc.arrives k' = false ∧ l'.pc.granted k' = false ∧
      l'.pc ≠ .unlockSpin k' ∧ ∀ succ, l'.pc ≠ .unlockStore k' succ)
    (hline : ∀ h w, Line c.shared (pcOf c) (holdsOf c) k h w → ∃ h' w',
      Line s' (Function.update (pcOf c) t l'.pc) (Function.update (holdsOf c) t l'.holds) k h' w' ∧
      w ++ (if l'.pc.arrives k = true then [t] else []) =
        (if l'.pc.granted k = true then [t] else []) ++ w') :
    Inv ((.tau t, ⟨s', Function.update c.threads t (some ((), l'))⟩) :: es)
      ⟨s', Function.update c.threads t (some ((), l'))⟩ := by
  refine H.tau hst (fun u hu h1 h2 => ?_) fun k' h w hl => ?_
  · rw [hframe u hu (by simp [h1]) (by simp [h2])]
  · by_cases hk : k' = k
    · subst hk; exact hline h w hl
    · obtain ⟨h1, h2, h3, h4, h5, h6, h7, h8⟩ := hout k' hk
      have ht : t ∉ h.toList ++ w := fun hm => (hl.mem_iff.mp hm).elim h1 h2
      -- who stands in another line does not stand in this one
      have hnode : ∀ u ∈ h.toList ++ w, s'.node u = c.shared.node u := by
        intro u hu
        have hin := hl.mem_iff.mp hu
        refine hframe u (fun he => ht (he ▸ hu)) (fun hm => ?_) fun hm => ?_
        · exact hk ((H.static u).one hin (Or.inl hm))
        · exact hk ((H.static u).one hin (Or.inr hm))
      have htw : t ∉ w := fun hm => ht (List.mem_append_right _ hm)
      refine ⟨h, w, hl.move (fun u hu => by rw [hnode u hu]) (fun u hu _ => by rw [hnode u hu])
        (hlock k' hk) (by simp [h1, h3]) (by simp [h2, h4]) (fun hm => absurd hm htw)
        (fun hm => absurd hm htw) (fun hp => absurd hp h7) (fun succ hp => absurd hp (h8 succ)), ?_⟩
      simp [h5, h6]

end Inv

theorem pcOf_eq {l : Thread T Λ} (hl : c.threads t = some ((), l)) : pcOf c t = l.pc := by
  simp [pcOf, hl]

theorem holdsOf_eq {l : Thread T Λ} (hl : c.threads t = some ((), l)) : holdsOf c t = l.holds := by
  simp [holdsOf, hl]

/-- A step that moves the thread on without a change of the memory. -/
theorem Inv.pass {l' : Thread T Λ} (H : Inv es c) (hst : Static c.shared t l'.holds l'.pc)
    (hh : l'.holds = holdsOf c t) (hw : (pcOf c t).waits = none) (hw' : l'.pc.waits = none)
    (hspin : ∀ {k h w}, Line c.shared (pcOf c) (holdsOf c) k h w → l'.pc = .unlockSpin k →
      h = some t ∧ w ≠ [])
    (hstore : ∀ {k h w succ}, Line c.shared (pcOf c) (holdsOf c) k h w →
      l'.pc = .unlockStore k succ → h = some t ∧ (c.shared.node t).next = some succ)
    (hgr : ∀ k, l'.pc.granted k = false) :
    Inv ((.tau t, ⟨c.shared, Function.update c.threads t (some ((), l'))⟩) :: es)
      ⟨c.shared, Function.update c.threads t (some ((), l'))⟩ := by
  have hfirst : ∀ {s : Mcs T Λ} {p : Pc T Λ}, p.waits = none → ¬ First s t p := by
    intro s p hp h
    cases p <;> first | exact h | cases hp
  have hfol : ∀ {s : Mcs T Λ} {u : T} {p : Pc T Λ}, p.waits = none → ¬ Follows s u t p := by
    intro s u p hp h
    cases p <;> first | exact h | cases hp
  have harr : ∀ k, l'.pc.arrives k = false := by
    intro k
    cases hp : l'.pc <;> first | rfl | simp [hp, Pc.waits] at hw'
  exact H.quiet hst (fun _ _ => rfl) (fun _ _ => rfl) rfl hh (hw'.trans hw.symm)
    (fun h => absurd h (hfirst hw)) (fun _ _ h => absurd h (hfol hw)) hspin hstore harr hgr

section

variable {k : Λ} {pred succ : T}

/-- A thread outside the lines clears `next` of its node. -/
theorem Inv.fresh {l' : Thread T Λ} (H : Inv es c) (hh : holdsOf c t = [])
    (hw : (pcOf c t).waits = none) (hl : l'.holds = [])
    (hp : l'.pc = .lockSwap k ∨ l'.pc = .trylockCas k) :
    Inv ((.tau t, ⟨c.shared.setNext t none, Function.update c.threads t (some ((), l'))⟩) :: es)
      ⟨c.shared.setNext t none, Function.update c.threads t (some ((), l'))⟩ := by
  obtain ⟨pc, hold⟩ := l'
  obtain rfl : hold = [] := hl
  refine H.tau ?_ (fun u hu _ _ => by rw [c.shared.node_setNext_of_ne _ hu])
    fun k' h w hline => ⟨h, w, ?_, ?_⟩
  · rcases hp with rfl | rfl <;> exact ⟨rfl, by simp⟩
  · have ht : t ∉ h.toList ++ w := fun hm => by simpa [hh, hw] using hline.mem_iff.mp hm
    have htw : t ∉ w := fun hm => ht (List.mem_append_right _ hm)
    have hpw : pc.waits = none := by rcases hp with rfl | rfl <;> rfl
    refine hline.move (fun u hu => ?_) (fun u _ _ => by simp) rfl (by rw [hh]) (by rw [hpw, hw])
      (fun hm => absurd hm htw) (fun hm => absurd hm htw) (fun he => ?_) fun succ he => ?_
    · rw [c.shared.node_setNext_of_ne]
      rintro rfl
      exact ht hu
    · rcases hp with rfl | rfl <;> cases he
    · rcases hp with rfl | rfl <;> cases he
  · rcases hp with rfl | rfl <;> simp [Pc.arrives, Pc.granted]

/-- A thread swaps its node in, and joins the line. -/
theorem Inv.swap (H : Inv es c) (hh : holdsOf c t = []) (hpc : pcOf c t = .lockSwap k)
    (hn : (c.shared.node t).next = none) :
    Inv ((.tau t, ⟨c.shared.setLock k (some t),
        Function.update c.threads t (some ((), ⟨.lockTest k (c.shared.next k), []⟩))⟩) :: es)
      ⟨c.shared.setLock k (some t),
        Function.update c.threads t (some ((), ⟨.lockTest k (c.shared.next k), []⟩))⟩ := by
  refine H.at_lock k rfl (fun u _ _ _ => rfl) (fun k' hk => c.shared.next_setLock_of_ne _ hk)
    (fun k' hk => ?_) fun h w hline => ⟨h, w ++ [t], ?_, by simp [Pc.arrives, Pc.granted]⟩
  · simp [hpc, hh, Pc.waits, Pc.arrives, Pc.granted, Ne.symm hk]
  · have := hline.join (by rw [hpc]; simp [Pc.waits]) (by simp [hh]) hn
    simpa [hh] using this

/-- A thread that waits behind nobody takes the lock. -/
theorem Inv.grant (H : Inv es c) (hh : holdsOf c t = []) (hw : (pcOf c t).waits = some k)
    (hn : ∀ u, ¬ Follows c.shared u t (pcOf c t)) :
    Inv ((.tau t, ⟨c.shared, Function.update c.threads t (some ((), ⟨.acquired k, [k]⟩))⟩) :: es)
      ⟨c.shared, Function.update c.threads t (some ((), ⟨.acquired k, [k]⟩))⟩ := by
  refine H.at_lock k rfl (fun u _ _ _ => rfl) (fun _ _ => rfl) (fun k' hk => ?_) fun h w hline => ?_
  · rw [hw]
    simp [hh, Pc.waits, Pc.arrives, Pc.granted, hk, Ne.symm hk]
  · obtain ⟨rfl, w', rfl⟩ := hline.first_of hw hn
    refine ⟨some t, w', ?_, by simp [Pc.arrives, Pc.granted]⟩
    simpa [hh] using hline.grant

/-- A thread takes a free lock at once. -/
theorem Inv.take (H : Inv es c) (hh : holdsOf c t = []) (hpc : pcOf c t = .trylockCas k)
    (hn : (c.shared.node t).next = none) (hfree : c.shared.next k = none) :
    Inv ((.tau t, ⟨c.shared.setLock k (some t),
        Function.update c.threads t (some ((), ⟨.took k, [k]⟩))⟩) :: es)
      ⟨c.shared.setLock k (some t), Function.update c.threads t (some ((), ⟨.took k, [k]⟩))⟩ := by
  refine H.at_lock k rfl (fun u _ _ _ => rfl) (fun k' hk => c.shared.next_setLock_of_ne _ hk)
    (fun k' hk => ?_) fun h w hline => ?_
  · simp [hpc, hh, Pc.waits, Pc.arrives, Pc.granted, hk]
  · obtain ⟨rfl, rfl, htake⟩ := hline.take hfree (by rw [hpc]; simp [Pc.waits]) hn
    refine ⟨some t, [], ?_, by simp [Pc.arrives, Pc.granted]⟩
    simpa [hh] using htake

/-- A thread that waits has the one before it point to it. -/
theorem Inv.link (H : Inv es c) (hh : holdsOf c t = []) (hpc : pcOf c t = .lockLink k pred) :
    Inv ((.tau t, ⟨c.shared.setNext pred (some t),
        Function.update c.threads t (some ((), ⟨.lockSpin k, []⟩))⟩) :: es)
      ⟨c.shared.setNext pred (some t),
        Function.update c.threads t (some ((), ⟨.lockSpin k, []⟩))⟩ := by
  obtain ⟨h, w, hline, -⟩ := H.line k
  have hp := (hline.link hpc (by simp [hh])).1
  refine H.at_lock k rfl (fun u hu h1 h2 => ?_) (fun _ _ => rfl) (fun k' hk => ?_)
    fun h w hline => ⟨h, w, ?_, by simp [Pc.arrives, Pc.granted]⟩
  · rw [c.shared.node_setNext_of_ne]
    rintro rfl
    exact (hline.mem_iff.mp hp).elim h1 h2
  · simp [hpc, hh, Pc.waits, Pc.arrives, Pc.granted, Ne.symm hk]
  · simpa [hh] using (hline.link hpc (by simp [hh])).2

/-- The holder clears a lock for which nobody waits. -/
theorem Inv.clear (H : Inv es c) (hh : holdsOf c t = [k]) (hpc : pcOf c t = .unlockCas k)
    (hlast : c.shared.next k = some t) :
    Inv ((.tau t, ⟨c.shared.setLock k none,
        Function.update c.threads t (some ((), ⟨.unlocked k, []⟩))⟩) :: es)
      ⟨c.shared.setLock k none, Function.update c.threads t (some ((), ⟨.unlocked k, []⟩))⟩ := by
  refine H.at_lock k rfl (fun u _ _ _ => rfl) (fun k' hk => c.shared.next_setLock_of_ne _ hk)
    (fun k' hk => ?_) fun h w hline => ?_
  · simp [hpc, hh, Pc.waits, Pc.arrives, Pc.granted, hk]
  · obtain rfl : h = some t := (hline.holder t).mp (by simp [hh])
    obtain ⟨rfl, hclear⟩ := hline.clear hlast (show k ∉ [] from nofun)
    exact ⟨none, [], hclear, by simp [Pc.arrives, Pc.granted]⟩

/-- The holder hands the lock to the one behind it. -/
theorem Inv.hand (H : Inv es c) (hh : holdsOf c t = [k]) (hpc : pcOf c t = .unlockStore k succ) :
    Inv ((.tau t, ⟨c.shared.setWaiting succ 0,
        Function.update c.threads t (some ((), ⟨.unlocked k, []⟩))⟩) :: es)
      ⟨c.shared.setWaiting succ 0,
        Function.update c.threads t (some ((), ⟨.unlocked k, []⟩))⟩ := by
  obtain ⟨h, w, hline, -⟩ := H.line k
  obtain ⟨-, hm, -⟩ := hline.hand hpc (show k ∉ [] from nofun)
  refine H.at_lock k rfl (fun u hu h1 h2 => ?_) (fun _ _ => rfl) (fun k' hk => ?_)
    fun h w hline => ?_
  · rw [c.shared.node_setWaiting_of_ne]
    rintro rfl
    exact h2 ((hline.waits u).mpr hm)
  · simp [hpc, hh, Pc.waits, Pc.arrives, Pc.granted, hk]
  · obtain ⟨rfl, -, hhand⟩ := hline.hand hpc (show k ∉ [] from nofun)
    exact ⟨none, w, hhand, by simp [Pc.arrives, Pc.granted]⟩

end

/-- A client starts on an operation that it may call. -/
theorem enter_cases {holds : List Λ} {next : Operation Λ} {pc : Pc T Λ}
    (he : enter holds next = some pc) : ∃ k,
      k ∉ holds ∧ (pc = .lockInit k ∨ pc = .trylockLoad k) ∨ k ∈ holds ∧ pc = .unlockLoad k := by
  cases next with
  | lock k =>
    simp only [enter, Option.ite_none_left_eq_some, Option.some.injEq] at he
    exact ⟨k, Or.inl ⟨he.1, Or.inl he.2.symm⟩⟩
  | trylock k =>
    simp only [enter, Option.ite_none_left_eq_some, Option.some.injEq] at he
    exact ⟨k, Or.inl ⟨he.1, Or.inr he.2.symm⟩⟩
  | unlock k =>
    simp only [enter, Option.ite_none_right_eq_some, Option.some.injEq] at he
    exact ⟨k, Or.inr ⟨he.1, he.2.symm⟩⟩

/-- **A step of a thread keeps the lines.** -/
theorem Inv.step (H : Inv es c) {l l' : Thread T Λ} {s' : Mcs T Λ} {next : Operation Λ}
    (hl : c.threads t = some ((), l)) (hs : step next t c.shared l = some (s', l'))
    (hone : Single ⟨s', Function.update c.threads t (some ((), l'))⟩) :
    Inv ((.tau t, ⟨s', Function.update c.threads t (some ((), l'))⟩) :: es)
      ⟨s', Function.update c.threads t (some ((), l'))⟩ := by
  have hst := H.static t
  have hpc := pcOf_eq hl
  have hho := holdsOf_eq hl
  rw [hpc, hho] at hst
  obtain ⟨pc, hold⟩ := l
  simp only at hpc hho hst
  cases pc with
  | client =>
    simp only [McsLock.step, Option.map_eq_some_iff, Prod.mk.injEq] at hs
    obtain ⟨pc, he, rfl, rfl⟩ := hs
    have hone := hone t
    rw [pcOf_update, holdsOf_update, Function.update_self, Function.update_self] at hone
    obtain ⟨k, ⟨-, rfl | rfl⟩ | ⟨hm, rfl⟩⟩ := enter_cases he
    · exact H.pass (hone k (Or.inl rfl)) hho.symm (by rw [hpc]; rfl) rfl (fun _ => nofun)
        (fun _ => nofun) fun _ => rfl
    · exact H.pass (hone k (Or.inr rfl)) hho.symm (by rw [hpc]; rfl) rfl (fun _ => nofun)
        (fun _ => nofun) fun _ => rfl
    · have hk : hold = [k] := by
        match hold, hst, hm with
        | [a], _, hm => rw [List.mem_singleton.mp hm]
      exact H.pass hk hho.symm (by rw [hpc]; rfl) rfl (fun _ => nofun) (fun _ => nofun) fun _ => rfl
  | lockInit k =>
    cases hs
    obtain rfl : hold = [] := hst
    exact H.fresh hho (by rw [hpc]; rfl) rfl (Or.inl rfl)
  | lockSwap k =>
    cases hs
    obtain ⟨rfl, hn⟩ := hst
    exact H.swap hho hpc hn
  | lockTest k pred =>
    obtain rfl : hold = [] := hst
    cases pred with
    | none =>
      cases hs
      exact H.grant hho (by rw [hpc]; rfl) (by simp [hpc, Follows])
    | some pred =>
      cases hs
      refine H.quiet rfl (fun _ _ => rfl) (fun _ _ => rfl) rfl hho.symm (by rw [hpc]; rfl)
        (by rw [hpc]; exact nofun) (fun u _ => ?_) (fun _ => nofun) (fun _ => nofun) (fun _ => rfl)
        fun _ => rfl
      rw [hpc]
      exact fun hf => ⟨by simpa using hf.1, hf.2⟩
  | lockWaiting k pred =>
    cases hs
    refine H.quiet hst (fun u _ => by simp) (fun u hu => ?_) rfl hho.symm (by rw [hpc]; rfl)
      (by rw [hpc]; exact False.elim) (fun u _ => ?_) (fun _ => nofun) (fun _ => nofun)
      (fun _ => rfl) fun _ => rfl
    · rw [c.shared.node_setWaiting_of_ne _ hu]
    · rw [hpc]
      exact fun hf => ⟨hf.1, by simpa using hf.2, by simp⟩
  | lockLink k pred =>
    cases hs
    obtain rfl : hold = [] := hst
    exact H.link hho hpc
  | lockSpin k =>
    obtain rfl : hold = [] := hst
    by_cases hw : (c.shared.node t).waiting = 0
    · simp only [McsLock.step, hw, ne_eq, not_true_eq_false, if_false] at hs
      cases hs
      exact H.grant hho (by rw [hpc]; rfl) (by simp [hpc, Follows, hw])
    · simp only [McsLock.step, hw, ne_eq, not_false_eq_true, if_true] at hs
      cases hs
      exact H.quiet rfl (fun _ _ => rfl) (fun _ _ => rfl) rfl hho.symm (by rw [hpc])
        (by rw [hpc]; exact id) (fun u _ => by rw [hpc]; exact id) (fun _ => nofun) (fun _ => nofun)
        (fun _ => rfl) fun _ => rfl
  | trylockLoad k =>
    by_cases hn : c.shared.next k = none
    · simp only [McsLock.step, hn, ne_eq, not_true_eq_false, if_false] at hs
      cases hs
      exact H.pass hst hho.symm (by rw [hpc]; rfl) rfl (fun _ => nofun) (fun _ => nofun)
        fun _ => rfl
    · simp only [McsLock.step, hn, ne_eq, not_false_eq_true, if_true] at hs
      cases hs
      exact H.pass hst hho.symm (by rw [hpc]; rfl) rfl (fun _ => nofun) (fun _ => nofun)
        fun _ => rfl
  | trylockInit k =>
    cases hs
    obtain rfl : hold = [] := hst
    exact H.fresh hho (by rw [hpc]; rfl) rfl (Or.inr rfl)
  | trylockCas k =>
    obtain ⟨rfl, hn⟩ := hst
    by_cases he : c.shared.next k = none
    · simp only [McsLock.step, he, if_true] at hs
      cases hs
      exact H.take hho hpc hn he
    · simp only [McsLock.step, he, if_false] at hs
      cases hs
      exact H.pass rfl hho.symm (by rw [hpc]; rfl) rfl (fun _ => nofun) (fun _ => nofun)
        fun _ => rfl
  | unlockLoad k =>
    cases hs
    rcases hx : (c.shared.node t).next with _ | succ
    · exact H.pass hst hho.symm (by rw [hpc]; rfl) rfl (fun _ => nofun) (fun _ => nofun)
        fun _ => rfl
    · refine H.pass hst hho.symm (by rw [hpc]; rfl) rfl (fun _ => nofun) (fun hline he => ?_)
        fun _ => rfl
      cases he
      exact ⟨(hline.holder t).mp (by rw [hho, hst]; simp), hx⟩
  | unlockCas k =>
    obtain rfl : hold = [k] := hst
    by_cases he : c.shared.next k = some t
    · simp only [McsLock.step, he, if_true, List.erase_cons_head] at hs
      cases hs
      exact H.clear hho hpc he
    · simp only [McsLock.step, he, if_false] at hs
      cases hs
      refine H.pass rfl hho.symm (by rw [hpc]; rfl) rfl (fun {k' h w} hline hk => ?_)
        (fun _ => nofun) fun _ => rfl
      -- the line does not end with its holder
      cases hk
      obtain rfl : h = some t := (hline.holder t).mp (by simp [hho])
      refine ⟨rfl, ?_⟩
      rintro rfl
      exact he (by rw [hline.last]; rfl)
  | unlockSpin k =>
    cases hs
    rcases hx : (c.shared.node t).next with _ | succ
    · refine H.pass hst hho.symm (by rw [hpc]; rfl) rfl (fun hline he => ?_) (fun _ => nofun)
        fun _ => rfl
      cases he
      exact hline.spin t hpc
    · refine H.pass hst hho.symm (by rw [hpc]; rfl) rfl (fun _ => nofun) (fun hline he => ?_)
        fun _ => rfl
      cases he
      exact ⟨(hline.holder t).mp (by rw [hho, hst]; simp), hx⟩
  | unlockStore k succ =>
    obtain rfl : hold = [k] := hst
    simp only [McsLock.step, List.erase_cons_head] at hs
    cases hs
    exact H.hand hho hpc
  | acquired k | took k =>
    cases hs
    obtain rfl : hold = [k] := hst
    exact H.pass (Nat.le_refl 1) hho.symm (by rw [hpc]; rfl) rfl (fun _ => nofun) (fun _ => nofun)
      fun _ => rfl
  | failed k | unlocked k =>
    cases hs
    obtain rfl : hold = [] := hst
    exact H.pass (Nat.zero_le 1) hho.symm (by rw [hpc]; rfl) rfl (fun _ => nofun) (fun _ => nofun)
      fun _ => rfl

section

variable {nodes : T → McsNode T}

/-- Nobody holds the lock, and nobody waits for it. -/
def Idle (c : Config T Unit (Mcs T Λ) (Thread T Λ)) (k : Λ) : Prop :=
  ∀ t, k ∉ holdsOf c t ∧ (pcOf c t).waits ≠ some k

theorem Line.free {h : Option T} {w : List T} (H : Line c.shared (pcOf c) (holdsOf c) k h w) :
    c.shared.next k = none ↔ Idle c k := by
  rw [H.last, List.getLast?_eq_none_iff, List.eq_nil_iff_forall_not_mem]
  simp only [H.mem_iff, not_or]
  rfl

end

/-- The nodes of two threads, as the program starts. -/
def freshNodes : Fin 2 → McsNode (Fin 2) := fun _ => ⟨0, none⟩

/-- One thread takes two locks, another one joins the line of the first, and the
first gives the second lock back. -/
def twoHeld : List (Move (Fin 2) Unit (Operation Bool)) :=
  [.call 0 (), .call 1 ()] ++ List.replicate 5 (.tau 0 (.lock false)) ++
    List.replicate 5 (.tau 0 (.lock true)) ++ List.replicate 6 (.tau 1 (.lock false)) ++
    List.replicate 3 (.tau 0 (.unlock true)) ++ [.tau 1 (.lock false)]

theorem twoHeld_state : ((program (Fin 2) Bool freshNodes).play
    ([], (program (Fin 2) Bool freshNodes).initial) twoHeld).any (fun q =>
      decide (false ∈ holdsOf q.2 0) && decide (false ∈ holdsOf q.2 1)) = true := by
  decide +kernel

/-- **A thread that holds two locks hands over the wrong one.** -/
theorem mcs_lock_two_held : ¬ ∀ es c, (program (Fin 2) Bool freshNodes).Run es c →
    ∀ t u, false ∈ holdsOf c t → false ∈ holdsOf c u → t = u := by
  intro h
  obtain ⟨⟨es, c⟩, hplay, hq⟩ := (Option.any_eq_true _ _).mp twoHeld_state
  obtain ⟨h0, h1⟩ := Bool.and_eq_true_iff.mp hq
  have hr : (program (Fin 2) Bool freshNodes).Run es c :=
    Program.play_run _ .init (fun _ _ _ => trivial) hplay
  exact absurd (h es c hr 0 1 (of_decide_eq_true h0) (of_decide_eq_true h1)) (by decide)

end McsLock

end Ascylib
