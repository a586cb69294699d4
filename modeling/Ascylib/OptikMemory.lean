/-
# Nodes with an OPTIK word each

A node's word protects some of its fields (`data`): they change only while the
word is odd. Then a thread that reads an even word and after it the data knows
the data again when it takes the lock with that version (`Version.data_eq`),
because half of the word counts the critical sections that have ended and never
goes back.

That argument needs words that do not wrap: `Bounded` ties each word to the
number of times it was acquired in the run.

Key definitions: `OptikView.Versioned`, `OptikView.Touch`.
Key theorems: `Versioned.step`, `Version.data_eq`, `Bounded.step`.
-/
import Ascylib.Memory
import Ascylib.Optik
import Ascylib.Concur.Run

set_option linter.unusedSectionVars false

namespace Ascylib

open Concur

/-- The OPTIK word of a node, and what it protects. -/
structure OptikView (N β : Type*) where
  lock : N → OptikT
  data : N → β

namespace OptikView

variable {T N β : Type*} [DecidableEq T] (O : OptikView N β)

abbrev word (s : Memory T N) (x : Ptr T) : OptikT := O.lock (s.mem x)

/-- Whenever as many critical sections had ended as now, the data was as it
is now. -/
def Clean (S : Set (Memory T N)) (s : Memory T N) (x : Ptr T) : Prop :=
  ∀ s₀ ∈ S, s₀.Allocated x → sections (O.word s₀ x) = sections (O.word s x) →
    O.data (s₀.mem x) = O.data (s.mem x)

/-- A run through the memories `S` has kept to the words. -/
structure Versioned (S : Set (Memory T N)) (s : Memory T N) : Prop where
  mem : s ∈ S
  count : ∀ s₀ ∈ S, ∀ t, s₀.count t ≤ s.count t
  mono : ∀ s₀ ∈ S, ∀ x, s₀.Allocated x → sections (O.word s₀ x) ≤ sections (O.word s x)
  clean : ∀ x, optikIsLocked (O.word s x) = false → O.Clean S s x

/-- What one step may do to a node: the data changes only while the lock is
held. -/
inductive Touch (S : Set (Memory T N)) (s s' : Memory T N) (x : Ptr T) : Prop
  | keep : O.word s' x = O.word s x → O.data (s'.mem x) = O.data (s.mem x) → Touch S s s' x
  | take : optikIsLocked (O.word s x) = false → O.word s' x = O.word s x + 1 →
      O.data (s'.mem x) = O.data (s.mem x) → Touch S s s' x
  | delete : optikIsLocked (O.word s x) = false → O.word s' x = optikDeleted → Touch S s s' x
  | revert : optikIsLocked (O.word s x) = true → O.word s x ≠ optikDeleted → O.Clean S s x →
      O.word s' x = O.word s x - 1 → O.data (s'.mem x) = O.data (s.mem x) → Touch S s s' x
  | unlock : optikIsLocked (O.word s x) = true → O.word s x ≠ optikDeleted →
      O.word s' x = O.word s x + 1 → Touch S s s' x
  | write : optikIsLocked (O.word s x) = true → O.word s' x = O.word s x → Touch S s s' x

variable {O} {S : Set (Memory T N)} {s s' : Memory T N} {x : Ptr T}

theorem touch_of_mem (h : s'.mem x = s.mem x) : O.Touch S s s' x :=
  .keep (by rw [word, h]) (by rw [h])

theorem Touch.sections_le (h : O.Touch S s s' x) : sections (O.word s x) ≤ sections (O.word s' x) := by
  cases h with
  | keep h1 => rw [h1]
  | take hu h1 => rw [h1, sections_lock hu]
  | delete _ h1 => rw [h1]; exact sections_le_deleted _
  | revert hl _ _ h1 => rw [h1, sections_revert hl]
  | unlock hl hd h1 => rw [h1, sections_unlock hl hd]; exact Nat.le_succ _
  | write _ h1 => rw [h1]

theorem Clean.keep (h : O.Clean S s x) (h1 : sections (O.word s' x) = sections (O.word s x))
    (h2 : O.data (s'.mem x) = O.data (s.mem x)) : O.Clean (insert s' S) s' x := by
  intro s₀ h0 ha he
  rcases Set.mem_insert_iff.mp h0 with rfl | h0
  · rfl
  · rw [h2]
    exact h s₀ h0 ha (he.trans h1)

/-- **A step that touches each node in one of these ways keeps the run
versioned.** -/
theorem Versioned.step (h : O.Versioned S s) (hc : ∀ t, s.count t ≤ s'.count t)
    (ht : ∀ x, s.Allocated x → O.Touch S s s' x) : O.Versioned (insert s' S) s' := by
  refine ⟨Set.mem_insert _ _, fun s₀ h0 t => ?_, fun s₀ h0 x ha => ?_, fun x hu s₀ h0 ha he => ?_⟩
  · rcases Set.mem_insert_iff.mp h0 with rfl | h0
    · exact le_rfl
    · exact (h.count s₀ h0 t).trans (hc t)
  · rcases Set.mem_insert_iff.mp h0 with rfl | h0
    · exact le_rfl
    · exact (h.mono s₀ h0 x ha).trans (ht x (ha.mono (h.count s₀ h0))).sections_le
  · rcases Set.mem_insert_iff.mp h0 with rfl | h0
    · rfl
    · have hmono := h.mono s₀ h0 x ha
      cases ht x (ha.mono (h.count s₀ h0)) with
      | keep h1 h2 =>
        rw [h1] at hu he
        exact (h.clean x hu s₀ h0 ha he).trans h2.symm
      | take hu' h1 => rw [h1, lock_locked hu'] at hu; cases hu
      | delete _ h1 => rw [h1, optikDeleted_locked] at hu; cases hu
      | revert hl _ hcl h1 h2 =>
        rw [h1, sections_revert hl] at he
        exact (hcl s₀ h0 ha he).trans h2.symm
      | unlock hl hd h1 =>
        rw [h1, sections_unlock hl hd] at he
        omega
      | write hl h1 => rw [h1, hl] at hu; cases hu

/-- The first memory of a run. -/
theorem Versioned.initial (s : Memory T N) : O.Versioned {s} s := by
  refine ⟨rfl, ?_, ?_, fun x _ => ?_⟩ <;> rintro s₀ rfl
  · exact fun t => le_rfl
  · exact fun x _ => le_rfl
  · exact fun _ _ => rfl

/-! ### Reading a version, then the data -/

variable (O) in
/-- The word has been read as `v`. -/
def Since (s : Memory T N) (x : Ptr T) (v : OptikT) : Prop :=
  s.Allocated x ∧ sections v ≤ sections (O.word s x)

variable (O) in
/-- The word has been read as `v`, and after it the data as `d`. -/
def Version (S : Set (Memory T N)) (x : Ptr T) (v : OptikT) (d : β) : Prop :=
  ∃ s₀ ∈ S, O.Since s₀ x v ∧ O.data (s₀.mem x) = d

theorem Since.step {v : OptikT} (h : O.Since s x v) (hs : s ∈ S) (hv : O.Versioned S s') :
    O.Since s' x v :=
  ⟨h.1.mono (hv.count s hs), h.2.trans (hv.mono s hs x h.1)⟩

theorem Since.version {v : OptikT} (h : O.Since s x v) (hs : s ∈ S) :
    O.Version S x v (O.data (s.mem x)) := ⟨s, hs, h, rfl⟩

theorem Version.insert {v : OptikT} {d : β} (h : O.Version S x v d) (s' : Memory T N) :
    O.Version (insert s' S) x v d :=
  let ⟨s₀, h0, h⟩ := h
  ⟨s₀, Set.mem_insert_of_mem _ h0, h⟩

/-- **The data is as it was read when the word is as it was read before.** -/
theorem Version.data_eq {v : OptikT} {d : β} (h : O.Version S x v d) (hv : O.Versioned S s)
    (hu : optikIsLocked v = false) (he : O.word s x = v) : O.data (s.mem x) = d := by
  obtain ⟨s₀, h0, ⟨ha, hle⟩, rfl⟩ := h
  have hmono := hv.mono s₀ h0 x ha
  rw [he] at hmono
  exact (hv.clean x (he ▸ hu) s₀ h0 ha (by rw [he]; omega)).symm

/-! ### Words that do not wrap -/

section bounded

variable {Op Res L ι : Type*} (P : Program T Op Res (Memory T N) L ι)

variable (O) in
/-- How often the lock of `x` was acquired. -/
def acquisitions (x : Ptr T) : Trace T Op Res (Memory T N) L → ℕ
  | [] => 0
  | (_, c) :: es => acquisitions x es +
    if optikIsLocked (O.word (P.last es) x) = false ∧ optikIsLocked (O.word c.shared x) = true
    then 1 else 0

variable (O) in
/-- Fewer than 2^63 acquisitions of any one lock. -/
def Few (es : Trace T Op Res (Memory T N) L) (_ : Config T Op (Memory T N) L) (e : Event T Op Res)
    (c' : Config T Op (Memory T N) L) : Prop :=
  ∀ x, O.acquisitions P x ((e, c') :: es) < 2 ^ 63

theorem acquisitions_le_length (x : Ptr T) (es : Trace T Op Res (Memory T N) L) :
    O.acquisitions P x es ≤ es.length := by
  induction es with
  | nil => exact le_rfl
  | cons p es ih =>
    rw [acquisitions, List.length_cons]
    split_ifs <;> omega

variable {P} in
/-- A short run has few acquisitions. -/
theorem few_of_length {es : Trace T Op Res (Memory T N) L} {c : Config T Op (Memory T N) L}
    (hr : P.Run es c) (h : es.length < 2 ^ 63) : P.RunIf (O.Few P) es c := by
  induction hr with
  | init => exact .init
  | step _ hst _ ih =>
    exact .step (ih ((Nat.lt_succ_self _).trans h)) hst fun x =>
      (acquisitions_le_length P x _).trans_lt h

variable (O) in
/-- A word that is not deleted is at most twice the number of acquisitions. -/
structure Bounded (es : Trace T Op Res (Memory T N) L) (s : Memory T N) : Prop where
  last : P.last es = s
  few : ∀ x, O.acquisitions P x es < 2 ^ 63
  le : ∀ x, O.word s x ≠ optikDeleted → (O.word s x).toNat ≤ 2 * O.acquisitions P x es
  lt : ∀ x, O.word s x ≠ optikDeleted → optikIsLocked (O.word s x) = true →
    (O.word s x).toNat + 1 ≤ 2 * O.acquisitions P x es

variable {P} {es : Trace T Op Res (Memory T N) L}

/-- Taking a lock does not make it a deleted one. -/
theorem Bounded.take_ne_deleted {e : Event T Op Res} {c : Config T Op (Memory T N) L}
    (h : O.Bounded P es s)
    (hf : ∀ x, O.acquisitions P x ((e, c) :: es) < 2 ^ 63) (hu : optikIsLocked (O.word s x) = false)
    (h1 : O.word c.shared x = O.word s x + 1) : O.word c.shared x ≠ optikDeleted := by
  intro he
  have hd : O.word s x ≠ optikDeleted := fun hd => by rw [hd, optikDeleted_locked] at hu; cases hu
  have h2 := h.le x hd
  have h3 := hf x
  rw [acquisitions, h.last, if_pos ⟨hu, by rw [h1]; exact lock_locked hu⟩] at h3
  have h4 := toNat_lock hu
  rw [← h1, he, toNat_optikDeleted] at h4
  omega

theorem Bounded.initial (h : ∀ x, O.word P.init x = optikInit) : O.Bounded P [] P.init := by
  refine ⟨rfl, fun x => by simp [acquisitions], fun x _ => ?_, fun x _ hl => ?_⟩
  · rw [h x]; exact Nat.zero_le _
  · rw [h x, optikInit_unlocked] at hl
    cases hl

/-- An event that leaves the memory alone. -/
theorem Bounded.frame {e : Event T Op Res} {th} (h : O.Bounded P es s) :
    O.Bounded P ((e, (⟨s, th⟩ : Config T Op (Memory T N) L)) :: es) s := by
  have ha : ∀ x, O.acquisitions P x ((e, ⟨s, th⟩) :: es) = O.acquisitions P x es := fun x => by
    rw [acquisitions, h.last, if_neg fun hn => by rw [hn.1] at hn; exact Bool.noConfusion hn.2]
    rfl
  exact ⟨rfl, fun x => by rw [ha]; exact h.few x, fun x => by rw [ha]; exact h.le x,
    fun x => by rw [ha]; exact h.lt x⟩

theorem Bounded.step {e : Event T Op Res} {c : Config T Op (Memory T N) L}
    (h : O.Bounded P es s)
    (hf : ∀ x, O.acquisitions P x ((e, c) :: es) < 2 ^ 63)
    (ht : ∀ x, O.Touch S s c.shared x ∨ O.word c.shared x = optikInit) :
    O.Bounded P ((e, c) :: es) c.shared := by
  have hle : ∀ x, O.acquisitions P x es ≤ O.acquisitions P x ((e, c) :: es) := fun x =>
    Nat.le_add_right _ _
  have hword : ∀ x, O.word c.shared x ≠ optikDeleted →
      (O.word c.shared x).toNat ≤ 2 * O.acquisitions P x ((e, c) :: es) ∧
      (optikIsLocked (O.word c.shared x) = true →
        (O.word c.shared x).toNat + 1 ≤ 2 * O.acquisitions P x ((e, c) :: es)) := by
    intro x hd
    have h1 := hle x
    rcases ht x with ht | h0
    · cases ht with
      | keep h2 _ =>
        rw [h2] at hd ⊢
        exact ⟨(h.le x hd).trans (by omega), fun hx => (h.lt x hd hx).trans (by omega)⟩
      | take hu h2 =>
        have hd' : O.word s x ≠ optikDeleted := fun hd => by
          rw [hd, optikDeleted_locked] at hu; cases hu
        have h3 : O.acquisitions P x ((e, c) :: es) = O.acquisitions P x es + 1 := by
          rw [acquisitions, h.last, if_pos ⟨hu, by rw [h2]; exact lock_locked hu⟩]
        have h4 := h.le x hd'
        have h5 := toNat_lock hu
        rw [h2, h3]
        omega
      | delete _ h2 => exact absurd h2 hd
      | revert hlk hd' _ h2 =>
        have h3 := toNat_revert hlk
        have h4 := h.lt x hd' hlk
        rw [h2]
        refine ⟨by omega, fun hx => ?_⟩
        rw [revert_unlocked hlk] at hx
        cases hx
      | unlock hlk hd' h2 =>
        have h3 := toNat_unlock hd'
        have h4 := h.lt x hd' hlk
        rw [h2]
        refine ⟨by omega, fun hx => ?_⟩
        rw [unlock_unlocked hlk hd'] at hx
        cases hx
      | write _ h2 =>
        rw [h2] at hd ⊢
        exact ⟨(h.le x hd).trans (by omega), fun hx => (h.lt x hd hx).trans (by omega)⟩
    · rw [h0]
      exact ⟨Nat.zero_le _, fun hx => by rw [optikInit_unlocked] at hx; cases hx⟩
  exact ⟨rfl, hf, fun x hd => (hword x hd).1, fun x hd => (hword x hd).2⟩

end bounded

end OptikView

end Ascylib
