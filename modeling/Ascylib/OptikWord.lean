/-
# A shared state with one OPTIK word

The word protects a part of the state (`data`) that changes only while the word
is odd. A thread that has read an even word and then, in several steps, parts
of the data knows the data of all of them when it takes the lock with that
version, or reads the same word again (`Versioned.data_eq`): half of the word
counts the critical sections that have ended, and none ended in between.

Key definitions: `OptikWord.Versioned`, `OptikWord.Touch`, `OptikWord.Bounded`.
Key theorems: `Versioned.step`, `Versioned.data_eq`, `Bounded.step`.
-/
import Ascylib.Optik
import Ascylib.Concur.Ghost

set_option linter.unusedSectionVars false

namespace Ascylib

open Concur

/-- The OPTIK word of a state, and what it protects. -/
structure OptikWord (σ β : Type*) where
  lock : σ → OptikT
  data : σ → β

namespace OptikWord

variable {σ β : Type*} (O : OptikWord σ β)

/-- A run through the states `S` has kept to the word. -/
structure Versioned (S : Set σ) (s : σ) : Prop where
  mem : s ∈ S
  mono : ∀ s₀ ∈ S, sections (O.lock s₀) ≤ sections (O.lock s)
  clean : optikIsLocked (O.lock s) = false →
    ∀ s₀ ∈ S, sections (O.lock s₀) = sections (O.lock s) → O.data s₀ = O.data s

/-- What one step may do: the data changes only while the lock is held. -/
inductive Touch (s s' : σ) : Prop
  | keep : O.lock s' = O.lock s → O.data s' = O.data s → Touch s s'
  | take : optikIsLocked (O.lock s) = false → O.lock s' = O.lock s + 1 → O.data s' = O.data s →
      Touch s s'
  | write : optikIsLocked (O.lock s) = true → O.lock s' = O.lock s → Touch s s'
  | unlock : optikIsLocked (O.lock s) = true → O.lock s ≠ optikDeleted →
      O.lock s' = O.lock s + 1 → Touch s s'

variable {O} {S W : Set σ} {s s' : σ}

theorem Touch.sections_le (h : O.Touch s s') : sections (O.lock s) ≤ sections (O.lock s') := by
  cases h with
  | keep h1 => rw [h1]
  | take hu h1 => rw [h1, sections_lock hu]
  | write _ h1 => rw [h1]
  | unlock hl hd h1 => rw [h1, sections_unlock hl hd]; exact Nat.le_succ _

theorem Versioned.initial (s : σ) : O.Versioned {s} s := by
  refine ⟨rfl, ?_, fun _ => ?_⟩
  · rintro s₀ rfl
    exact le_rfl
  · rintro s₀ rfl _
    rfl

/-- **A step that touches the state in one of these ways keeps the run
versioned.** -/
theorem Versioned.step (h : O.Versioned S s) (ht : O.Touch s s') : O.Versioned (insert s' S) s' := by
  have hle := ht.sections_le
  refine ⟨Set.mem_insert _ _, fun s₀ h0 => ?_, fun hu s₀ h0 he => ?_⟩
  · rcases Set.mem_insert_iff.mp h0 with rfl | h0
    · exact le_rfl
    · exact (h.mono s₀ h0).trans hle
  · rcases Set.mem_insert_iff.mp h0 with rfl | h0
    · rfl
    · have hmono := h.mono s₀ h0
      cases ht with
      | keep h1 h2 =>
        rw [h1] at hu he
        exact (h.clean hu s₀ h0 he).trans h2.symm
      | take hu' h1 => rw [h1, lock_locked hu'] at hu; cases hu
      | write hl h1 => rw [h1, hl] at hu; cases hu
      | unlock hl hd h1 =>
        rw [h1, sections_unlock hl hd] at he
        omega

variable (O) in
/-- In all of `W` the word was no older than `v`. -/
def Since (W : Set σ) (v : OptikT) : Prop := ∀ s₀ ∈ W, sections v ≤ sections (O.lock s₀)

theorem Since.insert {v : OptikT} (h : O.Since W v) (hs : s ∈ W) (ht : O.Touch s s') :
    O.Since (insert s' W) v := by
  intro s₀ h0
  rcases Set.mem_insert_iff.mp h0 with rfl | h0
  · exact (h s hs).trans ht.sections_le
  · exact h s₀ h0

/-- **Between two readings of the same even word the data was the same.** -/
theorem Versioned.data_eq (h : O.Versioned S s) (hW : W ⊆ S) {v : OptikT} (hv : O.Since W v)
    (hu : optikIsLocked v = false) (he : O.lock s = v) {s₀ : σ} (h0 : s₀ ∈ W) :
    O.data s₀ = O.data s := by
  have h1 := h.mono s₀ (hW h0)
  have h2 := hv s₀ h0
  rw [he] at h1
  exact h.clean (he ▸ hu) s₀ (hW h0) (by rw [he]; omega)

/-! ### A word that does not wrap -/

section bounded

variable {T Op Res L ι : Type*} [DecidableEq T] (P : Program T Op Res σ L ι)

variable (O) in
/-- How often the lock was acquired. -/
def acquisitions : Trace T Op Res σ L → ℕ
  | [] => 0
  | (_, c) :: es => acquisitions es +
    if optikIsLocked (O.lock (P.last es)) = false ∧ optikIsLocked (O.lock c.shared) = true then 1 else 0

variable (O) in
/-- Fewer than 2^63 acquisitions. -/
def Few (es : Trace T Op Res σ L) (_ : Config T Op σ L) (e : Event T Op Res) (c' : Config T Op σ L) :
    Prop :=
  O.acquisitions P ((e, c') :: es) < 2 ^ 63

variable (O) in
/-- The word is at most twice the number of acquisitions. -/
structure Bounded (es : Trace T Op Res σ L) (s : σ) : Prop where
  last : P.last es = s
  few : O.acquisitions P es < 2 ^ 63
  le : (O.lock s).toNat ≤ 2 * O.acquisitions P es
  lt : optikIsLocked (O.lock s) = true → (O.lock s).toNat + 1 ≤ 2 * O.acquisitions P es

variable {P} {es : Trace T Op Res σ L}

theorem Bounded.ne_deleted (h : O.Bounded P es s) : O.lock s ≠ optikDeleted := by
  intro he
  have h1 := h.lt (by rw [he]; exact optikDeleted_locked)
  have h2 := h.few
  rw [he, toNat_optikDeleted] at h1
  omega

theorem Bounded.initial (h : O.lock P.init = optikInit) : O.Bounded P [] P.init := by
  refine ⟨rfl, by simp [acquisitions], ?_, fun hl => ?_⟩
  · rw [h]
    exact Nat.zero_le _
  · rw [h, optikInit_unlocked] at hl
    cases hl

/-- An event that leaves the state alone. -/
theorem Bounded.frame {e : Event T Op Res} {th} (h : O.Bounded P es s) :
    O.Bounded P ((e, (⟨s, th⟩ : Config T Op σ L)) :: es) s := by
  have ha : O.acquisitions P ((e, ⟨s, th⟩) :: es) = O.acquisitions P es := by
    rw [acquisitions, h.last, if_neg fun hn => by rw [hn.1] at hn; exact Bool.noConfusion hn.2]
    rfl
  exact ⟨rfl, by rw [ha]; exact h.few, by rw [ha]; exact h.le, by rw [ha]; exact h.lt⟩

theorem Bounded.step {e : Event T Op Res} {c : Config T Op σ L} (h : O.Bounded P es s)
    (hf : O.acquisitions P ((e, c) :: es) < 2 ^ 63) (ht : O.Touch s c.shared) :
    O.Bounded P ((e, c) :: es) c.shared := by
  have hle : O.acquisitions P es ≤ O.acquisitions P ((e, c) :: es) := Nat.le_add_right _ _
  have h1 := h.le
  cases ht with
  | keep h2 _ =>
    refine ⟨rfl, hf, ?_, fun hl => ?_⟩
    · rw [h2]
      omega
    · rw [h2] at hl ⊢
      have := h.lt hl
      omega
  | take hu h2 =>
    have h3 : O.acquisitions P ((e, c) :: es) = O.acquisitions P es + 1 := by
      rw [acquisitions, h.last, if_pos ⟨hu, by rw [h2]; exact lock_locked hu⟩]
    have h4 := toNat_lock hu
    refine ⟨rfl, hf, ?_, fun _ => ?_⟩
    · rw [h2]
      omega
    · rw [h2]
      omega
  | write hlk h2 =>
    refine ⟨rfl, hf, ?_, fun hl => ?_⟩
    · rw [h2]
      omega
    · rw [h2] at hl ⊢
      have := h.lt hl
      omega
  | unlock hlk hd h2 =>
    have h3 := toNat_unlock hd
    have h4 := h.lt hlk
    refine ⟨rfl, hf, ?_, fun hl => ?_⟩
    · rw [h2]
      omega
    · rw [h2, unlock_unlocked hlk hd] at hl
      cases hl

/-- The acquisitions of a ghost program are those of the program. -/
theorem acquisitions_erase {G γ : Type*} {O' : OptikWord (σ × G) γ}
    (h : ∀ s, O'.lock s = O.lock s.1) (A : Ghost Op L G) (es : Trace T Op Res (σ × G) L) :
    O'.acquisitions (A.program P) es = O.acquisitions P (Ghost.erase es) := by
  induction es with
  | nil => rfl
  | cons p es ih =>
    obtain ⟨e, c⟩ := p
    show O'.acquisitions (A.program P) es + _ = O.acquisitions P (Ghost.erase es) + _
    rw [ih, h, h, Ghost.last_erase]
    rfl

end bounded

end OptikWord

end Ascylib
