/-
# Lines of threads

A list without repetitions as a line: one joins it at the end and leaves it at
the front. `Behind` says who stands right behind whom.

Key definition: `Behind`.
Key theorems: `behind_join`, `behind_cons`, `first_or_behind`.
-/
import Mathlib.Data.List.Infix
import Mathlib.Data.List.Nodup

namespace Concur

variable {T : Type*} {q : List T} {t u v w : T}

/-- In the line `q`, `v` stands right behind `u`. -/
def Behind (q : List T) (u v : T) : Prop := [u, v] <:+: q

theorem Behind.mem_left (h : Behind q u v) : u ∈ q := h.subset (by simp)

theorem Behind.mem_right (h : Behind q u v) : v ∈ q := h.subset (by simp)

theorem not_behind_nil : ¬ Behind ([] : List T) u v := fun h => by simpa using h.mem_left

theorem not_behind_singleton : ¬ Behind [t] u v := fun h => by simpa using h.length_le

/-- The last one joined. -/
theorem behind_join : Behind (q ++ [t]) u v ↔ Behind q u v ∨ (q.getLast? = some u ∧ v = t) := by
  have hs : [u, v] <:+ q ++ [t] ↔ q.getLast? = some u ∧ v = t := by
    rw [List.getLast?_eq_some_iff]
    constructor
    · rintro ⟨a, ha⟩
      have ha : (a ++ [u]) ++ [v] = q ++ [t] := by simpa using ha
      obtain ⟨h1, h2⟩ := List.append_inj' ha rfl
      exact ⟨⟨a, h1.symm⟩, by simpa using h2⟩
    · rintro ⟨⟨a, rfl⟩, rfl⟩
      exact ⟨a, by simp⟩
  rw [Behind, List.infix_concat_iff, hs, or_comm]
  rfl

/-- The first one is the next to leave. -/
theorem behind_cons : Behind (t :: q) u v ↔ (u = t ∧ q.head? = some v) ∨ Behind q u v := by
  have hp : [u, v] <+: t :: q ↔ u = t ∧ q.head? = some v := by
    rw [List.cons_prefix_cons]
    cases q <;> simp [List.cons_prefix_cons, eq_comm]
  rw [Behind, List.infix_cons_iff, hp]
  rfl

/-- Nobody stands before the first. -/
theorem Behind.ne_head (h : Behind q u v) (hn : q.Nodup) : q.head? ≠ some v := by
  cases q with
  | nil => exact absurd h not_behind_nil
  | cons a q =>
    obtain ⟨ha, -⟩ := List.nodup_cons.mp hn
    rintro ⟨⟩
    rcases behind_cons.mp h with ⟨-, hq⟩ | hq
    · exact ha (List.mem_of_mem_head? hq)
    · exact ha hq.mem_right

/-- Nobody stands behind the last. -/
theorem Behind.ne_last (h : Behind q u v) (hn : q.Nodup) : q.getLast? ≠ some u := by
  intro hl
  obtain ⟨q, rfl⟩ := List.getLast?_eq_some_iff.mp hl
  have hu : u ∉ q := fun hu => (List.nodup_append.mp hn).2.2 u hu u (by simp) rfl
  rcases behind_join.mp h with hq | ⟨hq, -⟩
  · exact hu hq.mem_left
  · exact hu (List.mem_of_getLast? hq)

/-- One stands right behind one other. -/
theorem Behind.left_unique (h : Behind q u v) (h' : Behind q w v) (hn : q.Nodup) : u = w := by
  induction q with
  | nil => exact absurd h not_behind_nil
  | cons a q ih =>
    obtain ⟨-, hnq⟩ := List.nodup_cons.mp hn
    rcases behind_cons.mp h with ⟨rfl, hq⟩ | hq <;> rcases behind_cons.mp h' with ⟨rfl, hq'⟩ | hq'
    · rfl
    · exact absurd hq (hq'.ne_head hnq)
    · exact absurd hq' (hq.ne_head hnq)
    · exact ih hq hq' hnq

/-- One other stands right behind one. -/
theorem Behind.right_unique (h : Behind q u v) (h' : Behind q u w) (hn : q.Nodup) : v = w := by
  induction q with
  | nil => exact absurd h not_behind_nil
  | cons a q ih =>
    obtain ⟨ha, hnq⟩ := List.nodup_cons.mp hn
    rcases behind_cons.mp h with ⟨rfl, hq⟩ | hq <;> rcases behind_cons.mp h' with ⟨hu, hq'⟩ | hq'
    · exact Option.some.inj (hq.symm.trans hq')
    · exact absurd hq'.mem_left ha
    · exact absurd (hu ▸ hq.mem_left) ha
    · exact ih hq hq' hnq

theorem first_or_behind (h : v ∈ q) : q.head? = some v ∨ ∃ u, Behind q u v := by
  induction q with
  | nil => cases h
  | cons a q ih =>
    rcases List.mem_cons.mp h with rfl | h
    · exact Or.inl rfl
    · rcases ih h with hq | ⟨u, hu⟩
      · exact Or.inr ⟨a, behind_cons.mpr (Or.inl ⟨rfl, hq⟩)⟩
      · exact Or.inr ⟨u, behind_cons.mpr (Or.inr hu)⟩

end Concur
