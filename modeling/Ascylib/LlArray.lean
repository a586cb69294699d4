/-
# Arrays of entries

`src/aux/ll_array.h`: an array is its size and the slots behind it. `slots` is
the list of the first slots, and `valOf` what such a list holds for a key.

Key definitions: `LlArray`, `valOf`, `Sound`.
-/
import Mathlib.Data.List.Basic
import Mathlib.Data.List.Nodup
import Mathlib.Logic.Function.Basic

namespace Ascylib

/-- `node_ll` -/
structure NodeLl (K V : Type*) where
  key : K
  val : V

/-- `ll_array`: `size`, and the slots that `nodes` points to. -/
structure LlArray (K V : Type*) where
  size : ℕ
  nodes : ℕ → NodeLl K V

namespace LlArray

variable {K V : Type*}

/-- `nodes[i].key = k` -/
def setKey (a : LlArray K V) (i : ℕ) (k : K) : LlArray K V :=
  { a with nodes := Function.update a.nodes i { a.nodes i with key := k } }

/-- `nodes[i].val = v` -/
def setVal (a : LlArray K V) (i : ℕ) (v : V) : LlArray K V :=
  { a with nodes := Function.update a.nodes i { a.nodes i with val := v } }

/-- The first `n` slots. -/
def slots (a : LlArray K V) (n : ℕ) : List (NodeLl K V) := (List.range n).map a.nodes

/-- The slots in use. -/
def entries (a : LlArray K V) : List (NodeLl K V) := a.slots a.size

variable (a : LlArray K V) {i j n : ℕ} {k : K} {v : V}

@[simp] theorem size_setKey : (a.setKey i k).size = a.size := rfl

@[simp] theorem size_setVal : (a.setVal i v).size = a.size := rfl

@[simp] theorem slots_zero : a.slots 0 = [] := rfl

theorem slots_succ : a.slots (n + 1) = a.slots n ++ [a.nodes n] := by
  simp [slots, List.range_succ]

@[simp] theorem length_slots : (a.slots n).length = n := by simp [slots]

theorem slots_congr {b : LlArray K V} (h : ∀ j < n, b.nodes j = a.nodes j) :
    b.slots n = a.slots n :=
  List.map_congr_left fun j hj => h j (List.mem_range.mp hj)

/-- A write behind the first `n` slots. -/
theorem slots_setKey (h : n ≤ i) : (a.setKey i k).slots n = a.slots n :=
  a.slots_congr fun _ hj => Function.update_of_ne (Nat.ne_of_lt (Nat.lt_of_lt_of_le hj h)) ..

theorem slots_setVal (h : n ≤ i) : (a.setVal i v).slots n = a.slots n :=
  a.slots_congr fun _ hj => Function.update_of_ne (Nat.ne_of_lt (Nat.lt_of_lt_of_le hj h)) ..

theorem key_setKey : ((a.setKey i k).nodes i).key = k := by simp [setKey]

/-- The slots from `i` on. -/
theorem slots_split (h : i < n) : ∃ l, a.slots n = a.slots i ++ a.nodes i :: l := by
  induction n with
  | zero => exact absurd h (Nat.not_lt_zero i)
  | succ n ih =>
    rw [slots_succ]
    rcases Nat.lt_succ_iff_lt_or_eq.mp h with h | rfl
    · obtain ⟨l, hl⟩ := ih h
      exact ⟨l ++ [a.nodes n], by rw [hl, List.append_assoc, List.cons_append]⟩
    · exact ⟨[], rfl⟩

theorem node_setVal : (a.setVal i v).nodes i = ⟨(a.nodes i).key, v⟩ := by simp [setVal]

end LlArray

/-! ### What a list of entries holds -/

namespace LinkedListCopy

section valOf

variable {K V : Type*} [DecidableEq K]

/-- The value of the first entry with the key. -/
def valOf (l : List (NodeLl K V)) (k : K) : Option V := (l.find? (·.key = k)).map NodeLl.val

variable {l : List (NodeLl K V)} {e : NodeLl K V} {k : K} {v : V}

theorem valOf_eq_none : valOf l k = none ↔ ∀ e ∈ l, e.key ≠ k := by
  simp [valOf]

theorem exists_of_valOf (h : valOf l k = some v) : ∃ e ∈ l, e.key = k ∧ e.val = v := by
  obtain ⟨e, he, rfl⟩ := Option.map_eq_some_iff.mp h
  exact ⟨e, List.mem_of_find?_eq_some he, by simpa using List.find?_some he, rfl⟩

/-- The entry found is the one behind those that do not match. -/
theorem valOf_append (l' : List (NodeLl K V)) (h : valOf l e.key = none) :
    valOf (l ++ e :: l') e.key = some e.val := by
  have hl : l.find? (·.key = e.key) = none := by simpa [valOf] using h
  simp [valOf, List.find?_append, hl]

theorem valOf_append_of_ne (h : e.key ≠ k) : valOf (l ++ [e]) k = valOf l k := by
  simp [valOf, List.find?_append, h]

/-- A new entry at the end. -/
theorem valOf_insert (h : valOf l e.key = none) :
    valOf (l ++ [e]) = Function.update (valOf l) e.key (some e.val) := by
  funext j
  by_cases hj : j = e.key
  · subst hj
    rw [Function.update_self, valOf_append [] h]
  · rw [Function.update_of_ne hj, valOf_append_of_ne (Ne.symm hj)]

/-- The entries with other keys. -/
abbrev without (l : List (NodeLl K V)) (k : K) : List (NodeLl K V) := l.filter (·.key ≠ k)

theorem valOf_remove (l : List (NodeLl K V)) (k : K) :
    valOf (without l k) = Function.update (valOf l) k none := by
  funext j
  by_cases hj : j = k
  · subst hj
    rw [Function.update_self, valOf_eq_none]
    intro e he
    simpa using (List.mem_filter.mp he).2
  · rw [Function.update_of_ne hj]
    have h : ∀ e : NodeLl K V, (e.key ≠ k ∧ e.key = j) ↔ e.key = j :=
      fun e => ⟨And.right, fun he => ⟨he ▸ hj, he⟩⟩
    simp only [valOf, without, List.find?_filter, decide_eq_true_eq, h]

theorem without_append_of_ne (h : e.key ≠ k) : without (l ++ [e]) k = without l k ++ [e] := by
  simp [without, List.filter_append, h]

theorem without_append (h : e.key = k) : without (l ++ [e]) k = without l k := by
  simp [without, List.filter_append, h]

theorem without_eq_self (h : valOf l k = none) : without l k = l :=
  List.filter_eq_self.mpr fun e he => by simpa using valOf_eq_none.mp h e he

/-- Entries with one key each, and values other than 0. -/
structure Sound [Zero V] (l : List (NodeLl K V)) : Prop where
  nodup : (l.map NodeLl.key).Nodup
  val : ∀ e ∈ l, e.val ≠ 0

variable [Zero V]

omit [DecidableEq K] in
theorem Sound.nil : Sound ([] : List (NodeLl K V)) := ⟨List.nodup_nil, nofun⟩

theorem Sound.insert (h : Sound l) (hn : valOf l e.key = none) (hv : e.val ≠ 0) :
    Sound (l ++ [e]) where
  nodup := by
    rw [List.map_append, List.nodup_append]
    refine ⟨h.nodup, by simp, fun j hj k hk => ?_⟩
    obtain ⟨e', he', rfl⟩ := List.mem_map.mp hj
    rw [show k = e.key by simpa using hk]
    exact valOf_eq_none.mp hn e' he'
  val e' he' := by
    rcases List.mem_append.mp he' with he' | he'
    · exact h.val e' he'
    · rw [show e' = e by simpa using he']
      exact hv

theorem Sound.remove (h : Sound l) (k : K) : Sound (without l k) where
  nodup := h.nodup.sublist (List.filter_sublist.map _)
  val e he := h.val e (List.mem_filter.mp he).1

theorem Sound.valOf_ne (h : Sound l) (hv : valOf l k = some v) : v ≠ 0 := by
  obtain ⟨e, he, -, rfl⟩ := exists_of_valOf hv
  exact h.val e he

/-- One entry goes. -/
theorem Sound.length_without (h : Sound l) (hv : valOf l k = some v) :
    (without l k).length + 1 = l.length := by
  induction l with
  | nil => cases hv
  | cons e l ih =>
    have hl : Sound l := ⟨(List.nodup_cons.mp h.nodup).2, fun e' he' => h.val e' (.tail _ he')⟩
    by_cases he : e.key = k
    · have hn : valOf l k = none := by
        refine valOf_eq_none.mpr fun e' he' hk => (List.nodup_cons.mp h.nodup).1 ?_
        rw [he, ← hk]
        exact List.mem_map_of_mem he'
      rw [without, List.filter_cons_of_neg (by simpa using he)]
      exact congrArg (fun l => l.length + 1) (without_eq_self hn)
    · have hv : valOf l k = some v := by simpa [valOf, List.find?_cons, he] using hv
      rw [without, List.filter_cons_of_pos (by simpa using he)]
      exact congrArg (· + 1) (ih hl hv)

omit [Zero V] in
/-- The first slot with a key is the entry of that key. -/
theorem valOf_entries {a : LlArray K V} {i : ℕ} (h : valOf (a.slots i) (a.nodes i).key = none)
    (hi : i < a.size) : valOf a.entries (a.nodes i).key = some (a.nodes i).val := by
  obtain ⟨l, hl⟩ := a.slots_split hi
  rw [LlArray.entries, hl]
  exact valOf_append l h

/-- No slot before has the same key. -/
theorem Sound.other {a : LlArray K V} {i : ℕ} (h : Sound a.entries) (hi : i < a.size) :
    valOf (a.slots i) (a.nodes i).key = none := by
  obtain ⟨l, hl⟩ := a.slots_split hi
  have hn := h.nodup
  rw [LlArray.entries, hl, List.map_append, List.nodup_append] at hn
  exact valOf_eq_none.mpr fun e he => hn.2.2 _ (List.mem_map_of_mem he) _ (by simp)

end valOf

end LinkedListCopy

end Ascylib
