/-
# The sequential search structures

The calls of `Search` with `length`, one after another, and what they do to a
list of entries that is sorted by key. `length` is an `int`: it counts modulo
`2 ^ 32`.

Key definition: `sortedList`.
-/
import Ascylib.Concur.Machine
import Ascylib.Concur.Scan
import Ascylib.Search
import Mathlib.Data.BitVec

namespace Ascylib

open Concur

inductive SeqCall (K V : Type*) where
  | call (op : Call K V)
  | length

inductive SeqAnswer (V : Type*) where
  | answer (r : Answer V)
  | length (count : BitVec 32)
  deriving DecidableEq

/-- The clients' part, as for the other structures. -/
def SeqCall.Client {K V : Type*} [LinearOrder K] [BoundedOrder K] [Zero V] : SeqCall K V → Prop
  | .call op => Ascylib.Client op
  | .length => True

variable {K V : Type*} [LinearOrder K]

/-- The value of the first entry, if that has the key. -/
def firstVal (k : K) : List (K × V) → Option V
  | [] => none
  | e :: _ => if e.1 = k then some e.2 else none

section first

variable {α : Type*} {e : α → K × V} {k : K} {hi : List α} {t : α}

theorem firstVal_map (hn : k ≠ (e (hi.headD t)).1) : firstVal k (hi.map e) = none := by
  cases hi with
  | nil => rfl
  | cons x hi => exact if_neg (Ne.symm hn)

/-- The key's entry is the first, if what would be read at the end has another key. -/
theorem exists_cons_of_key (ht : k ≠ (e t).1) (he : k = (e (hi.headD t)).1) :
    ∃ x hi', hi = x :: hi' ∧ (e x).1 = k ∧ firstVal k (hi.map e) = some (e x).2 := by
  cases hi with
  | nil => exact absurd he ht
  | cons x hi => exact ⟨x, hi, rfl, he.symm, if_pos he.symm⟩

end first

/-- The calls on a sorted list of entries. -/
def sortedList (K V : Type*) [LinearOrder K] [Zero V] :
    Machine (SeqCall K V) (SeqAnswer V) (List (K × V)) where
  init := []
  apply
    | .call (.search k), l =>
      some (l, .answer (.val ((firstVal k (l.dropWhile fun e => e.1 < k)).getD 0)))
    | .call (.insert k v), l =>
      let lo := l.takeWhile fun e => e.1 < k
      let hi := l.dropWhile fun e => e.1 < k
      match firstVal k hi with
      | none => some (lo ++ (k, v) :: hi, .answer (.flag true))
      | some _ => some (l, .answer (.flag false))
    | .call (.remove k), l =>
      let lo := l.takeWhile fun e => e.1 < k
      let hi := l.dropWhile fun e => e.1 < k
      match firstVal k hi with
      | none => some (l, .answer (.val 0))
      | some v => some (lo ++ hi.tail, .answer (.val v))
    | .length, l => some (l, .length (BitVec.ofNat 32 l.length))

section apply

variable [Zero V] {lo hi : List (K × V)} {k : K} {v : V}

theorem sortedList_search (h : Cut Prod.fst k lo hi) :
    (sortedList K V).apply (.call (.search k)) (lo ++ hi) =
      some (lo ++ hi, .answer (.val ((firstVal k hi).getD 0))) := by
  simp only [sortedList, h.dropWhile]

theorem sortedList_insert_none (h : Cut Prod.fst k lo hi) (hn : firstVal k hi = none) (v : V) :
    (sortedList K V).apply (.call (.insert k v)) (lo ++ hi) =
      some (lo ++ (k, v) :: hi, .answer (.flag true)) := by
  simp only [sortedList, h.takeWhile, h.dropWhile, hn]

theorem sortedList_insert_some (h : Cut Prod.fst k lo hi) {w : V} (hn : firstVal k hi = some w)
    (v : V) :
    (sortedList K V).apply (.call (.insert k v)) (lo ++ hi) =
      some (lo ++ hi, .answer (.flag false)) := by
  simp only [sortedList, h.dropWhile, hn]

theorem sortedList_remove_none (h : Cut Prod.fst k lo hi) (hn : firstVal k hi = none) :
    (sortedList K V).apply (.call (.remove k)) (lo ++ hi) = some (lo ++ hi, .answer (.val 0)) := by
  simp only [sortedList, h.dropWhile, hn]

theorem sortedList_remove_some (h : Cut Prod.fst k lo hi) (hv : firstVal k hi = some v) :
    (sortedList K V).apply (.call (.remove k)) (lo ++ hi) =
      some (lo ++ hi.tail, .answer (.val v)) := by
  simp only [sortedList, h.takeWhile, h.dropWhile, hv]

end apply

end Ascylib
