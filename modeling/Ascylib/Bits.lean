/-
# Shifts of words

`x ^ (x << n)` and `x ^ (x >> n)` determine `x` (`xor_shiftLeft_injective`,
`xor_shiftRight_injective`): two words with the same image differ by a word
that the shift leaves as it is, and that is 0.

Oring a word with its shifts smears each bit over the places below it
(`Smeared`); what is left of a number is then a block of ones
(`Smeared.eq_two_pow`).
-/
import Mathlib.Data.BitVec
import Mathlib.Data.Fintype.Card
import Mathlib.Data.Nat.Size

namespace Bits

variable {w n : ℕ}

instance finite_bitVec : Finite (BitVec w) :=
  .of_injective BitVec.toFin fun _ _ h => BitVec.eq_of_toFin_eq h

/-! ### Xor with a shift -/

theorem eq_zero_of_shiftLeft {d : BitVec w} (hn : 0 < n) (h : d <<< n = d) : d = 0 := by
  have hbit : ∀ i, d.getLsbD i = false := by
    intro i
    induction i using Nat.strong_induction_on with
    | _ i ih =>
      rw [← h, BitVec.getLsbD_shiftLeft]
      by_cases hi : i < n
      · simp [hi]
      · rw [ih (i - n) (by omega), Bool.and_false]
  exact BitVec.eq_of_getLsbD_eq fun i _ => by simp [hbit i]

theorem eq_zero_of_shiftRight {d : BitVec w} (hn : 0 < n) (h : d >>> n = d) : d = 0 := by
  have hbit : ∀ k i, w - i ≤ k → d.getLsbD i = false := by
    intro k
    induction k with
    | zero => exact fun i hi => BitVec.getLsbD_of_ge d i (by omega)
    | succ k ih =>
      intro i hi
      rw [← h, BitVec.getLsbD_ushiftRight]
      exact ih (n + i) (by omega)
  exact BitVec.eq_of_getLsbD_eq fun i _ => by simp [hbit _ i le_rfl]

/-- A word that is xored with an image of itself determines it, if the image is
additive and only keeps 0. -/
theorem xor_map_injective {f : BitVec w → BitVec w} (hf : ∀ x y, f (x ^^^ y) = f x ^^^ f y)
    (hfix : ∀ d, f d = d → d = 0) : Function.Injective fun x => x ^^^ f x := by
  intro x y h
  have hd : f (x ^^^ y) = x ^^^ y := by
    rw [hf]
    have h' : x ^^^ f x ^^^ (x ^^^ f y) = y ^^^ f y ^^^ (x ^^^ f y) := congrArg (· ^^^ (x ^^^ f y)) h
    calc f x ^^^ f y = x ^^^ f x ^^^ (x ^^^ f y) := by
          rw [BitVec.xor_comm x (f x), BitVec.xor_assoc, ← BitVec.xor_assoc x x, BitVec.xor_self,
            BitVec.zero_xor]
      _ = y ^^^ f y ^^^ (x ^^^ f y) := h'
      _ = x ^^^ y := by
          rw [BitVec.xor_comm x (f y), BitVec.xor_assoc, ← BitVec.xor_assoc (f y) (f y),
            BitVec.xor_self, BitVec.zero_xor, BitVec.xor_comm]
  exact BitVec.xor_eq_zero_iff.mp (hfix _ hd)

theorem xor_shiftLeft_injective (hn : 0 < n) :
    Function.Injective fun x : BitVec w => x ^^^ (x <<< n) :=
  xor_map_injective (fun x y => BitVec.shiftLeft_xor_distrib x y n) fun _ => eq_zero_of_shiftLeft hn

theorem xor_shiftRight_injective (hn : 0 < n) :
    Function.Injective fun x : BitVec w => x ^^^ (x >>> n) :=
  xor_map_injective (fun x y => BitVec.ushiftRight_xor_distrib x y n) fun _ =>
    eq_zero_of_shiftRight hn

/-! ### Smearing -/

/-- Each bit of `x`, and `n - 1` copies of it below. -/
def Smeared (n x y : ℕ) : Prop := ∀ i, y.testBit i = true ↔ ∃ j < n, x.testBit (i + j) = true

variable {x y : ℕ}

theorem Smeared.one (x : ℕ) : Smeared 1 x x := by
  intro i
  exact ⟨fun h => ⟨0, Nat.one_pos, h⟩, fun ⟨j, hj, h⟩ => by
    obtain rfl : j = 0 := by omega
    exact h⟩

/-- Another round doubles the copies. -/
theorem Smeared.double (h : Smeared n x y) : Smeared (n + n) x (y ||| y >>> n) := by
  intro i
  rw [Nat.testBit_or, Nat.testBit_shiftRight, Bool.or_eq_true, h i, h (n + i)]
  constructor
  · rintro (⟨j, hj, hx⟩ | ⟨j, hj, hx⟩)
    · exact ⟨j, by omega, hx⟩
    · refine ⟨n + j, by omega, ?_⟩
      rwa [show i + (n + j) = n + i + j by omega]
  · rintro ⟨j, hj, hx⟩
    rcases Nat.lt_or_ge j n with hjn | hjn
    · exact Or.inl ⟨j, hjn, hx⟩
    · refine Or.inr ⟨j - n, by omega, ?_⟩
      rwa [show n + i + (j - n) = i + j by omega]

/-- **With a copy for every place the ones fill the number.** -/
theorem Smeared.eq_two_pow (h : Smeared n x y) (hx : x.size ≤ n) : y = 2 ^ x.size - 1 := by
  refine Nat.eq_of_testBit_eq fun i => ?_
  rw [Nat.testBit_two_pow_sub_one, Bool.eq_iff_iff, h i, decide_eq_true_iff]
  constructor
  · rintro ⟨j, -, hj⟩
    exact (Nat.le_add_right i j).trans_lt (Nat.lt_size.mpr (Nat.ge_two_pow_of_testBit hj))
  · intro hi
    have h0 : x ≠ 0 := by
      rintro rfl
      simp at hi
    refine ⟨x.size - 1 - i, by omega, ?_⟩
    rw [show i + (x.size - 1 - i) = x.size - 1 by omega]
    have h1 : 2 ^ (x.size - 1) ≤ x := Nat.lt_size.mp (by omega)
    have h2 : x < 2 ^ (x.size - 1 + 1) := by
      rw [Nat.sub_add_cancel (Nat.pos_of_ne_zero fun h => by omega)]
      exact Nat.lt_size_self x
    exact Nat.testBit_of_two_pow_le_and_two_pow_add_one_gt h1 h2

/-! ### Low bits -/

theorem mod_two_pow_add_iff (m n a b : ℕ) : a % 2 ^ (m + n) = b % 2 ^ (m + n) ↔
    a % 2 ^ m = b % 2 ^ m ∧ a / 2 ^ m % 2 ^ n = b / 2 ^ m % 2 ^ n := by
  rw [Nat.pow_add, Nat.mod_mul, Nat.mod_mul]
  have ha : a % 2 ^ m < 2 ^ m := Nat.mod_lt _ (Nat.two_pow_pos m)
  have hb : b % 2 ^ m < 2 ^ m := Nat.mod_lt _ (Nat.two_pow_pos m)
  constructor
  · intro h
    have hlow : a % 2 ^ m = b % 2 ^ m := by
      have := congrArg (· % 2 ^ m) h
      simpa [Nat.add_mul_mod_self_left, Nat.mod_mod] using this
    refine ⟨hlow, ?_⟩
    rw [hlow] at h
    exact Nat.eq_of_mul_eq_mul_left (Nat.two_pow_pos m) (Nat.add_left_cancel h)
  · rintro ⟨h1, h2⟩
    rw [h1, h2]

end Bits
