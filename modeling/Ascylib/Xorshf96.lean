/-
# The random numbers

`include/random.h`: Marsaglia's `xorshf96` on three words `unsigned long`, of 64
bits. Each draw is an invertible linear map of the three words, so no draw
leads into the state of zeros, where all draws are 0.

Key theorem: `xorshf96_bijective`.
-/
import Ascylib.Bits
import Mathlib.Data.Finite.Prod
import Mathlib.Logic.Function.Iterate

namespace Ascylib

/-- The words `x`, `y` and `z`. -/
abbrev Seeds := BitVec 64 × BitVec 64 × BitVec 64

/-- `x ^= x << 16; x ^= x >> 5; x ^= x << 1;` -/
def shifts (x : BitVec 64) : BitVec 64 :=
  let x := x ^^^ (x <<< 16)
  let x := x ^^^ (x >>> 5)
  x ^^^ (x <<< 1)

/-- `xorshf96(x, y, z)`: the words after it. -/
def xorshf96 : Seeds → Seeds
  | (x, y, z) =>
    let t := shifts x
    let x := y
    let y := z
    let z := t ^^^ x ^^^ y
    (x, y, z)

/-- What `xorshf96` returns: `*z`, after the update. -/
def draw (s : Seeds) : BitVec 64 := (xorshf96 s).2.2

/-- `rand_range(r)` with `LOCAL_RAND`: the number, and the words after it. -/
def randRange (r : BitVec 64) (s : Seeds) : BitVec 64 × Seeds := (draw s % r + 1, xorshf96 s)

theorem shifts_injective : Function.Injective shifts := by
  have h1 := Bits.xor_shiftLeft_injective (w := 64) (n := 16) (by decide)
  have h2 := Bits.xor_shiftRight_injective (w := 64) (n := 5) (by decide)
  have h3 := Bits.xor_shiftLeft_injective (w := 64) (n := 1) (by decide)
  exact h3.comp (h2.comp h1)

theorem xorshf96_injective : Function.Injective xorshf96 := by
  rintro ⟨x, y, z⟩ ⟨x', y', z'⟩ h
  simp only [xorshf96, Prod.mk.injEq] at h
  obtain ⟨rfl, rfl, h⟩ := h
  rw [BitVec.xor_left_inj, BitVec.xor_left_inj] at h
  rw [shifts_injective h]

theorem xorshf96_zero : xorshf96 (0, 0, 0) = (0, 0, 0) := by decide

/-- Zeros stay zeros, and nothing else becomes zeros. -/
theorem iterate_eq_zero (n : ℕ) (s : Seeds) : xorshf96^[n] s = (0, 0, 0) ↔ s = (0, 0, 0) := by
  have h0 : xorshf96^[n] (0, 0, 0) = (0, 0, 0) := Function.iterate_fixed xorshf96_zero n
  constructor
  · intro h
    exact xorshf96_injective.iterate n (h.trans h0.symm)
  · rintro rfl
    exact h0

/-- After three draws the words are the three draws. -/
theorem iterate_three (s : Seeds) :
    xorshf96^[3] s = (draw s, draw (xorshf96 s), draw (xorshf96 (xorshf96 s))) := rfl

/-- **The update is a bijection**; no run of draws leads into the zeros, and
they are the only state whose draws are all 0. -/
theorem xorshf96_bijective : Function.Bijective xorshf96 ∧
    (∀ s, s ≠ (0, 0, 0) → ∀ n, xorshf96^[n] s ≠ (0, 0, 0)) ∧
    ∀ s, (∀ n, draw (xorshf96^[n] s) = 0) ↔ s = (0, 0, 0) := by
  refine ⟨Finite.injective_iff_bijective.mp xorshf96_injective, fun s hs n h => ?_, fun s => ?_⟩
  · exact hs ((iterate_eq_zero n s).mp h)
  · constructor
    · intro h
      refine (iterate_eq_zero 3 s).mp ?_
      rw [iterate_three]
      exact Prod.ext (h 0) (Prod.ext (h 1) (h 2))
    · rintro rfl n
      rw [(iterate_eq_zero n _).mpr rfl]
      decide

end Ascylib
