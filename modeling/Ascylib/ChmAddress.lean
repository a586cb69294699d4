/-
# Where a key goes in the table with segments

`include/utils.h` rounds the number of segments up to a power of two
(`pow2roundup`), `src/algorithms/hashtable_java.h` takes the low bits of a key
for its segment and the bits above them for its place there. `hash` returns an
`int`: of the bits above it keeps 32.

Key theorem: `chm_address`.
-/
import Ascylib.Bits
import Mathlib.Data.Nat.Log

namespace Ascylib

/-- `pow2roundup(x)`. -/
def pow2roundup (x : BitVec 32) : BitVec 32 :=
  if x = 0 then 1
  else
    let x := x - 1
    let x := x ||| (x >>> 1)
    let x := x ||| (x >>> 2)
    let x := x ||| (x >>> 4)
    let x := x ||| (x >>> 8)
    let x := x ||| (x >>> 16)
    x + 1

/-- `if (n >= 1<<k) { n >>= k; pos += k; }` on `(n, pos)`. -/
def logRound (k : ℕ) (p : ℕ × ℕ) : ℕ × ℕ :=
  if 1 <<< k ≤ p.1 then (p.1 >>> k, p.2 + k) else p

/-- `floor_log_2(n)`. -/
def floorLog2 (n : ℕ) : ℤ :=
  let (n, pos) := logRound 2 (logRound 4 (logRound 8 (logRound 16 (n, 0))))
  let pos := if 1 <<< 1 ≤ n then pos + 1 else pos
  if n = 0 then -1 else pos

/-- `key & chm->hash`, for a key that is not negative. -/
def segNum (numSegments key : ℕ) : ℕ := key &&& (numSegments - 1)

/-- `hash(key, hash_seed)`, for a key that is not negative. -/
def hash (key hashSeed : ℕ) : BitVec 32 := BitVec.ofNat 32 (key >>> hashSeed)

/-- `num_segments`, from the concurrency that `main` is given. -/
def numSegments (c : BitVec 32) : ℕ := (pow2roundup c).toNat

/-- `hash_seed` -/
def hashSeed (c : BitVec 32) : ℤ := floorLog2 (numSegments c)

/-- The segment of a key, and its hash there. -/
def address (c : BitVec 32) (key : ℕ) : ℕ × BitVec 32 :=
  (segNum (numSegments c) key, hash key (hashSeed c).toNat)

/-! ### Rounding up -/

theorem pow2roundup_toNat {c : BitVec 32} (h1 : 1 ≤ c.toNat) (h2 : c.toNat ≤ 2 ^ 31) :
    (pow2roundup c).toNat = 2 ^ (c.toNat - 1).size := by
  have h0 : c ≠ 0 := by
    rintro rfl
    simp at h1
  have hpred : (c - 1).toNat = c.toNat - 1 := by
    rw [BitVec.toNat_sub_of_le]
    · rfl
    · exact BitVec.le_def.mpr h1
  have hsize : (c.toNat - 1).size ≤ 31 := Nat.size_le.mpr (by omega)
  have hsm := ((((Bits.Smeared.one (c.toNat - 1)).double).double.double.double.double).eq_two_pow
    (hsize.trans (by decide)))
  have hlt : 2 ^ (c.toNat - 1).size ≤ 2 ^ 31 := Nat.pow_le_pow_right (by decide) hsize
  have hpos : 0 < 2 ^ (c.toNat - 1).size := Nat.two_pow_pos _
  rw [pow2roundup, if_neg h0]
  simp only [BitVec.toNat_add, BitVec.toNat_or, BitVec.toNat_ushiftRight, hpred]
  simp only [Nat.reduceAdd] at hsm
  rw [hsm]
  change (2 ^ (c.toNat - 1).size - 1 + 1) % 2 ^ 32 = _
  omega

/-! ### The logarithm -/

/-- A round of the logarithm keeps what is counted and what is left together. -/
theorem logRound_log (k : ℕ) {p : ℕ × ℕ} (h : p.1 ≠ 0) :
    (logRound k p).1 ≠ 0 ∧ Nat.log 2 (logRound k p).1 + (logRound k p).2 = Nat.log 2 p.1 + p.2 := by
  unfold logRound
  split
  · rename_i hk
    rw [Nat.one_shiftLeft] at hk
    simp only [Nat.shiftRight_eq_div_pow]
    have hpos : 0 < p.1 / 2 ^ k := Nat.div_pos hk (Nat.two_pow_pos k)
    have hlog : k ≤ Nat.log 2 p.1 := (Nat.le_log_iff_pow_le (by decide) h).mpr hk
    refine ⟨hpos.ne', ?_⟩
    rw [Nat.log_div_base_pow]
    omega
  · exact ⟨h, rfl⟩

/-- It leaves a number of half the bits. -/
theorem logRound_lt (k : ℕ) {p : ℕ × ℕ} (h : p.1 < 2 ^ (k + k)) : (logRound k p).1 < 2 ^ k := by
  unfold logRound
  split
  · rw [Nat.shiftRight_eq_div_pow]
    exact Nat.div_lt_of_lt_mul (by rwa [← Nat.pow_add])
  · rename_i hk
    rwa [Nat.one_shiftLeft, not_le] at hk

theorem floorLog2_eq {n : ℕ} (h0 : n ≠ 0) (h : n < 2 ^ 32) : floorLog2 n = Nat.log 2 n := by
  obtain ⟨h1, e1⟩ := logRound_log 16 (p := (n, 0)) h0
  obtain ⟨h2, e2⟩ := logRound_log 8 h1
  obtain ⟨h3, e3⟩ := logRound_log 4 h2
  obtain ⟨h4, e4⟩ := logRound_log 2 h3
  have hlt := logRound_lt 2 (logRound_lt 4 (logRound_lt 8 (logRound_lt 16 (p := (n, 0)) h)))
  unfold floorLog2
  generalize logRound 2 (logRound 4 (logRound 8 (logRound 16 (n, 0)))) = q at *
  obtain ⟨m, pos⟩ := q
  have hm : m = 1 ∨ m = 2 ∨ m = 3 := by
    simp only at h4 hlt
    omega
  have hlast : Nat.log 2 m = if 1 <<< 1 ≤ m then 1 else 0 := by
    rcases hm with rfl | rfl | rfl <;> decide
  have hlog : Nat.log 2 n = (if 1 <<< 1 ≤ m then 1 else 0) + pos := by
    simp only at *
    omega
  have hm0 : m ≠ 0 := h4
  simp only [hlog, hm0, if_false]
  split <;> simp [add_comm]

/-! ### The two levels of the table -/

/-- Two addresses agree where the keys agree on the low bits. -/
theorem address_eq_iff {c : BitVec 32} {m : ℕ} (hn : numSegments c = 2 ^ m) (hs : hashSeed c = m)
    (key key' : ℕ) :
    address c key = address c key' ↔ key % 2 ^ (m + 32) = key' % 2 ^ (m + 32) := by
  rw [Bits.mod_two_pow_add_iff, address, address, Prod.mk.injEq, hn, hs, segNum, segNum, hash, hash,
    Nat.and_two_pow_sub_one_eq_mod, Nat.and_two_pow_sub_one_eq_mod, Int.toNat_natCast,
    Nat.shiftRight_eq_div_pow, Nat.shiftRight_eq_div_pow, ← BitVec.toNat_inj, BitVec.toNat_ofNat,
    BitVec.toNat_ofNat]

/-- **The segments are a power of two, and a key goes where its low bits say.**
The number of segments is the least power of two that is large enough, the
shift is its logarithm, and the address holds the low 32 bits of a key and as
many more as the shift leaves to the segment. -/
theorem chm_address (c : BitVec 32) (h1 : 1 ≤ c.toNat) (h2 : c.toNat ≤ 2 ^ 31) :
    (c.toNat ≤ numSegments c ∧ (∃ m, numSegments c = 2 ^ m) ∧
      ∀ k, c.toNat ≤ 2 ^ k → numSegments c ≤ 2 ^ k) ∧
    (0 ≤ hashSeed c ∧ 2 ^ (hashSeed c).toNat = numSegments c) ∧
    ∀ key key', address c key = address c key' ↔
      key % 2 ^ ((hashSeed c).toNat + 32) = key' % 2 ^ ((hashSeed c).toNat + 32) := by
  set m := (c.toNat - 1).size with hm
  have hn : numSegments c = 2 ^ m := pow2roundup_toNat h1 h2
  have hm31 : m ≤ 31 := Nat.size_le.mpr (by omega)
  have hs : hashSeed c = m := by
    have hlt : 2 ^ m < 2 ^ 32 := Nat.pow_lt_pow_right (by decide) (by omega)
    rw [hashSeed, hn, floorLog2_eq (Nat.two_pow_pos m).ne' hlt, Nat.log_pow (by decide)]
  refine ⟨⟨?_, ⟨m, hn⟩, fun k hk => ?_⟩, ⟨?_, ?_⟩, fun key key' => ?_⟩
  · have : c.toNat - 1 < 2 ^ m := Nat.lt_size_self _
    rw [hn]
    omega
  · rw [hn]
    exact Nat.pow_le_pow_right (by decide) (Nat.size_le.mpr (by omega))
  · rw [hs]
    exact Int.natCast_nonneg m
  · rw [hs, hn, Int.toNat_natCast]
  · rw [address_eq_iff hn hs, hs, Int.toNat_natCast]

/-- The default of `main`, and two keys that differ in bit 39 only. -/
theorem chm_address_default : numSegments 128 = 128 ∧ (address 128 5 = address 128 (5 + 2 ^ 39) ↔
    5 % 2 ^ ((hashSeed 128).toNat + 32) = (5 + 2 ^ 39) % 2 ^ ((hashSeed 128).toNat + 32)) :=
  ⟨by decide, (chm_address 128 (by decide) (by decide)).2.2 5 (5 + 2 ^ 39)⟩

/-- **With one segment the keys 0 and 2 ^ 32 have one address**: `hash` cuts the
shifted key off to an `int`. -/
theorem chm_address_not_injective : ¬ ∀ c : BitVec 32, 1 ≤ c.toNat → c.toNat ≤ 2 ^ 31 →
    ∀ key key', key < 2 ^ 63 → key' < 2 ^ 63 → address c key = address c key' → key = key' := by
  intro h
  have := h 1 (by decide) (by decide) 0 (2 ^ 32) (by decide) (by decide) (by decide)
  exact absurd this (by decide)

end Ascylib
