/-
# The levels of the skip lists

`get_rand_level` of the skip lists, with the `levelmax` that `main` of
`src/test_search.cc` derives from the initial size. `levelmax` is unsigned: for
the initial size 1 it is 0, the loop counts to `levelmax - 1 = 2 ^ 32 - 1`, and
the level 1 is above it already.

Key theorem: `get_rand_level_iff`.
-/
import Ascylib.ChmAddress
import Mathlib.Tactic.Common

namespace Ascylib

namespace RandLevel

/-- `initial = atoi(optarg)`, an `int` that becomes a `size_t`. -/
def initial (arg : BitVec 32) : BitVec 64 := arg.signExtend 64

/-- `levelmax = floor_log_2((unsigned int) initial)` -/
def levelmax (initial : BitVec 64) : BitVec 32 :=
  BitVec.ofInt 32 (floorLog2 (initial.setWidth 32).toNat)

/-- `for (int i=0; i < levelmax-1; i++) { if (up) level++; else break; }`, with the
rounds that are left; `up` is the test on a number drawn with `rand_range`. -/
def levelRounds (up : (ℤ → ℤ) → Bool) (randRange : ℕ → ℤ → ℤ) : ℕ → ℕ → BitVec 32 → BitVec 32
  | 0, _, level => level
  | rounds + 1, i, level =>
    if up (randRange i) then levelRounds up randRange rounds (i + 1) (level + 1) else level

/-- The level, from the numbers that `rand_range` returns at each draw. -/
def getRandLevel (up : (ℤ → ℤ) → Bool) (levelmax : BitVec 32) (randRange : ℕ → ℤ → ℤ) : BitVec 32 :=
  levelRounds up randRange (levelmax - 1).toNat 0 1

/-- `get_rand_level` of `SkiplistSeq` -/
def skiplistSeq := getRandLevel fun randRange => randRange 101 < 50

/-- `get_rand_level` of `SkiplistFraser` -/
def skiplistFraser := getRandLevel fun randRange => randRange 101 < 50

/-- `get_rand_level` of `SkiplistHerlihyLB` -/
def skiplistHerlihyLB := getRandLevel fun randRange => randRange 100 - 1 < 50

/-- `get_rand_level` of `SkiplistHerlihyLF` -/
def skiplistHerlihyLF := getRandLevel fun randRange => randRange 101 < 50

/-- `get_rand_level` of `SkiplistOptik` -/
def skiplistOptik := getRandLevel fun randRange => randRange 100 - 1 < 50

/-- The five of them. -/
def getRandLevels : List (BitVec 32 → (ℕ → ℤ → ℤ) → BitVec 32) :=
  [skiplistSeq, skiplistFraser, skiplistHerlihyLB, skiplistHerlihyLF, skiplistOptik]

/-- `1 <= level <= levelmax`, whatever is drawn. -/
def LevelOk (getRandLevel : BitVec 32 → (ℕ → ℤ → ℤ) → BitVec 32) (levelmax : BitVec 32) : Prop :=
  ∀ randRange, 1 ≤ (getRandLevel levelmax randRange).toInt ∧
    (getRandLevel levelmax randRange).toInt ≤ levelmax.toNat

variable {up : (ℤ → ℤ) → Bool}

/-- A round adds at most one. -/
theorem levelRounds_bound (up : (ℤ → ℤ) → Bool) (randRange : ℕ → ℤ → ℤ) (rounds i : ℕ) (level : BitVec 32)
    (h : level.toNat + rounds < 2 ^ 31) :
    level.toNat ≤ (levelRounds up randRange rounds i level).toNat ∧
      (levelRounds up randRange rounds i level).toNat ≤ level.toNat + rounds := by
  induction rounds generalizing i level with
  | zero => exact ⟨le_rfl, le_rfl⟩
  | succ rounds ih =>
    unfold levelRounds
    split
    · have hstep : (level + 1).toNat = level.toNat + 1 := by
        rw [BitVec.toNat_add]
        change (level.toNat + 1) % 2 ^ 32 = _
        omega
      have := ih (i + 1) (level + 1) (by omega)
      omega
    · exact ⟨le_rfl, Nat.le_add_right ..⟩

theorem getRandLevel_ok {levelmax : BitVec 32} (h1 : 1 ≤ levelmax.toNat)
    (h2 : levelmax.toNat < 2 ^ 31) : LevelOk (getRandLevel up) levelmax := by
  intro randRange
  have hpred : (levelmax - 1).toNat = levelmax.toNat - 1 := by
    rw [BitVec.toNat_sub_of_le]
    · rfl
    · exact BitVec.le_def.mpr h1
  have hb := levelRounds_bound up randRange (levelmax - 1).toNat 0 1 (by
    change 1 + _ < _
    omega)
  change 1 ≤ (getRandLevel up levelmax randRange).toNat ∧
    (getRandLevel up levelmax randRange).toNat ≤ 1 + _ at hb
  rw [BitVec.toInt_eq_toNat_of_lt (by omega)]
  omega

/-- With `levelmax = 0` the level 1 is too high. -/
theorem getRandLevel_zero {randRange : ℕ → ℤ → ℤ} (h : up (randRange 0) = false) :
    getRandLevel up 0 randRange = 1 := by
  rw [getRandLevel, show (0 - 1 : BitVec 32).toNat = 4294967294 + 1 by decide, levelRounds, h]
  rfl

theorem not_levelOk_zero (h : up (fun _ => 100) = false) : ¬ LevelOk (getRandLevel up) 0 := by
  intro hok
  have := (hok fun _ _ => 100).2
  rw [getRandLevel_zero h] at this
  exact absurd this (by decide)

theorem levelmax_initial {arg : BitVec 32} (h : arg.toNat ≠ 0) :
    levelmax (initial arg) = BitVec.ofNat 32 (Nat.log 2 arg.toNat) := by
  have hw : (arg.signExtend 64).setWidth 32 = arg := by
    refine BitVec.eq_of_getLsbD_eq fun i hi => ?_
    have hi' : i < 64 := by omega
    rw [BitVec.getLsbD_setWidth, BitVec.getLsbD_signExtend, if_pos hi]
    simp [hi, hi']
  rw [levelmax, initial, hw, floorLog2_eq h arg.isLt, BitVec.ofInt_natCast]

theorem initial_toNat (arg : BitVec 32) :
    (initial arg).toNat = arg.toNat + if arg.msb then 2 ^ 64 - 2 ^ 32 else 0 := by
  rw [initial, BitVec.toNat_signExtend, BitVec.toNat_setWidth_of_le (by decide)]

/-- **The levels stay within `levelmax` unless the initial size is 1.** -/
theorem get_rand_level_iff (arg : BitVec 32) (h : 1 ≤ (initial arg).toNat) :
    ∀ getRandLevel ∈ getRandLevels,
      LevelOk getRandLevel (levelmax (initial arg)) ↔ 2 ≤ (initial arg).toNat := by
  have h0 : arg.toNat ≠ 0 := by
    intro he
    have hz : arg = 0 := BitVec.eq_of_toNat_eq he
    rw [hz] at h
    exact absurd h (by decide)
  have hge : arg.toNat ≤ (initial arg).toNat := by
    rw [initial_toNat]
    exact Nat.le_add_right ..
  have hmain : ∀ up : (ℤ → ℤ) → Bool, up (fun _ => 100) = false →
      (LevelOk (getRandLevel up) (levelmax (initial arg)) ↔ 2 ≤ (initial arg).toNat) := by
    intro up hup
    rcases Nat.lt_or_ge arg.toNat 2 with hlt | hle
    · -- the initial size is 1
      have h1 : arg = 1 := BitVec.eq_of_toNat_eq (show arg.toNat = 1 by omega)
      subst h1
      refine ⟨fun hok => absurd hok ?_, fun h2 => absurd h2 (by decide)⟩
      exact not_levelOk_zero hup
    · refine ⟨fun _ => hle.trans hge, fun _ => ?_⟩
      have hlog1 : 1 ≤ Nat.log 2 arg.toNat := Nat.log_pos (by decide) hle
      have hlog2 : Nat.log 2 arg.toNat < 32 := Nat.log_lt_of_lt_pow h0 arg.isLt
      have hl : (levelmax (initial arg)).toNat = Nat.log 2 arg.toNat := by
        rw [levelmax_initial h0, BitVec.toNat_ofNat]
        exact Nat.mod_eq_of_lt (hlog2.trans (by decide))
      exact getRandLevel_ok (by rw [hl]; exact hlog1) (by rw [hl]; exact hlog2.trans (by decide))
  intro g hg
  simp only [getRandLevels, List.mem_cons, List.not_mem_nil, or_false] at hg
  rcases hg with rfl | rfl | rfl | rfl | rfl <;> exact hmain _ (by decide)

/-- The default initial size, for `skiplist_seq.h`. -/
theorem get_rand_level_default :
    LevelOk skiplistSeq (levelmax (initial 1024)) ↔ 2 ≤ (initial 1024).toNat :=
  get_rand_level_iff 1024 (by decide) skiplistSeq (by simp [getRandLevels])

/-- **For the initial size 1 a level of 1 is too high**, in all five lists. -/
theorem get_rand_level_one : ¬ ∀ arg : BitVec 32, 1 ≤ (initial arg).toNat →
    ∀ getRandLevel ∈ getRandLevels, LevelOk getRandLevel (levelmax (initial arg)) := by
  intro h
  refine not_levelOk_zero ?_ (h 1 (by decide) skiplistSeq (by simp [getRandLevels]))
  decide

end RandLevel

end Ascylib
