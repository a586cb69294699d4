/-
# Integer OPTIK words

`include/optik.h`, the integer variant: a 64-bit word, odd while the lock is
held. Taking the lock adds one, giving it back adds one more, and a revert
takes the one away again. So half of the word counts the critical sections
that have ended (`sections`), and two equal even readings mean that none ended
in between, as long as the word does not wrap.
-/
import Mathlib.Algebra.Group.Nat.Defs
import Mathlib.Tactic.Common

namespace Ascylib

/-- `optik_t` -/
abbrev OptikT := UInt64

/-- `OPTIK_INIT` -/
def optikInit : OptikT := 0

/-- `OPTIK_DELETED` -/
def optikDeleted : OptikT := 0xFFFFFFFFFFFFFFFF

/-- `optik_is_locked` -/
def optikIsLocked (ol : OptikT) : Bool := (ol &&& 1) != 0

/-- The test of `optik_trylock_version` and `optik_trylock_vdelete` before
their CAS: whether they give up. -/
def optikOutdated (ol old : OptikT) : Bool := optikIsLocked old || ol != old

/-- The critical sections that have ended. -/
def sections (ol : OptikT) : ℕ := ol.toNat / 2

theorem optikIsLocked_iff {ol : OptikT} : optikIsLocked ol = true ↔ ol.toNat % 2 = 1 := by
  have h : (ol &&& 1).toNat = ol.toNat % 2 := by
    rw [UInt64.toNat_and]
    exact Nat.and_one_is_mod _
  unfold optikIsLocked
  rw [bne_iff_ne, ne_eq, ← UInt64.toNat_inj, h]
  simp

theorem not_locked_iff {ol : OptikT} : optikIsLocked ol = false ↔ ol.toNat % 2 = 0 := by
  rw [← Bool.not_eq_true, optikIsLocked_iff]
  omega

theorem not_locked_of_outdated {ol old : OptikT} (h : ¬ optikOutdated ol old = true) :
    optikIsLocked old = false := by
  rw [optikOutdated, Bool.or_eq_true, not_or] at h
  exact Bool.not_eq_true _ ▸ h.1

theorem optikInit_unlocked : optikIsLocked optikInit = false := by decide

theorem toNat_optikDeleted : optikDeleted.toNat = 2 ^ 64 - 1 := by decide

theorem optikDeleted_locked : optikIsLocked optikDeleted = true := by decide

/-! ### Taking the lock and giving it back -/

/-- An even word has room for the lock bit. -/
theorem toNat_lock {ol : OptikT} (h : optikIsLocked ol = false) :
    (ol + 1).toNat = ol.toNat + 1 := by
  have h1 := not_locked_iff.mp h
  have h2 := ol.toNat_lt
  rw [UInt64.toNat_add, UInt64.toNat_one]
  omega

theorem lock_locked {ol : OptikT} (h : optikIsLocked ol = false) :
    optikIsLocked (ol + 1) = true := by
  have h1 := not_locked_iff.mp h
  rw [optikIsLocked_iff, toNat_lock h]
  omega

theorem sections_lock {ol : OptikT} (h : optikIsLocked ol = false) :
    sections (ol + 1) = sections ol := by
  have h1 := not_locked_iff.mp h
  unfold sections
  rw [toNat_lock h]
  omega

theorem toNat_unlock {ol : OptikT} (h : ol ≠ optikDeleted) : (ol + 1).toNat = ol.toNat + 1 := by
  have h2 := ol.toNat_lt
  have h3 : ol.toNat ≠ 2 ^ 64 - 1 := fun he => h (UInt64.toNat_inj.mp (he.trans toNat_optikDeleted.symm))
  rw [UInt64.toNat_add, UInt64.toNat_one]
  omega

theorem unlock_unlocked {ol : OptikT} (h : optikIsLocked ol = true) (hd : ol ≠ optikDeleted) :
    optikIsLocked (ol + 1) = false := by
  have h1 := optikIsLocked_iff.mp h
  rw [not_locked_iff, toNat_unlock hd]
  omega

theorem sections_unlock {ol : OptikT} (h : optikIsLocked ol = true) (hd : ol ≠ optikDeleted) :
    sections (ol + 1) = sections ol + 1 := by
  have h1 := optikIsLocked_iff.mp h
  unfold sections
  rw [toNat_unlock hd]
  omega

theorem toNat_revert {ol : OptikT} (h : optikIsLocked ol = true) :
    (ol - 1).toNat + 1 = ol.toNat := by
  have h1 := optikIsLocked_iff.mp h
  have h2 := ol.toNat_lt
  rw [UInt64.toNat_sub, UInt64.toNat_one]
  omega

theorem revert_unlocked {ol : OptikT} (h : optikIsLocked ol = true) :
    optikIsLocked (ol - 1) = false := by
  have h1 := optikIsLocked_iff.mp h
  have h2 := toNat_revert h
  rw [not_locked_iff]
  omega

theorem sections_revert {ol : OptikT} (h : optikIsLocked ol = true) :
    sections (ol - 1) = sections ol := by
  have h1 := optikIsLocked_iff.mp h
  have h2 := toNat_revert h
  unfold sections
  omega

theorem sections_le_deleted (ol : OptikT) : sections ol ≤ sections optikDeleted := by
  have := ol.toNat_lt
  unfold sections
  rw [toNat_optikDeleted]
  omega

end Ascylib
