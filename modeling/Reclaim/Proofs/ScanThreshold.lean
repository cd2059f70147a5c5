import Mathlib
import Reclaim.Config

set_option autoImplicit false

namespace Reclaim.Config
variable (c : Config)

/-- A bag does not become too small for a scan by growing. -/
theorem isScanDue_mono (active : Nat) : Monotone fun retired => c.isScanDue retired active := by
  intro retired more hle
  rw [Bool.le_iff_imp]
  intro hdue
  obtain ⟨hmin, hfits, hlt⟩ := (c.isScanDue_iff retired active).1 hdue
  have hproduct : retired * 100 ≤ more * 100 := Nat.mul_le_mul_right 100 hle
  exact (c.isScanDue_iff more active).2
    ⟨Nat.le_trans hmin hle, hfits, Nat.lt_of_lt_of_le hlt hproduct⟩

/-- The fewer hazard pointers there are, the sooner a scan is due. -/
theorem isScanDue_anti (retired : Nat) : Antitone fun active => c.isScanDue retired active := by
  intro fewer active hle
  rw [Bool.le_iff_imp]
  intro hdue
  obtain ⟨hmin, hfits, hlt⟩ := (c.isScanDue_iff retired active).1 hdue
  have hproduct : fewer * c.scanFactor.toNat ≤ active * c.scanFactor.toNat :=
    Nat.mul_le_mul_right _ hle
  exact (c.isScanDue_iff retired fewer).2
    ⟨hmin, Nat.lt_of_le_of_lt hproduct hfits, Nat.lt_of_le_of_lt hproduct hlt⟩

theorem isScanDue_zero (active : Nat) : c.isScanDue 0 active = false := by
  refine Bool.eq_false_iff.2 fun hdue => ?_
  obtain ⟨-, -, hlt⟩ := (c.isScanDue_iff 0 active).1 hdue
  rw [Nat.zero_mul] at hlt
  exact Nat.not_lt_zero _ hlt

/-- A scan is due for enough records if they exceed the scan factor, in unbounded numbers; it does
not matter whether a hundred times the number of records fits into a word, but for so many hazard
pointers that their product reaches the largest word no scan is due. Hence more records or fewer
hazard pointers never make a scan less due, and no scan is due without a record. -/
theorem isScanDue_exact :
    (∀ retired active : Nat, c.isScanDue retired active = true ↔
      c.minRecords.toNat ≤ retired ∧
        active * c.scanFactor.toNat < 2 ^ 64 - 1 ∧
        active * c.scanFactor.toNat < retired * 100) ∧
    (∀ active, Monotone fun retired => c.isScanDue retired active) ∧
    (∀ retired, Antitone fun active => c.isScanDue retired active) ∧
    ∀ active, c.isScanDue 0 active = false :=
  ⟨c.isScanDue_iff, c.isScanDue_mono, c.isScanDue_anti, c.isScanDue_zero⟩

/-- A hundred times the records does not fit into a word, and a counter of hazard pointers that has
wrapped is too large for any number of records. -/
example : Config.default.isScanDue (2 ^ 63) (2 ^ 57) = true ∧
    Config.default.isScanDue (2 ^ 64 - 1) (2 ^ 64 - 1) = false := by
  decide +kernel

end Reclaim.Config
