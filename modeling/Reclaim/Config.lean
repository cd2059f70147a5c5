import Reclaim.Text

set_option autoImplicit false

namespace Reclaim

def wordMax : Nat := UInt64.size - 1

def saturatingMul (a b : Nat) : Nat :=
  min (a * b) wordMax

structure Config where
  initCache : UInt64
  /-- With fewer retired records than this no scan is made. -/
  minRecords : UInt32
  /-- Percentage of the active hazard pointers that the retired records must exceed. -/
  scanFactor : UInt32
  scanFactor_pos : 0 < scanFactor
  deriving DecidableEq

inductive ConfigError where
  | zeroScanFactor
  deriving DecidableEq, Repr

namespace ConfigError

def message : ConfigError → String
  | zeroScanFactor => "scan factor must be greater than 0"

def describe : ConfigError → String
  | zeroScanFactor => "ZeroScanFactor"

end ConfigError

structure ConfigOptions where
  initCache : Option UInt64 := none
  minRecords : Option UInt32 := none
  scanFactor : Option UInt32 := none

namespace ConfigOptions

def build (o : ConfigOptions) : Except ConfigError Config :=
  let factor := o.scanFactor.getD 125
  if h : 0 < factor then
    .ok ⟨o.initCache.getD 128, o.minRecords.getD 0, factor, h⟩
  else
    .error .zeroScanFactor

def describe (o : ConfigOptions) : String :=
  Text.record "ConfigBuilder" [
    ("init_cache", Text.option (o.initCache.map toString)),
    ("min_required_records", Text.option (o.minRecords.map toString)),
    ("scan_factor", Text.option (o.scanFactor.map toString))]

end ConfigOptions

namespace Config

protected def default : Config :=
  ⟨128, 0, 125, by decide⟩

instance : Inhabited Config := ⟨Config.default⟩

/-- Both products saturate: where the right one does, no scan is due. -/
def isScanDue (c : Config) (retired active : Nat) : Bool :=
  decide (c.minRecords.toNat ≤ retired) &&
    decide (saturatingMul active c.scanFactor.toNat < saturatingMul retired 100)

def describe (c : Config) : String :=
  Text.record "Config" [
    ("init_cache", toString c.initCache),
    ("min_required_records", toString c.minRecords),
    ("scan_factor", toString c.scanFactor)]

theorem build_empty : ({} : ConfigOptions).build = .ok Config.default := rfl

theorem isScanDue_iff (c : Config) (retired active : Nat) :
    c.isScanDue retired active = true ↔
      c.minRecords.toNat ≤ retired ∧ active * c.scanFactor.toNat < wordMax ∧
        active * c.scanFactor.toNat < retired * 100 := by
  generalize hp : active * c.scanFactor.toNat = p
  simp only [isScanDue, saturatingMul, Bool.and_eq_true, decide_eq_true_eq, hp]
  omega

end Config
end Reclaim
