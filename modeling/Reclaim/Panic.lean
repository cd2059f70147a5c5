import Reclaim.Config

set_option autoImplicit false

namespace Reclaim

inductive StoreOrder where
  | relaxed | release | sequential
  deriving DecidableEq, Repr

def StoreOrder.describe : StoreOrder → String
  | relaxed => "Relaxed"
  | release => "Release"
  | sequential => "SeqCst"

inductive Panic where
  | config (e : ConfigError)
  | inactiveRelease
  | nullRetired
  | emptyBag
  | emptyChain
  | weakOrder (given : StoreOrder)
  | capacityOverflow
  | explicit (text : String)
  deriving DecidableEq, Repr

namespace Panic

def message : Panic → String
  | config e => e.message
  | inactiveRelease => "released record must be active"
  | nullRetired => "scheduled deletion of a null pointer"
  | emptyBag => "assertion failed: !bag.is_empty()"
  | emptyChain => "the queue always contains at least one node"
  | weakOrder given =>
    "assertion `left == right` failed: this method requires sequential consistency\n  left: " ++
      given.describe ++ "\n right: " ++ StoreOrder.sequential.describe
  | capacityOverflow => "capacity overflow"
  | explicit text => text

end Panic
end Reclaim
