import Reclaim.Panic

set_option autoImplicit false

namespace Reclaim

abbrev Name := String

inductive Refusal where
  | badInput | unknown | nameTaken | gone | alreadyRetired | busy | wouldBlock | exited
  | noNode | notClaimed
  deriving DecidableEq, Repr

def Refusal.code : Refusal → String
  | badInput => "bad_input"
  | unknown => "unknown"
  | nameTaken => "exists"
  | gone => "gone"
  | alreadyRetired => "already_retired"
  | busy => "busy"
  | wouldBlock => "would_block"
  | exited => "exited"
  | noNode => "no_node"
  | notClaimed => "not_claimed"

inductive Failure where
  | refused (r : Refusal)
  | panicked (p : Panic)
  deriving DecidableEq, Repr

end Reclaim
