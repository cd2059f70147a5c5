import Reclaim.Waiter

set_option autoImplicit false

namespace Reclaim.Waiter
variable {V : Type}

structure Round (V : Type) where
  notificationsBefore : Nat := 0
  polls : List (Poll V)

def Round.isHelped (r : Round V) : Bool :=
  r.polls.any fun p => p.notifications == 0 && p.value.isNone

def runRounds (w : Waiter) : List (Round V) → List (Wait V)
  | [] => []
  | r :: rest =>
    match (w.notifyTimes r.notificationsBefore).waitFor r.isHelped r.polls with
    | .ended v n w => .ended v n w :: runRounds w rest
    | .parked w => [.parked w]

end Reclaim.Waiter
