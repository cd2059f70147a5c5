/-!
The sleeping side of a queue. A consumer registers as a sleeper, reads the epoch, polls, and parks
for as long as the epoch is the one it read. A notification that finds a sleeper moves the epoch
on, so a consumer that polled in vain before it does not park.
-/

set_option autoImplicit false

namespace Reclaim

abbrev ThreadId := Nat

structure Waiter where
  sleepers : UInt64 := 0
  epoch : UInt64 := 0
  deriving DecidableEq, Repr

/-- What one call of a poll does: it notifies some times and then has a value or not. -/
structure Poll (V : Type) where
  notifications : Nat
  value : Option V

inductive Wait (V : Type) where
  /-- The wait ended after `polls` polls; without a value the script of the polls was exhausted. -/
  | ended (value : Option V) (polls : Nat) (w : Waiter)
  /-- Nobody is there to wake the consumer up. -/
  | parked (w : Waiter)

namespace Waiter
variable {V : Type}

def notify (w : Waiter) : Waiter :=
  if 0 < w.sleepers then { w with epoch := w.epoch + 1 } else w

def notifyTimes : Nat → Waiter → Waiter
  | 0, w => w
  | k + 1, w => notifyTimes k w.notify

def enter (w : Waiter) : Waiter := { w with sleepers := w.sleepers + 1 }

def leave (w : Waiter) : Waiter := { w with sleepers := w.sleepers - 1 }

/-- Polls by the script until there is a value. With `helped` another thread notifies whenever the
consumer has parked. -/
def poll (helped : Bool) (count : Nat) (w : Waiter) : List (Poll V) → Wait V
  | [] => .ended none (count + 1) w.leave
  | p :: rest =>
    let w' := w.notifyTimes p.notifications
    match p.value with
    | some v => .ended (some v) (count + 1) w'.leave
    | none =>
      if w'.epoch ≠ w.epoch then poll helped (count + 1) w' rest
      else if helped then poll helped (count + 1) w'.notify rest
      else .parked w'

def waitFor (w : Waiter) (helped : Bool) (script : List (Poll V)) : Wait V :=
  poll helped 0 w.enter script

end Waiter
end Reclaim
