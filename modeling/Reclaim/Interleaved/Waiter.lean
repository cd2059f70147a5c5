import Reclaim.Waiter
import Reclaim.Table

/-!
Consumers that wait for a value and producers that notify them, one access at a time. The queue
between them is only counted here: an insertion and a poll are one step each. A notification that
finds sleepers moves the epoch on and signals one parked consumer, if there is one; a parked
consumer may also wake up without a signal. A consumer that has woken up parks again while the
epoch is the one it has read.
-/

set_option autoImplicit false

namespace Reclaim.Interleaved

inductive Waiting where
  | register
  | readEpoch
  | poll (epoch : UInt64)
  | check (epoch : UInt64)
  | parked (epoch : UInt64)
  | woken (epoch : UInt64)
  | unregister
  deriving DecidableEq, Repr

namespace Waiting

def polled (epoch : UInt64) (found : Bool) : Waiting :=
  if found then unregister else check epoch

/-- With the lock held: parks only while the epoch is unchanged. -/
def recheck (w : Waiter) (epoch : UInt64) : Waiting :=
  if w.epoch = epoch then parked epoch else readEpoch

end Waiting

inductive Notifying where
  | readSleepers
  | signal
  deriving DecidableEq, Repr

structure WaiterState where
  waiter : Waiter := {}
  values : Nat := 0
  consumers : Table ThreadId Waiting := {}
  producers : Table ThreadId Notifying := {}

inductive WaiterMove where
  | wait (c : ThreadId)
  | consume (c : ThreadId)
  | wake (c : ThreadId)
  | insert (p : ThreadId)
  /-- The next access of a producer; a signal goes to `target` if it is parked, and to any other
  parked consumer otherwise. -/
  | notify (p : ThreadId) (target : ThreadId)

namespace WaiterState

def isParked (s : WaiterState) (c : ThreadId) : Bool :=
  match s.consumers.get? c with
  | some (.parked _) => true
  | _ => false

def setConsumer (s : WaiterState) (c : ThreadId) (w : Waiting) : WaiterState :=
  { s with consumers := s.consumers.insert c w }

def wakeUp (s : WaiterState) (c : ThreadId) : WaiterState :=
  match s.consumers.get? c with
  | some (.parked e) => s.setConsumer c (.woken e)
  | _ => s

def signal (s : WaiterState) (target : ThreadId) : WaiterState :=
  if s.isParked target then s.wakeUp target
  else
    match s.consumers.keys.find? s.isParked with
    | some c => s.wakeUp c
    | none => s

def consume (s : WaiterState) (c : ThreadId) : Waiting → WaiterState
  | .register => { s with waiter := s.waiter.enter }.setConsumer c .readEpoch
  | .readEpoch => s.setConsumer c (.poll s.waiter.epoch)
  | .poll e =>
    if s.values = 0 then s.setConsumer c (.polled e false)
    else { s with values := s.values - 1 }.setConsumer c (.polled e true)
  | .check e => s.setConsumer c (.recheck s.waiter e)
  | .parked _ => s
  | .woken e => s.setConsumer c (.recheck s.waiter e)
  | .unregister => { s with waiter := s.waiter.leave, consumers := s.consumers.erase c }

def notify (s : WaiterState) (p target : ThreadId) : Notifying → WaiterState
  | .readSleepers =>
    if 0 < s.waiter.sleepers then { s with producers := s.producers.insert p .signal }
    else { s with producers := s.producers.erase p }
  | .signal =>
    { s with
      waiter := { s.waiter with epoch := s.waiter.epoch + 1 }
      producers := s.producers.erase p }.signal target

def move (s : WaiterState) : WaiterMove → WaiterState
  | .wait c =>
    match s.consumers.get? c with
    | some _ => s
    | none => s.setConsumer c .register
  | .consume c =>
    match s.consumers.get? c with
    | some w => s.consume c w
    | none => s
  | .wake c => s.wakeUp c
  | .insert p =>
    match s.producers.get? p with
    | some _ => s
    | none =>
      { s with values := s.values + 1, producers := s.producers.insert p .readSleepers }
  | .notify p target =>
    match s.producers.get? p with
    | some n => s.notify p target n
    | none => s

inductive Reachable : WaiterState → Prop where
  | initial : Reachable {}
  | move {s : WaiterState} (m : WaiterMove) : Reachable s → Reachable (s.move m)

end WaiterState
end Reclaim.Interleaved
