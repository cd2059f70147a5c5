import Reclaim.World.State

/-!
One thread in the midst of its work: the operation it is at, and the suspended work below it, the
innermost first. Destructors run while a reclamation, a removal or the end of a queue or of a
thread is suspended; nothing else is ever interrupted.
-/

set_option autoImplicit false

namespace Reclaim

inductive EnqueueStage where
  | start
  /-- The node is allocated and the tail may be protected. -/
  | link (hazard : Hazard) (node : Address)

/-- The values that follow in a sequence of insertions: `value i` for every `i` from `next` up to
but not including `stop`. -/
structure Supply (V : Type) where
  value : Nat → V
  next : Nat := 0
  stop : Nat

def Supply.take? {V : Type} (s : Supply V) : Option (V × Supply V) :=
  if s.next < s.stop then some (s.value s.next, { s with next := s.next + 1 }) else none

structure EnqueueFrame (V : Type) where
  queue : Name
  stage : EnqueueStage := .start
  current : Payload V
  rest : Supply V
  answer : Answer V

inductive Goal (V : Type) where
  | once
  /-- As many more removals as `left` says, after those that gave `found` (the last one first). -/
  | several (left : Nat) (found : List (Option V))
  /-- Until there is a value. On a condition variable the thread parks while the epoch is still the
  one it has read. -/
  | blocking (epoch : Option UInt64)

inductive DequeueStage where
  | start
  | round (call : CallId) (hazard : Hazard)
  | unlinked (call : CallId) (hazard : Hazard) (node : Address)

structure DequeueFrame (V : Type) where
  queue : Name
  stage : DequeueStage := .start
  goal : Goal V

inductive Frame (V : Type) where
  | script (acts : List (Act V))
  | acting (label : Option String) (rest : List (Act V))
  | reclaim (rest : List Retired)
  | answering (a : Answer V)
  | enqueue (e : EnqueueFrame V)
  | dequeue (d : DequeueFrame V)
  | dropChain (queue : QueueId) (next : Option Address)
  | leave
  | abandonRest (bag : Bag)
  | finishExit (byPanic : Bool)

inductive Control (V : Type) where
  | perform (op : Op V)
  | resume
  | answer (a : Answer V)
  | unwind (p : Panic)
  /-- The thread waits for a notification that nobody is left to send. -/
  | parked
  | dangling (a : Address)

structure Run (V : Type) where
  world : World V
  thread : ThreadId
  stack : List (Frame V) := []
  control : Control V

namespace Run
variable {V : Type}

def answer (m : Run V) (a : Answer V) : Run V := { m with control := .answer a }

def refuse (m : Run V) (r : Refusal) : Run V := m.answer (.refused r)

def unwind (m : Run V) (p : Panic) : Run V := { m with control := .unwind p }

def resume (m : Run V) : Run V := { m with control := .resume }

def fault (m : Run V) (a : Address) : Run V := { m with control := .dangling a }

def push (m : Run V) (f : Frame V) : Run V := { m with stack := f :: m.stack }

def withWorld (m : Run V) (w : World V) : Run V := { m with world := w }

def emit (m : Run V) (e : Event V) : Run V := m.withWorld (m.world.emit e)

def site (m : Run V) : Site := m.world.site m.thread

def setSite (m : Run V) (s : Site) : Run V := m.withWorld (m.world.setSite m.thread s)

/-- An operation of a destructor, or of the end of a thread. -/
def inAct (m : Run V) : Bool := !m.stack.isEmpty

/-- Reclaims the records one by one and answers when all of them are reclaimed. -/
def reclaiming (m : Run V) (rs : List Retired) (a : Answer V) : Run V :=
  ((m.push (.answering a)).push (.reclaim rs)).resume

def isExiting (m : Run V) : Bool := (m.world.thread m.thread).phase == .exiting

def Frame.usesQueue (q : Name) : Frame V → Bool
  | .enqueue e => e.queue == q
  | .dequeue d => d.queue == q
  | _ => false

def isBusy (m : Run V) (q : Name) : Bool := m.stack.any (Frame.usesQueue q)

def outcome (m : Run V) : Option (Except Panic (Answer V)) :=
  match m.stack, m.control with
  | [], .answer a => some (.ok a)
  | [], .unwind p => some (.error p)
  | _, _ => none

end Run
end Reclaim
