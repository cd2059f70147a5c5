import Reclaim.Queue

/-!
Insertions and removals on one queue by any number of threads, one access at a time. Every access
to a word that threads share is a step of its own: the words `head` and `tail`, the link of a
node, the flag of its slot and the two counters. Nodes are never freed here, so a node that a
pending operation holds stays what it is. Publishing a hazard touches no word of the queue and
is left out; the second reading of the word, which confirms a hazard, is there.

The history records what the statements about order speak of. A value is removed when its slot is
claimed while its node is the head, or when its node is unlinked with the value in it.
-/

set_option autoImplicit false

namespace Reclaim.Interleaved

structure Shared (V : Type) where
  queue : Queue
  nodes : Nodes V := {}

inductive Enqueuing where
  | readTail
  | confirmTail (seen : Option Address)
  | link (tail : Address)
  /-- The node was linked behind `tail` if `linked`, and otherwise `next` was found there. -/
  | advance (tail next : Address) (linked : Bool)
  | count

/-- The next access of a removal. `alone` is true where head and tail were found equal. -/
inductive Dequeuing where
  | readHead
  | confirmHead (seen : Option Address)
  | readTail (head : Address)
  | test (head : Address) (alone : Bool)
  | claim (head : Address) (alone : Bool)
  | readNext (head : Address) (alone : Bool)
  | advance (head next : Address)
  | unlink (head next : Address)
  | count (node : Address)
  | take (node : Address)

inductive Operation where
  | enqueue (node : Address) (next : Enqueuing)
  | dequeue (next : Dequeuing)

inductive QueueEvent (V : Type) where
  | begun (t : ThreadId) (offer : Option (Address × V))
  | linked (node : Address) (v : V)
  | removed (node : Address) (v : V)
  | returned (t : ThreadId) (found : Option (Address × V))
  | inserted (t : ThreadId)

inductive Progress (σ V : Type) where
  | next (s : σ)
  | returned (found : Option (Address × V))
  | inserted

namespace Shared
variable {V : Type}

def slotOf (s : Shared V) (a : Address) : Slot V := ((s.nodes.get? a).map (·.slot)).getD .vacant

def setSlot (s : Shared V) (a : Address) (slot : Slot V) : Shared V :=
  { s with nodes := s.nodes.modify a fun n => { n with slot } }

def nextOf (s : Shared V) (a : Address) : Option Address := (s.nodes.get? a).bind (·.next)

def setNext (s : Shared V) (a next : Address) : Shared V :=
  { s with nodes := s.nodes.modify a fun n => { n with next := some next } }

def mapQueue (s : Shared V) (f : Queue → Queue) : Shared V := { s with queue := f s.queue }

def values (s : Shared V) : List V := (s.queue.values s.nodes).getD []

end Shared

variable {V : Type}

def Enqueuing.step (s : Shared V) (node : Address) :
    Enqueuing → Progress Enqueuing V × Shared V × List (QueueEvent V)
  | readTail => (.next (confirmTail s.queue.tail), s, [])
  | confirmTail seen =>
    if s.queue.tail = seen then
      match seen with
      | some t => (.next (link t), s, [])
      | none => (.next readTail, s, [])
    else (.next (confirmTail s.queue.tail), s, [])
  | link t =>
    match s.nextOf t with
    | none =>
      (.next (advance t node true), s.setNext t node,
        (s.slotOf node).value?.toList.map fun v => .linked node v)
    | some next => (.next (advance t next false), s, [])
  | advance t next linked =>
    (.next (if linked then count else readTail), s.mapQueue (·.advanceTail t next), [])
  | count => (.inserted, s.mapQueue fun q => { q with inserted := q.inserted + 1 }, [])

def Dequeuing.step (s : Shared V) :
    Dequeuing → Progress Dequeuing V × Shared V × List (QueueEvent V)
  | readHead => (.next (confirmHead s.queue.head), s, [])
  | confirmHead seen =>
    if s.queue.head = seen then
      match seen with
      | some h => (.next (readTail h), s, [])
      | none => (.next readHead, s, [])
    else (.next (confirmHead s.queue.head), s, [])
  | readTail h =>
    if s.queue.tail = some h then (.next (test h true), s, [])
    else (.next (readNext h false), s, [])
  | test h alone =>
    if (s.slotOf h).isValid then (.next (claim h alone), s, [])
    else (.next (if alone then readNext h true else readHead), s, [])
  | claim h alone =>
    match (s.slotOf h).claim with
    | (true, slot) =>
      let gone := if s.queue.head = some h then (s.slotOf h).value?.toList else []
      (.next (count h), s.setSlot h slot, gone.map fun v => .removed h v)
    | (false, _) => (.next (if alone then readNext h true else readHead), s, [])
  | readNext h alone =>
    match s.nextOf h with
    | none => if alone then (.returned none, s, []) else (.next readHead, s, [])
    | some next => (.next (if alone then advance h next else unlink h next), s, [])
  | advance h next => (.next readHead, s.mapQueue (·.advanceTail h next), [])
  | unlink h next =>
    match s.queue.exchangeHead h next with
    | some queue =>
      (.next (test h false), { s with queue },
        (s.slotOf h).value?.toList.map fun v => .removed h v)
    | none => (.next readHead, s, [])
  | count h => (.next (take h), s.mapQueue fun q => { q with removed := q.removed + 1 }, [])
  | take h =>
    let (v, slot) := (s.slotOf h).take
    (.returned (v.map fun v => (h, v)), s.setSlot h slot, [])

structure QueueState (V : Type) where
  shared : Shared V
  pending : Table ThreadId Operation := {}
  fresh : Address
  history : List (QueueEvent V) := []

inductive QueueMove (V : Type) where
  | enqueue (t : ThreadId) (v : V)
  | dequeue (t : ThreadId)
  | step (t : ThreadId)

namespace QueueState

def initial : QueueState V where
  shared :=
    { queue := Queue.create 0 1 .yield
      nodes := ({} : Nodes V).insert 1 {} }
  fresh := 2

def begin (s : QueueState V) (t : ThreadId) (o : Operation) (offer : Option (Address × V)) :
    QueueState V :=
  { s with pending := s.pending.insert t o, history := .begun t offer :: s.history }

def settle {σ : Type} (s : QueueState V) (t : ThreadId) (wrap : σ → Operation) :
    Progress σ V × Shared V × List (QueueEvent V) → QueueState V
  | (.next o, shared, events) =>
    { s with shared, pending := s.pending.insert t (wrap o), history := events ++ s.history }
  | (.returned v, shared, events) =>
    { s with
      shared
      pending := s.pending.erase t
      history := .returned t v :: (events ++ s.history) }
  | (.inserted, shared, events) =>
    { s with
      shared
      pending := s.pending.erase t
      history := .inserted t :: (events ++ s.history) }

/-- A move that is not possible changes nothing. -/
def move (s : QueueState V) : QueueMove V → QueueState V
  | .enqueue t v =>
    match s.pending.get? t with
    | some _ => s
    | none =>
      let nodes := s.shared.nodes.insert s.fresh { slot := .full v }
      { s with shared := { s.shared with nodes }, fresh := s.fresh + 1 }.begin t
        (.enqueue s.fresh .readTail) (some (s.fresh, v))
  | .dequeue t =>
    match s.pending.get? t with
    | some _ => s
    | none => s.begin t (.dequeue .readHead) none
  | .step t =>
    match s.pending.get? t with
    | none => s
    | some (.enqueue node next) => s.settle t (.enqueue node) (next.step s.shared node)
    | some (.dequeue next) => s.settle t .dequeue (next.step s.shared)

inductive Reachable : QueueState V → Prop where
  | initial : Reachable initial
  | move {s : QueueState V} (m : QueueMove V) : Reachable s → Reachable (s.move m)

end QueueState
end Reclaim.Interleaved
