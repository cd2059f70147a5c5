import Reclaim.Domain
import Reclaim.World.Op

/-!
The state that the threads of a program share, and the history of what happened. Addresses are
handed out in ascending order and never twice, so a cell that was freed is never found again.
-/

set_option autoImplicit false

namespace Reclaim

structure Payload (V : Type) where
  value : V
  acts : List (Act V) := []

structure Object (V : Type) where
  name : Name
  acts : List (Act V)

structure Memory (V : Type) where
  objects : Table Address (Object V) := {}
  nodes : Nodes (Payload V) := {}
  fresh : Address := 1

namespace Memory
variable {V : Type}

def allocateObject (m : Memory V) (o : Object V) : Address × Memory V :=
  (m.fresh, { m with objects := m.objects.insert m.fresh o, fresh := m.fresh + 1 })

def allocateNode (m : Memory V) (n : Node (Payload V)) : Address × Memory V :=
  (m.fresh, { m with nodes := m.nodes.insert m.fresh n, fresh := m.fresh + 1 })

/-- From now on destructors do nothing but what destroying a value takes. -/
def withoutActs (m : Memory V) : Memory V :=
  let silence (p : Payload V) : Payload V := { p with acts := [] }
  { m with
    objects := m.objects.map fun o => { o with acts := [] }
    nodes := m.nodes.map fun n =>
      { n with
        slot := match n.slot with
          | .vacant => .vacant
          | .full p => .full (silence p)
          | .claimed p => .claimed (silence p) } }

end Memory

structure RecordEntry where
  address : Address
  retired : Bool := false
  /-- Its destructor has begun. -/
  gone : Bool := false

/-- A hazard pointer with its own copy of the address it protects. -/
structure Hazard where
  record : RecordId
  target : Option Address := none

inductive Phase where
  | running | exiting | exited
  deriving DecidableEq, Repr

structure Thread (V : Type) where
  presence : Presence := .absent
  /-- Done at the end of the thread, after its context is destroyed. -/
  exitActs : List (Act V) := []
  phase : Phase := .running

/-- The attempts to remove a value are numbered in the order in which they begin. -/
abbrev CallId := Nat

/-- The last four constructors are the events a destructor can tell of; the others record what
happens to cells, hazard pointers and queued values. -/
inductive Event (V : Type) where
  | hazardCreated (record : RecordId)
  | hazardDropped (record : RecordId)
  | retired (record : Retired)
  | reclaimed (record : Retired)
  | nodeAllocated (address : Address)
  | nodeFreed (queue : QueueId) (address : Address) (value : Option V)
  | linked (queue : QueueId) (node : Address) (value : V)
  /-- The value left the queue: its node was unlinked, or its slot was claimed in place. -/
  | removed (queue : QueueId) (call : CallId) (node : Address) (value : V)
  /-- A removal ended; it found the queue empty if it has no value. -/
  | returned (queue : QueueId) (call : CallId) (value : Option V)
  | deleterCalled (record : Name)
  | recordDropped (record : Name)
  | valueDropped (value : V)
  | acted (label : Option String) (answer : Answer V)

def Event.isVisible {V : Type} : Event V → Bool
  | .deleterCalled _ | .recordDropped _ | .valueDropped _ | .acted _ _ => true
  | _ => false

structure World (V : Type) where
  domain : Domain := {}
  threads : Table ThreadId (Thread V) := {}
  memory : Memory V := {}
  records : Table Name RecordEntry := {}
  cells : Table Name (Option Address) := {}
  hazards : Table Name Hazard := {}
  queues : Table Name Queue := {}
  nextQueue : QueueId := 0
  nextCall : CallId := 0
  history : List (Event V) := []

namespace World
variable {V : Type}

def thread (w : World V) (t : ThreadId) : Thread V := (w.threads.get? t).getD {}

def site (w : World V) (t : ThreadId) : Site := ⟨w.domain, (w.thread t).presence⟩

def setSite (w : World V) (t : ThreadId) (s : Site) : World V :=
  { w with
    domain := s.domain
    threads := w.threads.insert t { w.thread t with presence := s.presence } }

def setPhase (w : World V) (t : ThreadId) (phase : Phase) : World V :=
  { w with threads := w.threads.insert t { w.thread t with phase } }

def addExitActs (w : World V) (t : ThreadId) (acts : List (Act V)) : World V :=
  let thread := w.thread t
  { w with threads := w.threads.insert t { thread with exitActs := thread.exitActs ++ acts } }

def emit (w : World V) (e : Event V) : World V := { w with history := e :: w.history }

def mapRegistry (w : World V) (f : Registry → Registry) : World V :=
  { w with domain := { w.domain with registry := f w.domain.registry } }

def nameAt (w : World V) (a : Address) : Name :=
  match w.records.entries.find? fun e => e.2.address == a with
  | some e => e.1
  | none => "node"

/-- The address of a record that may be pointed to. -/
def resolve (w : World V) (n : Name) : Except Refusal RecordEntry :=
  match w.records.get? n with
  | none => .error .unknown
  | some e => if e.gone then .error .gone else .ok e

def markRetired (w : World V) (n : Name) : Except Refusal (Address × World V) := do
  let e ← w.resolve n
  if e.retired then .error .alreadyRetired
  .ok (e.address, { w with records := w.records.insert n { e with retired := true } })

/-- Marks records until one is refused; those before it stay marked. -/
def markAllRetired (w : World V) : List (Option Name) → Except Refusal (List Address) × World V
  | [] => (.ok [], w)
  | none :: _ => (.error .badInput, w)
  | some n :: rest =>
    match w.markRetired n with
    | .error r => (.error r, w)
    | .ok (a, w) =>
      match w.markAllRetired rest with
      | (.error r, w) => (.error r, w)
      | (.ok as, w) => (.ok (a :: as), w)

def markGone (w : World V) (n : Name) : World V :=
  { w with records := w.records.modify n fun e => { e with gone := true } }

def setQueue (w : World V) (n : Name) (q : Queue) : World V :=
  { w with queues := w.queues.insert n q }

def setNodes (w : World V) (nodes : Nodes (Payload V)) : World V :=
  { w with memory := { w.memory with nodes } }

/-- The node was unlinked, and its value went with it unless somebody had claimed it before. -/
def noteUnlinked (w : World V) (queue : QueueId) (call : CallId) (a : Address) : World V :=
  match (w.memory.nodes.get? a).bind fun n => n.slot.value? with
  | some p => w.emit (.removed queue call a p.value)
  | none => w

def publish (w : World V) (h : Hazard) (target : Option Address) : Hazard × World V :=
  ({ h with target }, w.mapRegistry fun g => g.protect h.record target)

def createHazard (w : World V) (t : ThreadId) : Except Panic (Hazard × World V) := do
  let (i, s) ← (w.site t).acquireRecord
  .ok ({ record := i }, (w.setSite t s).emit (.hazardCreated i))

/-- The record is released first, so it is free even where the thread cannot remember it. -/
def dropHazard (w : World V) (t : ThreadId) (h : Hazard) : Option Panic × World V :=
  match w.domain.registry.release h.record with
  | .error p => (some p, w)
  | .ok registry =>
    let w := (w.mapRegistry fun _ => registry).emit (.hazardDropped h.record)
    match (w.site t).cacheRecord h.record with
    | .error p => (some p, w)
    | .ok s => (none, w.setSite t s)

end World
end Reclaim
