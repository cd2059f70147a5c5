import Reclaim.Interleaved.Queue
import Reclaim.Interleaved.Waiter
import Reclaim.Registry

/-!
A trial of a queue between producers and consumers. Every producer inserts its own number with
the numbers from zero on, and the consumers remove all of them. The threads take turns, one access
at a time, and every queue operation holds a hazard record while it is under way.
-/

set_option autoImplicit false

namespace Reclaim.Trial
open Interleaved

structure PipeSetup where
  strategy : WaitStrategy
  /-- Consumers remove their share with blocking removals; otherwise they try until all is gone. -/
  block : Bool
  producers : Nat
  consumers : Nat
  perProducer : Nat

namespace PipeSetup

def total (p : PipeSetup) : Nat := p.producers * p.perProducer

/-- The share of a consumer; the first consumers have one more if the shares are not equal. -/
def share (p : PipeSetup) (consumer : Nat) : Nat :=
  p.total / p.consumers + if consumer < p.total % p.consumers then 1 else 0

def waitsOnCondition (p : PipeSetup) : Bool := p.block && p.strategy == .condvar

end PipeSetup

abbrev Item := Nat × Nat

inductive ProducerStage where
  | idle
  | inserting (record : RecordId)
  | notifying (next : Notifying)

structure Producer where
  number : Nat
  sent : Nat := 0
  stage : ProducerStage := .idle

inductive ConsumerStage where
  | idle
  | waiting (next : Waiting)
  /-- A removal is under way, in a wait since this epoch if there is one. -/
  | removing (record : RecordId) (epoch : Option UInt64)

structure Consumer where
  thread : ThreadId
  left : Nat
  received : List Item := []
  stage : ConsumerStage := .idle

structure Pipe where
  queue : QueueState Item := QueueState.initial
  registry : Registry := {}
  waiter : Waiter := {}
  producers : List Producer
  consumers : List Consumer
  consumed : Nat := 0

namespace Pipe

def ofSetup (p : PipeSetup) : Pipe where
  producers := (List.range p.producers).map fun number => { number }
  consumers := (List.range p.consumers).map fun i =>
    { thread := p.producers + i, left := p.share i }

def resultOf (q : QueueState Item) (t : ThreadId) : Option (Option Item) :=
  match q.pending.get? t, q.history with
  | none, .returned _ found :: _ => some (found.map (·.2))
  | none, .inserted _ :: _ => some none
  | _, _ => none

/-- A release never fails here: only records that were taken before are released. -/
def giveBack (g : Registry) (i : RecordId) : Registry := (g.release i).toOption.getD g

def wakeFirst : List Consumer → List Consumer
  | [] => []
  | c :: rest =>
    match c.stage with
    | .waiting (.parked e) => { c with stage := .waiting (.woken e) } :: rest
    | _ => c :: wakeFirst rest

def begin (s : Pipe) (m : QueueMove Item) : RecordId × Pipe :=
  let (i, registry) := s.registry.activated
  (i, { s with registry, queue := s.queue.move m })

def stepProducer (setup : PipeSetup) (s : Pipe) (p : Producer) : Producer × Pipe :=
  match p.stage with
  | .idle =>
    if p.sent < setup.perProducer then
      let (i, s) := s.begin (.enqueue p.number (p.number, p.sent))
      ({ p with stage := .inserting i, sent := p.sent + 1 }, s)
    else (p, s)
  | .inserting i =>
    let queue := s.queue.move (.step p.number)
    match resultOf queue p.number with
    | none => (p, { s with queue })
    | some _ =>
      let stage := match setup.strategy with
        | .condvar => .notifying .readSleepers
        | .yield => .idle
      ({ p with stage }, { s with queue, registry := giveBack s.registry i })
  | .notifying .readSleepers =>
    if 0 < s.waiter.sleepers then ({ p with stage := .notifying .signal }, s)
    else ({ p with stage := .idle }, s)
  | .notifying .signal =>
    ({ p with stage := .idle },
      { s with
        waiter := { s.waiter with epoch := s.waiter.epoch + 1 }
        consumers := wakeFirst s.consumers })

def isSatisfied (setup : PipeSetup) (s : Pipe) (c : Consumer) : Bool :=
  if setup.block then c.left == 0 else s.consumed == setup.total

def receive (c : Consumer) (epoch : Option UInt64) (v : Option Item) : Consumer where
  thread := c.thread
  left := if v.isSome then c.left - 1 else c.left
  received := v.toList ++ c.received
  stage := match epoch with
    | none => .idle
    | some e => .waiting (.polled e v.isSome)

def stepConsumer (setup : PipeSetup) (s : Pipe) (c : Consumer) : Consumer × Pipe :=
  match c.stage with
  | .idle =>
    if s.isSatisfied setup c then (c, s)
    else if setup.waitsOnCondition then ({ c with stage := .waiting .register }, s)
    else
      let (i, s) := s.begin (.dequeue c.thread)
      ({ c with stage := .removing i none }, s)
  | .removing i epoch =>
    let queue := s.queue.move (.step c.thread)
    match resultOf queue c.thread with
    | none => (c, { s with queue })
    | some v =>
      let consumed := if v.isSome then s.consumed + 1 else s.consumed
      (receive c epoch v, { s with queue, consumed, registry := giveBack s.registry i })
  | .waiting .register =>
    ({ c with stage := .waiting .readEpoch }, { s with waiter := s.waiter.enter })
  | .waiting .readEpoch => ({ c with stage := .waiting (.poll s.waiter.epoch) }, s)
  | .waiting (.poll e) =>
    let (i, s) := s.begin (.dequeue c.thread)
    ({ c with stage := .removing i (some e) }, s)
  | .waiting (.check e) => ({ c with stage := .waiting (.recheck s.waiter e) }, s)
  | .waiting (.parked _) => (c, s)
  | .waiting (.woken e) => ({ c with stage := .waiting (.recheck s.waiter e) }, s)
  | .waiting .unregister => ({ c with stage := .idle }, { s with waiter := s.waiter.leave })

def turn (setup : PipeSetup) (s : Pipe) : Pipe :=
  let s := (List.range setup.producers).foldl (fun s k =>
    match s.producers[k]? with
    | some p =>
      let (p, s) := s.stepProducer setup p
      { s with producers := s.producers.set k p }
    | none => s) s
  (List.range setup.consumers).foldl (fun s k =>
    match s.consumers[k]? with
    | some c =>
      let (c, s) := s.stepConsumer setup c
      { s with consumers := s.consumers.set k c }
    | none => s) s

def isOver (setup : PipeSetup) (s : Pipe) : Bool :=
  let sent := s.producers.all fun p =>
    match p.stage with
    | .idle => p.sent == setup.perProducer
    | _ => false
  sent && s.consumers.all fun c =>
    match c.stage with
    | .idle => s.isSatisfied setup c
    | _ => false

def run (setup : PipeSetup) : (fuel : Nat) → Pipe → Pipe
  | 0, s => s
  | fuel + 1, s => if s.isOver setup then s else run setup fuel (s.turn setup)

def tryDequeue (t : ThreadId) : (fuel : Nat) → QueueState Item → Option Item
  | 0, _ => none
  | fuel + 1, q =>
    let q := q.move (.step t)
    match resultOf q t with
    | some v => v
    | none => tryDequeue t fuel q

end Pipe

structure PipeReport where
  received : List Item
  inOrder : Bool
  length : Nat
  next : Option Item
  active : UInt64

/-- Every producer's values come in increasing order. Sorting by producers keeps the order of each
producer's values. -/
def isInOrder (received : List Item) : Bool :=
  let sorted := received.mergeSort fun a b => decide (a.1 ≤ b.1)
  (sorted.zip sorted.tail).all fun n => n.1.1 != n.2.1 || n.1.2 < n.2.2

def runPipe (setup : PipeSetup) : PipeReport :=
  let turns := 64 * (setup.total + setup.producers + setup.consumers + 1)
  let s := (Pipe.ofSetup setup).run setup turns
  let t := setup.producers + setup.consumers
  { received := (s.consumers.flatMap (·.received)).mergeSort fun a b =>
      decide (a.1 < b.1) || (a.1 == b.1 && decide (a.2 ≤ b.2))
    inOrder := s.consumers.all fun c => isInOrder c.received.reverse
    length := s.queue.shared.queue.size
    next := Pipe.tryDequeue t 64 (s.queue.move (.dequeue t))
    active := s.registry.active }

end Reclaim.Trial
