import Reclaim.World.Step

/-!
A session is a list of instructions to threads, each carried out to its end before the next. At
the end of a session the threads that are left end in ascending order; then the queues are dropped
in the order of their names and what is still abandoned is reclaimed, both without the acts of
destructors.
-/

set_option autoImplicit false

namespace Reclaim

inductive Command (V : Type) where
  | perform (op : Op V)
  | exit (byPanic : Bool)
  | atExit (acts : List (Act V))
  | dropQueue (queue : Name)
  | retireNull

def Command.weight {V : Type} : Command V → Nat
  | perform op => op.weight
  | atExit acts => 1 + weightOfActs acts
  | _ => 1

def Command.endsThread {V : Type} : Command V → Bool
  | exit _ => true
  | _ => false

structure Instruction (V : Type) where
  thread : ThreadId
  command : Command V

structure StepReport (V : Type) where
  /-- Absent if the thread never came back. -/
  answer : Option (Answer V)
  count : Option (Except Panic Nat)
  events : List (Event V)
  active : UInt64
  allocated : UInt64

structure ExitReport (V : Type) where
  thread : ThreadId
  events : List (Event V)
  active : UInt64
  allocated : UInt64

structure EndReport (V : Type) where
  exits : List (ExitReport V)
  queues : List (Event V)
  abandoned : List (Event V)

namespace World
variable {V : Type}

def enrol (w : World V) (t : ThreadId) : World V :=
  { w with threads := w.threads.insert t (w.thread t) }

def start (w : World V) (t : ThreadId) : Command V → Run V
  | .perform op => { world := w, thread := t, control := .perform op }
  | .exit byPanic =>
    { world := w.setPhase t .exiting
      thread := t
      stack := [.leave, .script (w.thread t).exitActs, .leave, .finishExit byPanic]
      control := .resume }
  | .atExit acts => { world := w.addExitActs t acts, thread := t, control := .answer .done }
  | .dropQueue n =>
    match w.queues.get? n with
    | none => { world := w, thread := t, control := .answer (.refused .unknown) }
    | some q =>
      { world := { w with queues := w.queues.erase n }
        thread := t
        stack := [.dropChain q.id q.head, .answering .done]
        control := .resume }
  | .retireNull => { world := w, thread := t, control := .unwind .nullRetired }

def begin (w : World V) (i : Instruction V) : Run V :=
  (w.enrol i.thread).start i.thread i.command

def eventsSince (w before : World V) : List (Event V) :=
  ((w.history.take (w.history.length - before.history.length)).reverse).filter Event.isVisible

def answerOf (m : Run V) : Option (Answer V) :=
  match m.outcome with
  | some (.ok a) => some a
  | some (.error p) => some (.panicked p)
  | none => none

def report (w before : World V) (answer : Option (Answer V)) (count : Option (Except Panic Nat)) :
    StepReport V where
  answer
  count
  events := w.eventsSince before
  active := w.domain.registry.active
  allocated := w.domain.registry.allocated

def count (w : World V) (t : ThreadId) : Except Panic Nat × World V :=
  match (w.site t).retiredCount with
  | .error p => (.error p, w)
  | .ok (n, s) => (.ok n, w.setSite t s)

def execute (fuel : Nat) (watch : Bool) (w : World V) :
    Option (Instruction V) → StepReport V × World V
  | none => (w.report w (some (.refused .badInput)) none, w)
  | some i =>
    if (w.thread i.thread).phase = .exited then
      (w.report w (some (.refused .exited)) none, w)
    else
      let m := (w.begin i).complete fuel
      if watch && !i.command.endsThread then
        let (n, after) := m.world.count i.thread
        (after.report w (answerOf m) (some n), after)
      else
        (m.world.report w (answerOf m) none, m.world)

def executeAll (fuel : Nat) (watch : Bool) (w : World V) :
    List (Option (Instruction V)) → List (StepReport V) × World V
  | [] => ([], w)
  | i :: rest =>
    let (report, w) := w.execute fuel watch i
    let (reports, w) := w.executeAll fuel watch rest
    (report :: reports, w)

def remainingThreads (w : World V) : List ThreadId :=
  w.threads.keys.filter fun t => (w.thread t).phase != .exited

def exitAll (fuel : Nat) (w : World V) : List ThreadId → List (ExitReport V) × World V
  | [] => ([], w)
  | t :: rest =>
    let after := ((w.start t (.exit false)).complete fuel).world
    let g := after.domain.registry
    let (reports, last) := after.exitAll fuel rest
    (⟨t, after.eventsSince w, g.active, g.allocated⟩ :: reports, last)

def dropQueues (fuel : Nat) (w : World V) : List Name → World V
  | [] => w
  | n :: rest => ((w.start 0 (.dropQueue n)).complete fuel).world.dropQueues fuel rest

def reclaimAbandoned (fuel : Nat) (w : World V) : World V :=
  let m : Run V :=
    { world := { w with domain := { w.domain with abandoned := {} } }
      thread := 0
      stack := [.reclaim w.domain.abandoned.records, .answering .done]
      control := .resume }
  (m.complete fuel).world

def finish (fuel : Nat) (w : World V) : EndReport V :=
  let (exits, ended) := w.exitAll fuel w.remainingThreads
  let silent := { ended with memory := ended.memory.withoutActs }
  let dropped := silent.dropQueues fuel silent.queues.keys
  let reclaimed := dropped.reclaimAbandoned fuel
  { exits, queues := dropped.eventsSince silent, abandoned := reclaimed.eventsSince dropped }

end World

/-- Steps that are enough for every instruction of a session: an operation takes a few steps of its
own, and a few for each record that it reclaims and each removal that it makes. -/
def sessionFuel {V : Type} (l : List (Option (Instruction V))) : Nat :=
  let weights := l.map fun i => i.elim 1 fun i => i.command.weight
  64 * weights.foldl (· + ·) 1

def runSession {V : Type} (watch : Bool) (l : List (Option (Instruction V))) :
    List (StepReport V) × EndReport V :=
  let fuel := sessionFuel l
  let (reports, w) := ({} : World V).executeAll fuel watch l
  (reports, w.finish fuel)

end Reclaim
