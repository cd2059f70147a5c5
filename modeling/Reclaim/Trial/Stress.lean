import Reclaim.Config
import Reclaim.Interleaved.Protection

/-!
A trial of hazard pointers against reclamation. Every thread protects what the one shared cell
holds, swaps in something new, retires what it swapped out and looks twice whether what it protects
was reclaimed. The threads take turns, one access at a time. At the end of a thread its bag is
scanned once more and what is left is abandoned; a fresh thread flushes what all of them left.
-/

set_option autoImplicit false

namespace Reclaim.Trial
open Interleaved

inductive StressStage where
  | start
  | acquire
  | examine
  | swap
  | retire
  | scan
  | examineAgain
  | withdraw
  | deactivate
  | adopt
  | lastScan
  | leave
  | over
  deriving DecidableEq, Repr

structure StressThread where
  number : ThreadId
  left : Nat
  stage : StressStage := .start
  valid : Bool := true

structure Stress where
  state : ProtectionState
  fresh : Address
  threads : List StressThread

namespace Stress

/-- The one cell, and a thread for what comes before and after the others. -/
def cell : CellId := 0

def ofSetup (threads iterations : Nat) : Stress where
  state := ({} : ProtectionState).move (.reclaim threads (.swap cell (some 1)))
  fresh := 2
  threads := (List.range threads).map fun number => { number, left := iterations }

def guard (s : Stress) (t : StressThread) (m : GuardMove) : Stress :=
  { s with state := s.state.move (.guard t.number m) }

def reclaim (s : Stress) (t : StressThread) (m : ReclaimMove) : Stress :=
  { s with state := s.state.move (.reclaim t.number m) }

/-- What a thread protects was not reclaimed: it is in the cell, or on its way from there. -/
def isIntact (s : Stress) (t : StressThread) : Bool :=
  match s.state.hazards.get? t.number with
  | some (.holding _ (some a)) => s.state.inUse.contains a
  | _ => false

def findRecord (s : Stress) : GuardMove :=
  let g := s.state.registry
  match g.numbers.find? fun i => !g.isActive i with
  | some i => .capture i
  | none => .prepend

def stepGuard (s : Stress) (t : StressThread) : Stress × StressStage :=
  match s.state.hazards.get? t.number with
  | none => (s.guard t .create, t.stage)
  | some .searching => (s.guard t s.findRecord, t.stage)
  | some (.idle _) =>
    if t.stage = .start then (s, if t.left = 0 then .withdraw else .acquire)
    else (s.guard t (.load cell), t.stage)
  | some (.loaded _ _ _) => (s.guard t .publish, t.stage)
  | some (.published _ _ _) => (s.guard t .confirm, t.stage)
  | _ => (s, .examine)

/-- The accesses of a scan one after the other; it is over when none is under way. -/
def stepScan (s : Stress) (t : StressThread) (after : StressStage) : Stress × StressStage :=
  match (s.state.reclaimer t.number).scan with
  | some (_ + 1, _) => (s.reclaim t .readRecord, t.stage)
  | some (0, _) => (s.reclaim t .endScan, after)
  | none => (s.reclaim t .beginScan, t.stage)

def isScanDue (s : Stress) (t : StressThread) : Bool :=
  Config.default.isScanDue (s.state.reclaimer t.number).bag.size s.state.registry.active.toNat

def step (s : Stress) (t : StressThread) : StressThread × Stress :=
  let moved (r : Stress × StressStage) : StressThread × Stress := ({ t with stage := r.2 }, r.1)
  match t.stage with
  | .start | .acquire => moved (s.stepGuard t)
  | .examine => ({ t with stage := .swap, valid := t.valid && s.isIntact t }, s)
  | .swap =>
    let s' := s.reclaim t (.swap cell (some s.fresh))
    ({ t with stage := .retire }, { s' with fresh := s.fresh + 1 })
  | .retire =>
    match (s.state.reclaimer t.number).unlinked with
    | a :: _ => moved (s.reclaim t (.retire a), .scan)
    | [] => moved (s, .examineAgain)
  | .scan =>
    if (s.state.reclaimer t.number).scan.isSome || s.isScanDue t then
      moved (s.stepScan t .examineAgain)
    else moved (s, .examineAgain)
  | .examineAgain =>
    ({ t with stage := .start, left := t.left - 1, valid := t.valid && s.isIntact t },
      s.guard t .reset)
  | .withdraw => moved (s.guard t .withdraw, .deactivate)
  | .deactivate => moved (s.guard t .deactivate, .adopt)
  | .adopt =>
    let s' := s.reclaim t .adopt
    moved (s', if (s'.state.reclaimer t.number).bag.isEmpty then .over else .lastScan)
  | .lastScan => moved (s.stepScan t .leave)
  | .leave =>
    if (s.state.reclaimer t.number).bag.isEmpty then moved (s, .over)
    else moved (s.reclaim t .abandon, .over)
  | .over => (t, s)

def turn (s : Stress) : Stress :=
  (List.range s.threads.length).foldl (fun s k =>
    match s.threads[k]? with
    | some t =>
      let (t, s) := s.step t
      { s with threads := s.threads.set k t }
    | none => s) s

def isOver (s : Stress) : Bool := s.threads.all fun t => t.stage == .over

def run : (fuel : Nat) → Stress → Stress
  | 0, s => s
  | fuel + 1, s => if s.isOver then s else run fuel s.turn

def flush : (fuel : Nat) → StressThread → Stress → Stress
  | 0, _, s => s
  | fuel + 1, t, s =>
    match t.stage with
    | .adopt | .lastScan => let (t, s) := s.step t; flush fuel t s
    | _ => s

def reclaimedCount (s : Stress) : Nat :=
  (s.state.history.filter fun e =>
    match e with
    | .reclaimed _ _ => true
    | _ => false).length

end Stress

structure StressReport where
  valid : Bool
  dropped : Nat
  retired : Nat
  active : UInt64

/-- What the cell holds at the end is dropped without being retired. -/
def runStress (threads iterations : Nat) : StressReport :=
  let records := threads + 4
  let s := (Stress.ofSetup threads iterations).run (64 * (iterations + 4) * records)
  let last : StressThread := { number := threads + 1, left := 0, stage := .adopt }
  let emptied := s.reclaim last (.swap Stress.cell none)
  let s := emptied.flush (64 * records) last
  { valid := s.threads.all (·.valid)
    dropped := s.reclaimedCount + (s.state.reclaimer last.number).unlinked.length
    retired := (s.state.reclaimer last.number).bag.size
    active := s.state.registry.active }

end Reclaim.Trial
