import Reclaim.Abandoned
import Reclaim.Registry
import Reclaim.Table
import Reclaim.Waiter

/-!
Hazard pointers, shared cells and scans of any number of threads, one access at a time. A hazard
pointer is acquired by loading a cell, publishing what was there and loading the cell again; a
scan reads the number of records and then one target after the other, from the newest record on,
while records are captured, released and added. A hazard pointer belongs to no thread here: any
move on it may be made at any time.

A pointer that is put into a cell is one that is not in use anywhere. From there on it is
swapped out, possibly passed on to other threads, retired once by the thread that has it, and
reclaimed at the end of a scan that has not seen it.
-/

set_option autoImplicit false

namespace Reclaim.Interleaved

abbrev HazardId := Nat

abbrev CellId := Nat

inductive Guarding where
  | searching
  /-- Nothing that its record announces was found in a cell afterwards. -/
  | idle (record : RecordId)
  | loaded (record : RecordId) (cell : CellId) (target : Option Address)
  | published (record : RecordId) (cell : CellId) (target : Option Address)
  /-- The cell held the target after it was published. -/
  | holding (record : RecordId) (target : Option Address)
  | withdrawn (record : RecordId)
  deriving DecidableEq, Repr

structure Reclaimer where
  /-- Swapped out and not retired yet. -/
  unlinked : List Address := []
  bag : Bag := Bag.empty
  /-- How many records a scan has still to read, and what it has seen. -/
  scan : Option (Nat × List Address) := none

inductive ProtectionEvent where
  | held (h : HazardId) (target : Option Address)
  | retired (t : ThreadId) (a : Address)
  | reclaimed (t : ThreadId) (a : Address)
  deriving DecidableEq, Repr

structure ProtectionState where
  registry : Registry := {}
  cells : Table CellId (Option Address) := {}
  hazards : Table HazardId Guarding := {}
  reclaimers : Table ThreadId Reclaimer := {}
  abandoned : Abandoned := {}
  history : List ProtectionEvent := []

inductive GuardMove where
  | create
  /-- Tries to take one record, which may have been found in a cache or in the registry. -/
  | capture (i : RecordId)
  | prepend
  | load (c : CellId)
  | publish
  | confirm
  /-- Publishes what was not loaded from a cell and is not looked for there. -/
  | announce (a : Option Address)
  | reset
  | withdraw
  | deactivate

inductive ReclaimMove where
  | swap (c : CellId) (new : Option Address)
  /-- Leaves a pointer that was swapped out to another thread. -/
  | pass (a : Address) (receiver : ThreadId)
  | retire (a : Address)
  | beginScan
  | readRecord
  | endScan
  | abandon
  | adopt

inductive ProtectionMove where
  | guard (h : HazardId) (m : GuardMove)
  | reclaim (t : ThreadId) (m : ReclaimMove)

namespace ProtectionState

def reclaimer (s : ProtectionState) (t : ThreadId) : Reclaimer := (s.reclaimers.get? t).getD {}

def setReclaimer (s : ProtectionState) (t : ThreadId) (r : Reclaimer) : ProtectionState :=
  { s with reclaimers := s.reclaimers.insert t r }

def setHazard (s : ProtectionState) (h : HazardId) (g : Guarding) : ProtectionState :=
  { s with hazards := s.hazards.insert h g }

def cellContent (s : ProtectionState) (c : CellId) : Option Address := (s.cells.get? c).getD none

/-- The addresses of pointers that were put into a cell and not reclaimed since. -/
def inUse (s : ProtectionState) : List Address :=
  s.cells.values.filterMap id ++
    s.reclaimers.values.flatMap (fun r => r.unlinked ++ r.bag.records.map (·.address)) ++
    s.abandoned.records.map (·.address)

def guard (s : ProtectionState) (h : HazardId) (m : GuardMove) : ProtectionState :=
  match s.hazards.get? h, m with
  | none, .create => s.setHazard h .searching
  | some .searching, .capture i =>
    match s.registry.tryCapture i with
    | (true, registry) => { s with registry }.setHazard h (.idle i)
    | (false, _) => s
  | some .searching, .prepend =>
    let (i, registry) := s.registry.allocate
    { s with registry }.setHazard h (.idle i)
  | some (.idle i), .load c | some (.holding i _), .load c =>
    s.setHazard h (.loaded i c (s.cellContent c))
  | some (.loaded i c a), .publish =>
    { s with registry := s.registry.protect i a }.setHazard h (.published i c a)
  | some (.published i c a), .confirm =>
    if s.cellContent c = a then
      { s with history := .held h a :: s.history }.setHazard h (.holding i a)
    else s.setHazard h (.loaded i c (s.cellContent c))
  | some (.idle i), .announce a | some (.holding i _), .announce a =>
    { s with registry := s.registry.protect i a }.setHazard h (.idle i)
  | some (.idle i), .reset | some (.holding i _), .reset =>
    { s with registry := s.registry.protect i none }.setHazard h (.idle i)
  | some (.idle i), .withdraw | some (.holding i _), .withdraw =>
    { s with registry := s.registry.protect i none }.setHazard h (.withdrawn i)
  | some (.withdrawn i), .deactivate =>
    match s.registry.release i with
    | .ok registry => { s with registry, hazards := s.hazards.erase h }
    | .error _ => s
  | _, _ => s

def finishScan (s : ProtectionState) (t : ThreadId) (r : Reclaimer) (seen : List Address) :
    ProtectionState :=
  let (bag, gone) := r.bag.drainUnprotected (Snapshot.ofList seen) []
  let events := gone.reverse.map fun g => ProtectionEvent.reclaimed t g.address
  { s with history := events ++ s.history }.setReclaimer t { r with bag, scan := none }

/-- While a thread scans it makes no other move. A move that is not possible changes nothing. -/
def reclaim (s : ProtectionState) (t : ThreadId) (m : ReclaimMove) : ProtectionState :=
  let r := s.reclaimer t
  match r.scan, m with
  | none, .swap c new =>
    if new.any s.inUse.contains then s
    else
      let unlinked := (s.cellContent c).toList ++ r.unlinked
      { s with cells := s.cells.insert c new }.setReclaimer t { r with unlinked }
  | none, .pass a u =>
    if a ∈ r.unlinked then
      let s := s.setReclaimer t { r with unlinked := r.unlinked.erase a }
      let receiver := s.reclaimer u
      s.setReclaimer u { receiver with unlinked := a :: receiver.unlinked }
    else s
  | none, .retire a =>
    if a ∈ r.unlinked then
      { s with history := .retired t a :: s.history }.setReclaimer t
        { r with unlinked := r.unlinked.erase a, bag := r.bag.push ⟨a, .boxed⟩ }
    else s
  | none, .beginScan => s.setReclaimer t { r with scan := some (s.registry.records.size, []) }
  | some (n + 1, seen), .readRecord =>
    s.setReclaimer t { r with scan := some (n, seen ++ (s.registry.target n).toList) }
  | some (0, seen), .endScan => s.finishScan t r seen
  | none, .abandon =>
    { s with abandoned := s.abandoned.push r.bag }.setReclaimer t { r with bag := Bag.empty }
  | none, .adopt =>
    match s.abandoned.takeAndMerge with
    | (some bag, abandoned) =>
      { s with abandoned }.setReclaimer t { r with bag := r.bag.merge bag }
    | (none, _) => s
  | _, _ => s

def move (s : ProtectionState) : ProtectionMove → ProtectionState
  | .guard h m => s.guard h m
  | .reclaim t m => s.reclaim t m

inductive Reachable : ProtectionState → Prop where
  | initial : Reachable {}
  | move {s : ProtectionState} (m : ProtectionMove) : Reachable s → Reachable (s.move m)

end ProtectionState
end Reclaim.Interleaved
