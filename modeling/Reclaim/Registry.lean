import Reclaim.Panic
import Reclaim.Address

/-!
The registry of hazard records. A record is owned by one hazard pointer at a time and announces
the address that this hazard pointer protects. Records are numbered in the order of their
allocation and are never freed; every walk over them starts with the newest. The two counters are
words of 64 bits and wrap.
-/

set_option autoImplicit false

namespace Reclaim

abbrev RecordId := Nat

structure HazardRecord where
  target : Option Address := none
  active : Bool := true
  deriving DecidableEq, Repr

structure Registry where
  /-- In the order of allocation. -/
  records : Array HazardRecord := #[]
  active : UInt64 := 0
  allocated : UInt64 := 0
  deriving DecidableEq, Repr

namespace Registry

def contains (g : Registry) (i : RecordId) : Bool := decide (i < g.records.size)

def isActive (g : Registry) (i : RecordId) : Bool := g.records[i]?.any (·.active)

def target (g : Registry) (i : RecordId) : Option Address := g.records[i]?.bind (·.target)

def update (g : Registry) (i : RecordId) (f : HazardRecord → HazardRecord) : Registry :=
  { g with records := g.records.modify i f }

/-- Takes an inactive record without counting it. -/
def capture (g : Registry) (i : RecordId) : Bool × Registry :=
  if g.contains i && !g.isActive i then (true, g.update i fun r => { r with active := true })
  else (false, g)

def tryCapture (g : Registry) (i : RecordId) : Bool × Registry :=
  match g.capture i with
  | (true, g') => (true, { g' with active := g'.active + 1 })
  | (false, g') => (false, g')

/-- Withdraws the target and gives the record up without counting. -/
def deactivate (g : Registry) (i : RecordId) : Registry :=
  g.update i fun _ => { target := none, active := false }

def release (g : Registry) (i : RecordId) : Except Panic Registry :=
  if g.isActive i then
    let g' := g.deactivate i
    .ok { g' with active := g'.active - 1 }
  else
    .error .inactiveRelease

def protect (g : Registry) (i : RecordId) (a : Option Address) : Registry :=
  g.update i fun r => { r with target := a }

/-- A store that is not sequentially consistent could let a scan miss the target. -/
def protectWith (g : Registry) (i : RecordId) (a : Option Address) (order : StoreOrder) :
    Except Panic Registry :=
  if order = .sequential then .ok (g.protect i a) else .error (.weakOrder order)

def numbers (g : Registry) : List RecordId := (List.range g.records.size).reverse

def entries (g : Registry) : List (RecordId × Bool) := g.numbers.map fun i => (i, g.isActive i)

/-- The addresses that are protected, by the newest record first. -/
def protectedAddresses (g : Registry) : List Address := g.numbers.filterMap g.target

def allocate (g : Registry) : RecordId × Registry :=
  (g.records.size,
    { records := g.records.push {}, active := g.active + 1, allocated := g.allocated + 1 })

def activated (g : Registry) : RecordId × Registry :=
  match g.numbers.find? fun i => !g.isActive i with
  | some i => (i, (g.tryCapture i).2)
  | none => g.allocate

/-- Takes the first of the cached records that is still free, and drops those before it. -/
def takeCached (g : Registry) : List RecordId → Option RecordId × List RecordId × Registry
  | [] => (none, [], g)
  | i :: cache =>
    match g.tryCapture i with
    | (true, g') => (some i, cache, g')
    | (false, _) => g.takeCached cache

end Registry
end Reclaim
