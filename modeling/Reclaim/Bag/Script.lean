import Reclaim.Abandoned
import Reclaim.Refusal
import Reclaim.Table

set_option autoImplicit false

namespace Reclaim.Bag

structure Shelf where
  bags : Table Name Bag := {}
  abandoned : Abandoned := {}

inductive ContentCommand where
  | malformed
  | push (addresses : List (Option Address))
  | state
  | describe
  | drain (covered : List (Option Address))
  | abandon

inductive Command where
  | malformed
  | create (bag : Name) (capacity : Nat)
  | merge (bag other : Name)
  | take (bag : Name)
  | nothingAbandoned
  | dropAbandoned
  | onBag (bag : Name) (command : ContentCommand)

inductive Reply where
  | done
  | bag (b : Bag)
  | drained (reclaimed : List Address) (b : Bag)
  | text (s : String)
  | flag (b : Bool)
  | addresses (l : List Address)

def pushAll (b : Bag) : List (Option Address) → Bool × Bag
  | [] => (true, b)
  | none :: _ => (false, b)
  | some address :: rest => (b.push { address, deleter := .custom }).pushAll rest

namespace Shelf

def withBag (s : Shelf) (n : Name) (f : Bag → Except Failure Reply × Shelf) :
    Except Failure Reply × Shelf :=
  match s.bags.get? n with
  | none => (.error (.refused .unknown), s)
  | some b => f b

def put (s : Shelf) (n : Name) (b : Bag) : Shelf := { s with bags := s.bags.insert n b }

/-- The merged bag is gone afterwards, even if there is no bag to merge it into. A bag cannot be
merged with itself. -/
def merge (s : Shelf) (n other : Name) : Except Failure Reply × Shelf :=
  if n = other then (.error (.refused .unknown), s)
  else
    s.withBag other fun c =>
      let s := { s with bags := s.bags.erase other }
      s.withBag n fun b =>
        let b := b.merge c
        (.ok (.bag b), s.put n b)

def addressesOf (l : List Retired) : List Address := l.map (·.address)

def performOn (s : Shelf) (n : Name) (b : Bag) : ContentCommand → Except Failure Reply × Shelf
  | .malformed => (.error (.refused .badInput), s)
  | .push addresses =>
    let (complete, b) := b.pushAll addresses
    (if complete then .ok (.bag b) else .error (.refused .badInput), s.put n b)
  | .state => (.ok (.bag b), s)
  | .describe => (.ok (.text b.describe), s)
  | .drain covered =>
    match covered.mapM id with
    | none => (.error (.refused .badInput), s)
    | some l =>
      let (b, reclaimed) := b.drainUnprotected (Snapshot.ofList l) []
      (.ok (.drained (addressesOf reclaimed) b), s.put n b)
  | .abandon => (.ok .done, { bags := s.bags.erase n, abandoned := s.abandoned.push b })

def perform (s : Shelf) : Command → Except Failure Reply × Shelf
  | .malformed => (.error (.refused .badInput), s)
  | .create n capacity =>
    match withCapacity capacity with
    | .error p => (.error (.panicked p), s)
    | .ok b => (.ok (.bag b), s.put n b)
  | .merge n other => s.merge n other
  | .take n =>
    match s.abandoned.takeAndMerge with
    | (none, _) => (.ok .done, s)
    | (some b, rest) => (.ok (.bag b), { s.put n b with abandoned := rest })
  | .nothingAbandoned => (.ok (.flag s.abandoned.isEmpty), s)
  | .dropAbandoned =>
    (.ok (.addresses (addressesOf s.abandoned.records)), { s with abandoned := {} })
  | .onBag n c => s.withBag n fun b => s.performOn n b c

def runScript (s : Shelf) : List Command → List (Except Failure Reply) × List Address
  | [] => ([], addressesOf s.abandoned.records)
  | c :: rest =>
    let (r, s) := s.perform c
    let (results, last) := s.runScript rest
    (r :: results, last)

end Shelf
end Reclaim.Bag
