import Reclaim.Abandoned
import Reclaim.Registry

/-!
What all threads share, and what a thread keeps for itself. A `Site` is a thread's view of both:
every operation of the scheme on records is a function of the site it is called at. It borrows the
context, and gives it back before the records that it hands out are reclaimed.

A result in `Except Panic` leaves nothing behind where it is an error: the site is the one before
the call.
-/

set_option autoImplicit false

namespace Reclaim

structure Domain where
  /-- Set at most once; threads read it when they create their context. -/
  installed : Option Config := none
  registry : Registry := {}
  abandoned : Abandoned := {}

namespace Domain

def config (d : Domain) : Config := d.installed.getD Config.default

def install (d : Domain) (c : Config) : Domain :=
  { d with installed := some (d.installed.getD c) }

def adopt (d : Domain) : Option Bag × Domain :=
  let (bag, rest) := d.abandoned.takeAndMerge
  (bag, { d with abandoned := rest })

def abandon (d : Domain) (b : Bag) : Except Panic Domain :=
  if b.isEmpty then .error .emptyBag else .ok { d with abandoned := d.abandoned.push b }

end Domain

structure Context where
  config : Config
  /-- Released hazard records, the last one first; others may have taken them since. -/
  recordCache : List RecordId := []
  lastScan : Snapshot := Snapshot.empty
  bag : Bag

namespace Context

def maxCached : Nat := 16

def cacheRecord (c : Context) (i : RecordId) : Context :=
  if c.recordCache.length < maxCached then { c with recordCache := i :: c.recordCache } else c

def adopt (c : Context) (d : Domain) : Context × Domain :=
  match d.adopt with
  | (some bag, d') => ({ c with bag := c.bag.merge bag }, d')
  | (none, d') => (c, d')

def scan (c : Context) (d : Domain) : List Retired × Context :=
  let seen := Snapshot.ofList d.registry.protectedAddresses
  let (bag, reclaimable) := c.bag.drainUnprotected seen []
  (reclaimable, { c with lastScan := seen, bag })

def retire (c : Context) (d : Domain) (r : Retired) : List Retired × Context × Domain :=
  let (c, d) := { c with bag := c.bag.push r }.adopt d
  if c.config.isScanDue c.bag.size d.registry.active.toNat then
    let (reclaimable, c) := c.scan d
    (reclaimable, c, d)
  else
    ([], c, d)

def flush (c : Context) (d : Domain) : List Retired × Context × Domain :=
  let (c, d) := c.adopt d
  if c.bag.isEmpty then ([], c, d)
  else
    let (reclaimable, c) := c.scan d
    (reclaimable, c, d)

/-- A new context adopts what was abandoned; with nothing to adopt its bag is empty and has the
configured capacity. -/
def create (d : Domain) : Except Panic (Context × Domain) :=
  match d.adopt with
  | (some bag, d') => .ok ({ config := d.config, bag }, d')
  | (none, d') => do
    let bag ← Bag.withCapacity d.config.initCache.toNat
    .ok ({ config := d.config, bag }, d')

end Context

inductive Presence where
  | absent
  | live (c : Context)
  /-- An operation is at work on the context. -/
  | borrowed (c : Context)
  /-- A context that is gone is not created again. -/
  | destroyed

def Presence.context? : Presence → Option Context
  | .live c | .borrowed c => some c
  | .absent | .destroyed => none

structure Site where
  domain : Domain
  presence : Presence

namespace Site

def enter (s : Site) : Except Panic Site :=
  match s.presence with
  | .absent => do
    let (c, d) ← Context.create s.domain
    .ok ⟨d, .live c⟩
  | _ => .ok s

/-- The context for an operation to work on, unless another one has it or it is gone. -/
def borrow (s : Site) : Option (Context × Site) :=
  match s.presence with
  | .live c => some (c, { s with presence := .borrowed c })
  | _ => none

def giveBack (s : Site) (c : Context) : Site := { s with presence := .live c }

/-- A record from the cache of the thread if one is still free, else from the registry. -/
def acquireRecord (s : Site) : Except Panic (RecordId × Site) := do
  let s ← s.enter
  match s.borrow with
  | some (c, s) =>
    match s.domain.registry.takeCached c.recordCache with
    | (some i, cache, registry) =>
      let s := { s with domain := { s.domain with registry } }
      .ok (i, s.giveBack { c with recordCache := cache })
    | (none, cache, _) =>
      let (i, registry) := s.domain.registry.activated
      let s := { s with domain := { s.domain with registry } }
      .ok (i, s.giveBack { c with recordCache := cache })
  | none =>
    let (i, registry) := s.domain.registry.activated
    .ok (i, { s with domain := { s.domain with registry } })

def cacheRecord (s : Site) (i : RecordId) : Except Panic Site := do
  let s ← s.enter
  match s.borrow with
  | some (c, s) => .ok (s.giveBack (c.cacheRecord i))
  | none => .ok s

/-- The record enters the bag of the thread, or a bag of its own if the context is not to be had. -/
def retire (s : Site) (r : Retired) : Except Panic (List Retired × Site) := do
  let s ← s.enter
  match s.borrow with
  | some (c, s) =>
    let (reclaimable, c, d) := c.retire s.domain r
    .ok (reclaimable, { s with domain := d }.giveBack c)
  | none =>
    let d ← s.domain.abandon (Bag.single r)
    .ok ([], { s with domain := d })

def flush (s : Site) : Except Panic (List Retired × Site) := do
  let s ← s.enter
  match s.borrow with
  | some (c, s) =>
    let (reclaimable, c, d) := c.flush s.domain
    .ok (reclaimable, { s with domain := d }.giveBack c)
  | none => .ok ([], s)

def retiredCount (s : Site) : Except Panic (Nat × Site) := do
  let s ← s.enter
  match s.borrow with
  | some (c, s) => .ok (c.bag.size, s.giveBack c)
  | none => .ok (0, s)

def leave (s : Site) : List Retired × Option Bag × Site :=
  match s.presence.context? with
  | some c =>
    let (reclaimable, c, d) := c.flush s.domain
    (reclaimable, some c.bag, ⟨d, .destroyed⟩)
  | none => ([], none, s)

end Site
end Reclaim
