import Reclaim.World.Run

set_option autoImplicit false

namespace Reclaim.Run
variable {V : Type}

def install (m : Run V) (o : ConfigOptions) : Run V :=
  match o.build with
  | .error e => m.unwind (.config e)
  | .ok c =>
    let d := m.world.domain.install c
    (m.withWorld { m.world with domain := d }).answer (.config d.config)

def countRetired (m : Run V) : Run V :=
  match m.site.retiredCount with
  | .error p => m.unwind p
  | .ok (n, s) => (m.setSite s).answer (.count n)

def flush (m : Run V) : Run V :=
  match m.site.flush with
  | .error p => m.unwind p
  | .ok (rs, s) => (m.setSite s).reclaiming rs .done

def createRecord (m : Run V) (name : Name) (acts : List (Act V)) : Run V :=
  if m.world.records.contains name then m.refuse .nameTaken
  else
    let (a, memory) := m.world.memory.allocateObject ⟨name, acts⟩
    let records := m.world.records.insert name { address := a }
    (m.withWorld { m.world with memory, records }).answer .done

/-- A record that cannot be retired because the context of the thread cannot be created is lost. -/
def retire (m : Run V) (name : Name) (deleter : Deleter) : Run V :=
  match m.world.markRetired name with
  | .error r => m.refuse r
  | .ok (address, w) =>
    let m := m.withWorld w
    match m.site.retire { address, deleter } with
    | .error p => m.unwind p
    | .ok (rs, s) => ((m.setSite s).emit (.retired { address, deleter })).reclaiming rs .done

def abandon (m : Run V) (capacity : Nat) (names : List (Option Name)) : Run V :=
  match m.world.markAllRetired names with
  | (.error r, w) => (m.withWorld w).refuse r
  | (.ok addresses, w) =>
    let m := m.withWorld w
    match Bag.withCapacity capacity with
    | .error p => m.unwind p
    | .ok bag =>
      let records := addresses.map fun address => { address, deleter := .boxed }
      match w.domain.abandon (records.foldl Bag.push bag) with
      | .error p => m.unwind p
      | .ok domain =>
        let w := records.foldl (fun w r => w.emit (.retired r)) { w with domain }
        (m.withWorld w).answer .done

def target (m : Run V) : Option Name → Except Refusal (Option RecordEntry)
  | none => .ok none
  | some n => (m.world.resolve n).map some

/-- A destructor may not protect a record that is retired already: it could be among those that
are being reclaimed. -/
def protectable (m : Run V) (n : Option Name) : Except Refusal (Option Address) := do
  match ← m.target n with
  | none => .ok none
  | some e => if m.inAct && e.retired then .error .alreadyRetired else .ok (some e.address)

def setCell (m : Run V) (cell : Name) (n : Option Name) : Run V :=
  match m.target n with
  | .error r => m.refuse r
  | .ok e =>
    let cells := m.world.cells.insert cell (e.map (·.address))
    (m.withWorld { m.world with cells }).answer .done

def swapCell (m : Run V) (cell : Name) (n : Option Name) : Run V :=
  match m.target n with
  | .error r => m.refuse r
  | .ok e =>
    match m.world.cells.get? cell with
    | none => m.refuse .unknown
    | some old =>
      let cells := m.world.cells.insert cell (e.map (·.address))
      (m.withWorld { m.world with cells }).answer (.record (old.map m.world.nameAt))

def newHazard (m : Run V) (hazard : Name) (n : Option Name) : Run V :=
  match m.protectable n with
  | .error r => m.refuse r
  | .ok a =>
    if m.world.hazards.contains hazard then m.refuse .nameTaken
    else
      match m.world.createHazard m.thread with
      | .error p => m.unwind p
      | .ok (h, w) =>
        let (h, w) := if a.isSome then w.publish h a else (h, w)
        (m.withWorld { w with hazards := w.hazards.insert hazard h }).answer .done

def describeHazard (h : Hazard) : String :=
  Text.record "HazardPointer" [("ptr", Address.describe h.target)]

def tryHazard (m : Run V) : Run V :=
  match m.world.createHazard m.thread with
  | .error p => m.unwind p
  | .ok (h, w) =>
    match w.dropHazard m.thread h with
    | (some p, w) => (m.withWorld w).unwind p
    | (none, w) => (m.withWorld w).answer (.description h.target.isNone (describeHazard h))

def dropHazard (m : Run V) (hazard : Name) : Run V :=
  match m.world.hazards.get? hazard with
  | none => m.refuse .unknown
  | some h =>
    let w := { m.world with hazards := m.world.hazards.erase hazard }
    match w.dropHazard m.thread h with
    | (some p, w) => (m.withWorld w).unwind p
    | (none, w) => (m.withWorld w).answer .done

def publishAs (m : Run V) (hazard : Name) (a : Option Address) (reply : Answer V) : Run V :=
  match m.world.hazards.get? hazard with
  | none => m.refuse .unknown
  | some h =>
    let (h, w) := m.world.publish h a
    (m.withWorld { w with hazards := w.hazards.insert hazard h }).answer reply

def protect (m : Run V) (hazard : Name) (n : Option Name) : Run V :=
  match m.protectable n with
  | .error r => m.refuse r
  | .ok a => m.publishAs hazard a .done

def load (m : Run V) (hazard cell : Name) : Run V :=
  match m.world.cells.get? cell with
  | none => m.refuse .unknown
  | some a =>
    let n := a.map m.world.nameAt
    match m.protectable n with
    | .error r => m.refuse r
    | .ok a => m.publishAs hazard a (.record n)

def inspect (m : Run V) (hazard : Name) : Run V :=
  match m.world.hazards.get? hazard with
  | none => m.refuse .unknown
  | some h =>
    let n := h.target.map m.world.nameAt
    m.answer (.pointer n n)

def createQueue (m : Run V) (queue : Name) (strategy : WaitStrategy) : Run V :=
  if m.world.queues.contains queue then m.refuse .nameTaken
  else
    let (a, memory) := m.world.memory.allocateNode {}
    let w := { m.world with
      memory
      queues := m.world.queues.insert queue (Queue.create m.world.nextQueue a strategy)
      nextQueue := m.world.nextQueue + 1 }
    (m.withWorld (w.emit (.nodeAllocated a))).answer .done

def enqueue (m : Run V) (queue : Name) (current : Payload V) (rest : Supply V)
    (reply : Answer V) : Run V :=
  (m.push (.enqueue { queue, current, rest, answer := reply })).resume

def enqueueOne (m : Run V) (queue : Name) (p : Payload V) (reply : Answer V) : Run V :=
  m.enqueue queue p { value := fun _ => p.value, stop := 0 } reply

def enqueueAll (m : Run V) (queue : Name) (s : Supply V) (reply : Answer V) : Run V :=
  match s.take? with
  | none => m.answer reply
  | some (value, rest) => m.enqueue queue { value } rest reply

def exclusively {α : Type} (m : Run V) (queue : Name) (q : Queue) (read : Option α)
    (f : α → Run V) : Run V :=
  if m.isBusy queue then m.refuse .busy
  else
    match read with
    | none => m.fault (q.head.getD 0)
    | some a => f a

def nextEach {α : Type} (times : Nat) (l : List α) : List (Option α) :=
  (l.take times).map some ++ List.replicate (times - l.length) none

/-- Registers as a sleeper where the queue has sleepers. -/
def startBlocking (m : Run V) (queue : Name) (q : Queue) : Run V :=
  let q := { q with waiter := q.waiter.map Waiter.enter }
  let goal := .blocking (q.waiter.map (·.epoch))
  ((m.withWorld (m.world.setQueue queue q)).push (.dequeue { queue, goal })).resume

def onQueue (m : Run V) (queue : Name) (action : QueueAction V) : Run V :=
  match m.world.queues.get? queue with
  | none => m.refuse .unknown
  | some q =>
    let nodes := m.world.memory.nodes
    match action with
    | .malformed => m.refuse .badInput
    | .enqueue value acts => m.enqueueOne queue { value, acts } .done
    | .tryEnqueue value acts => m.enqueueOne queue { value, acts } (.flag true)
    | .enqueueEach count value => m.enqueueAll queue { value, stop := count } .done
    | .tryDequeue => (m.push (.dequeue { queue, goal := .once })).resume
    | .tryDequeueTimes 0 => m.answer (.takenEach [])
    | .tryDequeueTimes (n + 1) => (m.push (.dequeue { queue, goal := .several n [] })).resume
    | .dequeue =>
      -- The queue itself would wait on an empty queue, and would begin a dequeue inside another.
      -- It is the commands that refuse both: with one thread at work no one would end the wait.
      m.exclusively queue q (q.front? nodes) fun
        | none => m.refuse .wouldBlock
        | some _ => m.startBlocking queue q
    | .length => m.answer (.length q.size q.isEmpty q.isFull)
    | .bounds => m.answer (.bounds q.isEmpty q.isFull)
    | .describe => m.answer (.text q.describe)
    | .strategy => m.answer (.strategy q.strategy q.isLockFree)
    | .values =>
      m.exclusively queue q (q.values nodes) fun ps => m.answer (.values (ps.map (·.value)))
    | .nextTimes n =>
      m.exclusively queue q (q.values nodes) fun ps =>
        m.answer (.takenEach (nextEach n (ps.map (·.value))))

def perform (m : Run V) : Op V → Run V
  | .malformed => m.refuse .badInput
  | .panic text => m.unwind (.explicit text)
  | .install o => m.install o
  | .currentConfig => m.answer (.config m.world.domain.config)
  | .statistics =>
    let g := m.world.domain.registry
    m.answer (.statistics g.active g.allocated)
  | .countRetired => m.countRetired
  | .flush => m.flush
  | .create name acts => m.createRecord name acts
  | .retire name deleter => m.retire name deleter
  | .abandon capacity names => m.abandon capacity names
  | .setCell cell n => m.setCell cell n
  | .swapCell cell n => m.swapCell cell n
  | .newHazard hazard n => m.newHazard hazard n
  | .tryHazard => m.tryHazard
  | .dropHazard hazard => m.dropHazard hazard
  | .protect hazard n => m.protect hazard n
  | .load hazard cell => m.load hazard cell
  | .reset hazard => m.publishAs hazard none .done
  | .inspect hazard => m.inspect hazard
  | .listProtected =>
    m.answer (.records (m.world.domain.registry.protectedAddresses.map m.world.nameAt))
  | .createQueue queue strategy => m.createQueue queue strategy
  | .onQueue queue action => m.onQueue queue action

end Reclaim.Run
