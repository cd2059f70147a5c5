import Reclaim.World.Perform

/-!
The steps of a thread after an operation has begun. `step` is a function of the whole state, so a
run is the iteration of it; `complete` makes as many steps as its fuel allows and stops where the
work is over.
-/

set_option autoImplicit false

namespace Reclaim.Run
variable {V : Type}

/-- The act is over: the event is recorded after those it caused, and the next act follows. -/
def finishAct (m : Run V) (label : Option String) (rest : List (Act V)) (a : Answer V) : Run V :=
  ((m.emit (.acted label a)).push (.script rest)).resume

def nextAct (m : Run V) : List (Act V) → Run V
  | [] => m.resume
  | ⟨label, op⟩ :: rest => { m.push (.acting label rest) with control := .perform op }

def dropSlot (m : Run V) (s : Slot (Payload V)) : Run V :=
  match s.value? with
  | none => m.resume
  | some p => ((m.emit (.valueDropped p.value)).push (.script p.acts)).resume

def eraseNode (m : Run V) (a : Address) : Run V :=
  m.withWorld (m.world.setNodes (m.world.memory.nodes.erase a))

def destroy (m : Run V) (r : Retired) : Run V :=
  let memory := m.world.memory
  match memory.objects.get? r.address with
  | some o =>
    let w := { m.world with memory := { memory with objects := memory.objects.erase r.address } }
    let m := (m.withWorld (w.markGone o.name)).emit (.reclaimed r)
    let m := match r.deleter with
      | .custom => m.emit (.deleterCalled o.name)
      | .boxed => m
    ((m.emit (.recordDropped o.name)).push (.script o.acts)).resume
  | none =>
    match memory.nodes.get? r.address with
    | some n => ((m.eraseNode r.address).emit (.reclaimed r)).dropSlot n.slot
    | none => m.fault r.address

def reclaimNext (m : Run V) : List Retired → Run V
  | [] => m.resume
  | r :: rest => (m.push (.reclaim rest)).destroy r

def finishEnqueue (m : Run V) (e : EnqueueFrame V) (h : Hazard) : Run V :=
  match m.world.dropHazard m.thread h with
  | (some p, w) => (m.withWorld w).unwind p
  | (none, w) =>
    let w := { w with queues := w.queues.modify e.queue Queue.noteInserted }
    (m.withWorld w).enqueueAll e.queue e.rest e.answer

def continueEnqueue (m : Run V) (e : EnqueueFrame V) : Run V :=
  match e.stage with
  | .start =>
    let (a, memory) := m.world.memory.allocateNode { slot := .full e.current }
    let m := (m.withWorld { m.world with memory }).emit (.nodeAllocated a)
    match m.world.createHazard m.thread with
    | .error p => m.unwind p
    | .ok (h, w) => ((m.withWorld w).push (.enqueue { e with stage := .link h a })).resume
  | .link h a =>
    match m.world.queues.get? e.queue with
    | none => m.fault a
    | some q =>
      let (h, w) := m.world.publish h q.tail
      let m := m.withWorld w
      match q.enqueueRound w.memory.nodes a with
      | .linked q nodes =>
        let w := (m.world.setQueue e.queue q).setNodes nodes
        (m.withWorld (w.emit (.linked q.id a e.current.value))).finishEnqueue e h
      | .helped q =>
        ((m.withWorld (m.world.setQueue e.queue q)).push
          (.enqueue { e with stage := .link h a })).resume
      | .failed p => (m.push (.enqueue { e with stage := .link h a })).unwind p
      | .dangling a => m.fault a

/-- One attempt to remove a value is over; what follows depends on what it was made for. -/
def finishAttempt (m : Run V) (d : DequeueFrame V) (call : CallId) (h : Hazard) (q : Queue)
    (found : Option (Payload V)) : Run V :=
  match m.world.dropHazard m.thread h with
  | (some p, w) => (m.withWorld w).unwind p
  | (none, w) =>
    let v := found.map (·.value)
    let m := (m.withWorld w).emit (.returned q.id call v)
    match d.goal with
    | .once => m.answer (.taken v)
    | .several 0 l => m.answer (.takenEach (v :: l).reverse)
    | .several (n + 1) l =>
      (m.push (.dequeue { d with stage := .start, goal := .several n (v :: l) })).resume
    | .blocking epoch =>
      match v with
      | some v =>
        let q := { q with waiter := q.waiter.map Waiter.leave }
        (m.withWorld (m.world.setQueue d.queue q)).answer (.value v)
      | none =>
        let current := q.waiter.map (·.epoch)
        let m := m.push (.dequeue { d with stage := .start, goal := .blocking current })
        if epoch.isSome && current == epoch then { m with control := .parked } else m.resume

def continueDequeue (m : Run V) (d : DequeueFrame V) : Run V :=
  match m.world.queues.get? d.queue with
  | none => m.fault 0
  | some q =>
    match d.stage with
    | .start =>
      match m.world.createHazard m.thread with
      | .error p => m.unwind p
      | .ok (h, w) =>
        let stage := .round w.nextCall h
        let w := { w with nextCall := w.nextCall + 1 }
        ((m.withWorld w).push (.dequeue { d with stage })).resume
    | .round call h =>
      let (h, w) := m.world.publish h q.head
      let m := m.withWorld w
      let again := m.push (.dequeue { d with stage := .round call h })
      match q.dequeueRound w.memory.nodes with
      | .claimed p q' nodes =>
        let w := ((w.setQueue d.queue q').setNodes nodes).emit
          (.removed q.id call (q.head.getD 0) p.value)
        (m.withWorld w).finishAttempt d call h q' (some p)
      | .empty => m.finishAttempt d call h q none
      | .helped q' => (again.withWorld (w.setQueue d.queue q')).resume
      | .transient => again.resume
      | .lost => again.resume
      | .failed p => again.unwind p
      | .dangling a => m.fault a
      | .unlinked a q' =>
        let w := (w.setQueue d.queue q').noteUnlinked q.id call a
        let m := (m.withWorld w).push (.dequeue { d with stage := .unlinked call h a })
        match m.site.retire { address := a, deleter := .boxed } with
        | .error p => m.unwind p
        | .ok (rs, s) =>
          (((m.setSite s).emit (.retired { address := a, deleter := .boxed })).push
            (.reclaim rs)).resume
    | .unlinked call h a =>
      match q.claim m.world.memory.nodes a with
      | .taken p q' nodes =>
        let w := (m.world.setQueue d.queue q').setNodes nodes
        (m.withWorld w).finishAttempt d call h q' (some p)
      | .refused => (m.push (.dequeue { d with stage := .round call h })).resume
      | .dangling a => m.fault a

/-- Frees the nodes of a chain one by one; the link of a node is read before the node goes. -/
def dropChain (m : Run V) (queue : QueueId) : Option Address → Run V
  | none => m.resume
  | some a =>
    match m.world.memory.nodes.get? a with
    | none => m.fault a
    | some n =>
      let m := (m.push (.dropChain queue n.next)).eraseNode a
      (m.emit (.nodeFreed queue a (n.slot.value?.map (·.value)))).dropSlot n.slot

def leave (m : Run V) : Run V :=
  match m.site.leave with
  | (_, none, _) => m.resume
  | (rs, some bag, s) => (((m.setSite s).push (.abandonRest bag)).push (.reclaim rs)).resume

def abandonRest (m : Run V) (bag : Bag) : Run V :=
  if bag.isEmpty then m.resume
  else
    match m.world.domain.abandon bag with
    | .error p => m.unwind p
    | .ok domain => (m.withWorld { m.world with domain }).resume

def proceed (m : Run V) : Frame V → Run V
  | .script acts => m.nextAct acts
  | .acting label rest => m.finishAct label rest .done
  | .reclaim rest => m.reclaimNext rest
  | .answering a => m.answer a
  | .enqueue e => m.continueEnqueue e
  | .dequeue d => m.continueDequeue d
  | .dropChain queue next => m.dropChain queue next
  | .leave => m.leave
  | .abandonRest bag => m.abandonRest bag
  | .finishExit byPanic =>
    (m.withWorld (m.world.setPhase m.thread .exited)).answer (.ended byPanic)

def receive (m : Run V) (a : Answer V) : Frame V → Run V
  | .acting label rest => m.finishAct label rest a
  | f => (m.push f).resume

def releasing (m : Run V) (h : Hazard) (p : Panic) : Run V :=
  (m.withWorld (m.world.dropHazard m.thread h).2).unwind p

/-- A panic leaves through the suspended work and takes it along. Hazard pointers are dropped on
the way, the records still to be reclaimed are lost, and only the end of a thread catches the
panics of its acts. -/
def unwindThrough (m : Run V) (p : Panic) : Frame V → Run V
  | .acting label rest => if m.isExiting then m.finishAct label rest (.panicked p) else m.unwind p
  | .enqueue { stage := .link h _, .. } => m.releasing h p
  | .dequeue { stage := .round _ h, .. } => m.releasing h p
  | .dequeue { stage := .unlinked _ h _, .. } => m.releasing h p
  | _ => m.unwind p

def step (m : Run V) : Run V :=
  match m.control, m.stack with
  | .perform op, _ => m.perform op
  | .resume, f :: stack => { m with stack }.proceed f
  | .answer a, f :: stack => { m with stack }.receive a f
  | .unwind p, f :: stack => { m with stack }.unwindThrough p f
  | _, _ => m

def complete : (fuel : Nat) → Run V → Run V
  | 0, m => m
  | fuel + 1, m =>
    match m.outcome with
    | some _ => m
    | none => complete fuel m.step

end Reclaim.Run
