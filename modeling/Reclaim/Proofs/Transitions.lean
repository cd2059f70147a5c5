import Reclaim.Proofs.SiteContexts
import Reclaim.World.Reachable

/-!
What a step can do. A step answers to an operation that is to be performed, or to the innermost
frame, which is taken off the stack; what comes of it is a world, the frames that are left in its
place, and the control (`Transition`). Every step is one of these (`Run.step_cases`), so whatever
holds of all of them holds of every step.
-/

set_option autoImplicit false

namespace Reclaim
variable {V : Type}

/-- What a step answers to. -/
inductive Cue (V : Type) where
  | perform (op : Op V)
  | proceed (f : Frame V)
  | receive (a : Answer V) (f : Frame V)
  | unwind (p : Panic) (f : Frame V)

namespace Cue

def control : Cue V → Control V
  | perform op => .perform op
  | proceed _ => .resume
  | receive a _ => .answer a
  | unwind p _ => .unwind p

def frames : Cue V → List (Frame V)
  | perform _ => []
  | proceed f | receive _ f | unwind _ f => [f]

end Cue

def Frame.hazard? : Frame V → Option Hazard
  | .enqueue { stage := .link h _, .. } => some h
  | .dequeue { stage := .round _ h, .. } => some h
  | .dequeue { stage := .unlinked _ h _, .. } => some h
  | _ => none

def World.abandoning (w : World V) (b : Bag) : World V :=
  { w with domain := { w.domain with abandoned := w.domain.abandoned.push b } }

theorem World.noteUnlinked_eq (w : World V) (queue : QueueId) (c : CallId) (a : Address) :
    w.noteUnlinked queue c a =
      { w with
        history := (((w.memory.nodes.get? a).bind fun n => n.slot.value?).toList.map fun p =>
          .removed queue c a p.value) ++ w.history } := by
  unfold noteUnlinked
  split <;> simp [*, emit]

/-- The results of the attempts that were made before the one that is under way. -/
def Goal.found : Goal V → List (Option V)
  | .several _ found => found
  | .once | .blocking _ => []

/-- The operation reads or creates the context of its thread first of all. -/
def Op.enters : Op V → Bool
  | .countRetired | .flush | .newHazard _ _ | .tryHazard => true
  | _ => false

/-- The panic is one that a caller has asked for. -/
def Panic.isAsked : Panic → Bool
  | .config _ | .explicit _ => true
  | _ => false

inductive Empties (w : World V) (s : Slot (Payload V)) : World V → List (Frame V) → Prop where
  | vacant : s.value? = none → Empties w s w []
  | full (p : Payload V) : s.value? = some p →
      Empties w s (w.emit (.valueDropped p.value)) [.script p.acts]

inductive Supplies (queue : Name) (rest : Supply V) (reply : Answer V) :
    List (Frame V) → Control V → Prop where
  | finished : rest.take? = none → Supplies queue rest reply [] (.answer reply)
  | next (value : V) (more : Supply V) : rest.take? = some (value, more) →
      Supplies queue rest reply
        [.enqueue { queue, current := { value }, rest := more, answer := reply }] .resume

/-- An attempt comes to its result: it claims the value of the only node, finds none, or claims the
value of the node that it has unlinked. -/
inductive Decides (w : World V) (name : Name) (c : CallId) :
    DequeueStage → Hazard → World V → Queue → Option (Payload V) → Prop where
  | front {h : Hazard} {q q' : Queue} {p : Payload V} {nodes : Nodes (Payload V)} :
      w.queues.get? name = some q → q.dequeueRound w.memory.nodes = .claimed p q' nodes →
      Decides w name c (.round c h) { h with target := q.head }
        ((((w.publish h q.head).2.setQueue name q').setNodes nodes).emit
          (.removed q.id c (q.head.getD 0) p.value)) q' (some p)
  | empty {h : Hazard} {q : Queue} :
      w.queues.get? name = some q → q.dequeueRound w.memory.nodes = .empty →
      Decides w name c (.round c h) { h with target := q.head } (w.publish h q.head).2 q none
  | detached {h : Hazard} {a : Address} {q q' : Queue} {p : Payload V}
      {nodes : Nodes (Payload V)} :
      w.queues.get? name = some q → q.claim w.memory.nodes a = .taken p q' nodes →
      Decides w name c (.unlinked c h a) h ((w.setQueue name q').setNodes nodes) q' (some p)

/-- What the result of an attempt leads to, by what the attempt was made for. It is the answer, or
the last of several that are answered together, or the next attempt follows. -/
inductive Gives (queue : Name) (q : Queue) (w : World V) :
    Goal V → Option V → World V → List (Frame V) → Control V → Prop where
  | once (v : Option V) : Gives queue q w .once v w [] (.answer (.taken v))
  | last (v : Option V) (found : List (Option V)) :
      Gives queue q w (.several 0 found) v w [] (.answer (.takenEach (v :: found).reverse))
  | more (v : Option V) (n : Nat) (found : List (Option V)) :
      Gives queue q w (.several (n + 1) found) v w
        [.dequeue { queue, goal := .several n (v :: found) }] .resume
  | value (v : V) (epoch : Option UInt64) :
      Gives queue q w (.blocking epoch) (some v)
        (w.setQueue queue { q with waiter := q.waiter.map Waiter.leave }) []
        (.answer (.value v))
  | wait (epoch : Option UInt64) (c : Control V) : c = .resume ∨ c = .parked →
      Gives queue q w (.blocking epoch) none w
        [.dequeue { queue, goal := .blocking (q.waiter.map (·.epoch)) }] c

inductive Performs (t : ThreadId) (w : World V) :
    Op V → World V → List (Frame V) → Control V → Prop where
  | answers {op : Op V} (a : Answer V) : Performs t w op w [] (.answer a)
  | panics {op : Op V} (p : Panic) : p.isAsked = true →
      Performs t w op w [] (.unwind p)
  /-- The chain of a queue that was to be read does not end. -/
  | strays {op : Op V} {name : Name} {q : Queue} (a : Address) : w.queues.get? name = some q →
      q.values w.memory.nodes = none → Performs t w op w [] (.dangling a)
  | overflows {op : Op V} (p : Panic) : op.enters = true → (w.site t).enter = .error p →
      Performs t w op w [] (.unwind p)
  | installs {o : ConfigOptions} (c : Config) :
      Performs t w (.install o) { w with domain := w.domain.install c } []
        (.answer (.config (w.domain.install c).config))
  | counts (n : Nat) (s : Site) : (w.site t).retiredCount = .ok (n, s) →
      Performs t w .countRetired (w.setSite t s) [] (.answer (.count n))
  | flushes (rs : List Retired) (s : Site) : (w.site t).flush = .ok (rs, s) →
      Performs t w .flush (w.setSite t s) [.reclaim rs, .answering .done] .resume
  | creates (name : Name) (acts : List (Act V)) : w.records.get? name = none →
      Performs t w (.create name acts)
        { w with
          memory := (w.memory.allocateObject ⟨name, acts⟩).2
          records := w.records.insert name { address := w.memory.fresh } } []
        (.answer .done)
  | retireOverflows {name : Name} {d : Deleter} (a : Address) (w₁ : World V) (p : Panic) :
      w.markRetired name = .ok (a, w₁) → (w₁.site t).enter = .error p →
      Performs t w (.retire name d) w₁ [] (.unwind p)
  | retires {name : Name} {d : Deleter} (a : Address) (w₁ : World V) (rs : List Retired)
      (s : Site) : w.markRetired name = .ok (a, w₁) → (w₁.site t).retire ⟨a, d⟩ = .ok (rs, s) →
      Performs t w (.retire name d) ((w₁.setSite t s).emit (.retired ⟨a, d⟩))
        [.reclaim rs, .answering .done] .resume
  | abandonRefused {n : Nat} {names : List (Option Name)} (r : Refusal) (w₁ : World V) :
      w.markAllRetired names = (.error r, w₁) →
      Performs t w (.abandon n names) w₁ [] (.answer (.refused r))
  | abandonFails {n : Nat} {names : List (Option Name)} (as : List Address) (w₁ : World V)
      (p : Panic) : w.markAllRetired names = (.ok as, w₁) →
      Performs t w (.abandon n names) w₁ [] (.unwind p)
  | abandons {n : Nat} {names : List (Option Name)} (as : List Address) (w₁ : World V) (b : Bag) :
      w.markAllRetired names = (.ok as, w₁) → b.records = as.map (⟨·, .boxed⟩) →
      b.isEmpty = false →
      Performs t w (.abandon n names)
        (b.records.foldl (fun w r => w.emit (.retired r)) (w₁.abandoning b)) [] (.answer .done)
  | stores {op : Op V} (cells : Table Name (Option Address)) (a : Answer V) :
      Performs t w op { w with cells } [] (.answer a)
  | holds {hazard : Name} {n : Option Name} (h h' : Hazard) (w₁ w₂ : World V) :
      w.hazards.get? hazard = none → w.createHazard t = .ok (h, w₁) →
      (h', w₂) = (h, w₁) ∨ (∃ a, (h', w₂) = w₁.publish h a) →
      Performs t w (.newHazard hazard n)
        { w₂ with hazards := w₂.hazards.insert hazard h' } [] (.answer .done)
  | tries (h : Hazard) (w₁ w₂ : World V) (a : Answer V) : w.createHazard t = .ok (h, w₁) →
      w₁.dropHazard t h = (none, w₂) → Performs t w .tryHazard w₂ [] (.answer a)
  | drops (hazard : Name) (h : Hazard) (w₁ : World V) : w.hazards.get? hazard = some h →
      World.dropHazard { w with hazards := w.hazards.erase hazard } t h = (none, w₁) →
      Performs t w (.dropHazard hazard) w₁ [] (.answer .done)
  | dropFails (hazard : Name) (h : Hazard) (p : Panic) (w₁ : World V) :
      w.hazards.get? hazard = some h →
      World.dropHazard { w with hazards := w.hazards.erase hazard } t h = (some p, w₁) →
      Performs t w (.dropHazard hazard) w₁ [] (.unwind p)
  | publishes {op : Op V} (hazard : Name) (h : Hazard) (target : Option Address) (a : Answer V) :
      w.hazards.get? hazard = some h →
      Performs t w op
        { (w.publish h target).2 with hazards := w.hazards.insert hazard { h with target } } []
        (.answer a)
  | createsQueue (name : Name) (strategy : WaitStrategy) : w.queues.get? name = none →
      Performs t w (.createQueue name strategy)
        (World.emit { w with
          memory := (w.memory.allocateNode {}).2
          queues := w.queues.insert name (Queue.create w.nextQueue w.memory.fresh strategy)
          nextQueue := w.nextQueue + 1 } (.nodeAllocated w.memory.fresh)) [] (.answer .done)
  | startsEnqueue {op : Op V} (e : EnqueueFrame V) : (w.queues.get? e.queue).isSome = true →
      e.stage = .start → Performs t w op w [.enqueue e] .resume
  | startsDequeue {op : Op V} (d : DequeueFrame V) : (w.queues.get? d.queue).isSome = true →
      d.stage = .start → d.goal.found = [] → Performs t w op w [.dequeue d] .resume
  | startsWaiting (name : Name) (q : Queue) (waiter : Option Waiter) (epoch : Option UInt64) :
      w.queues.get? name = some q →
      Performs t w (.onQueue name .dequeue) (w.setQueue name { q with waiter })
        [.dequeue { queue := name, goal := .blocking epoch }] .resume

inductive Tells (w : World V) (r : Retired) (name : Name) : World V → Prop where
  | boxed : r.deleter = .boxed → Tells w r name w
  | custom : r.deleter = .custom → Tells w r name (w.emit (.deleterCalled name))

inductive Reclaims (w : World V) :
    List Retired → World V → List (Frame V) → Control V → Prop where
  | finished : Reclaims w [] w [] .resume
  | object (r : Retired) (rest : List Retired) (o : Object V) (w₁ : World V) :
      w.memory.objects.get? r.address = some o →
      Tells ((World.markGone { w with
        memory := { w.memory with objects := w.memory.objects.erase r.address } } o.name).emit
          (.reclaimed r)) r o.name w₁ →
      Reclaims w (r :: rest) (w₁.emit (.recordDropped o.name)) [.script o.acts, .reclaim rest]
        .resume
  | node (r : Retired) (rest : List Retired) (n : Node (Payload V)) (w₁ : World V)
      (fs : List (Frame V)) : w.memory.objects.get? r.address = none →
      w.memory.nodes.get? r.address = some n →
      Empties ((w.setNodes (w.memory.nodes.erase r.address)).emit (.reclaimed r)) n.slot w₁ fs →
      Reclaims w (r :: rest) w₁ (fs ++ [.reclaim rest]) .resume
  | strays (r : Retired) (rest : List Retired) : w.memory.objects.get? r.address = none →
      w.memory.nodes.get? r.address = none →
      Reclaims w (r :: rest) w [.reclaim rest] (.dangling r.address)

inductive Enqueues (t : ThreadId) (w : World V) :
    EnqueueFrame V → World V → List (Frame V) → Control V → Prop where
  | overflows (e : EnqueueFrame V) (p : Panic) : e.stage = .start →
      (w.site t).enter = .error p →
      Enqueues t w e
        (World.emit { w with memory := (w.memory.allocateNode { slot := .full e.current }).2 }
          (.nodeAllocated w.memory.fresh)) [] (.unwind p)
  | allocates (e : EnqueueFrame V) (h : Hazard) (w₁ : World V) : e.stage = .start →
      World.createHazard (World.emit { w with
        memory := (w.memory.allocateNode { slot := .full e.current }).2 }
          (.nodeAllocated w.memory.fresh)) t = .ok (h, w₁) →
      Enqueues t w e w₁
        [.enqueue { e with stage := .link h w.memory.fresh }] .resume
  | lost (e : EnqueueFrame V) (a : Address) : w.queues.get? e.queue = none →
      Enqueues t w e w [] (.dangling a)
  | strays (e : EnqueueFrame V) (h : Hazard) (a b : Address) (q : Queue) :
      e.stage = .link h a → w.queues.get? e.queue = some q →
      q.enqueueRound w.memory.nodes a = .dangling b →
      Enqueues t w e (w.publish h q.tail).2 [] (.dangling b)
  | fails (e : EnqueueFrame V) (h : Hazard) (a : Address) (q : Queue) (p : Panic) :
      e.stage = .link h a → w.queues.get? e.queue = some q →
      q.enqueueRound w.memory.nodes a = .failed p →
      Enqueues t w e (w.publish h q.tail).2
        [.enqueue { e with stage := .link { h with target := q.tail } a }] (.unwind p)
  | helps (e : EnqueueFrame V) (h : Hazard) (a : Address) (q q' : Queue) :
      e.stage = .link h a → w.queues.get? e.queue = some q →
      q.enqueueRound w.memory.nodes a = .helped q' →
      Enqueues t w e ((w.publish h q.tail).2.setQueue e.queue q')
        [.enqueue { e with stage := .link { h with target := q.tail } a }] .resume
  | breaks (e : EnqueueFrame V) (h : Hazard) (a : Address) (q q' : Queue)
      (nodes : Nodes (Payload V)) (p : Panic) (w₁ : World V) :
      e.stage = .link h a → w.queues.get? e.queue = some q →
      q.enqueueRound w.memory.nodes a = .linked q' nodes →
      World.dropHazard ((((w.publish h q.tail).2.setQueue e.queue q').setNodes nodes).emit
        (.linked q'.id a e.current.value)) t { h with target := q.tail } = (some p, w₁) →
      Enqueues t w e w₁ [] (.unwind p)
  | links (e : EnqueueFrame V) (h : Hazard) (a : Address) (q q' : Queue)
      (nodes : Nodes (Payload V)) (w₁ : World V) (fs : List (Frame V)) (c : Control V) :
      e.stage = .link h a → w.queues.get? e.queue = some q →
      q.enqueueRound w.memory.nodes a = .linked q' nodes →
      World.dropHazard ((((w.publish h q.tail).2.setQueue e.queue q').setNodes nodes).emit
        (.linked q'.id a e.current.value)) t { h with target := q.tail } = (none, w₁) →
      Supplies e.queue e.rest e.answer fs c →
      Enqueues t w e
        { w₁ with queues := w₁.queues.modify e.queue Queue.noteInserted } fs c

inductive Dequeues (t : ThreadId) (w : World V) :
    DequeueFrame V → World V → List (Frame V) → Control V → Prop where
  | lost (d : DequeueFrame V) (a : Address) : w.queues.get? d.queue = none →
      Dequeues t w d w [] (.dangling a)
  | overflows (d : DequeueFrame V) (p : Panic) :
      (w.queues.get? d.queue).isSome = true → d.stage = .start → (w.site t).enter = .error p →
      Dequeues t w d w [] (.unwind p)
  | begins (d : DequeueFrame V) (h : Hazard) (w₁ : World V) :
      (w.queues.get? d.queue).isSome = true → d.stage = .start →
      w.createHazard t = .ok (h, w₁) →
      Dequeues t w d { w₁ with nextCall := w₁.nextCall + 1 }
        [.dequeue { d with stage := .round w₁.nextCall h }] .resume
  | strays (d : DequeueFrame V) (c : CallId) (h : Hazard) (a : Address) (q : Queue) :
      d.stage = .round c h → w.queues.get? d.queue = some q →
      q.dequeueRound w.memory.nodes = .dangling a →
      Dequeues t w d (w.publish h q.head).2 [] (.dangling a)
  | fails (d : DequeueFrame V) (c : CallId) (h : Hazard) (q : Queue) (p : Panic) :
      d.stage = .round c h → w.queues.get? d.queue = some q →
      q.dequeueRound w.memory.nodes = .failed p →
      Dequeues t w d (w.publish h q.head).2
        [.dequeue { d with stage := .round c { h with target := q.head } }] (.unwind p)
  | helps (d : DequeueFrame V) (c : CallId) (h : Hazard) (q q' : Queue) :
      d.stage = .round c h → w.queues.get? d.queue = some q →
      q.dequeueRound w.memory.nodes = .helped q' →
      Dequeues t w d ((w.publish h q.head).2.setQueue d.queue q')
        [.dequeue { d with stage := .round c { h with target := q.head } }] .resume
  | again (d : DequeueFrame V) (c : CallId) (h : Hazard) (q : Queue) :
      d.stage = .round c h → w.queues.get? d.queue = some q →
      q.dequeueRound w.memory.nodes = .transient ∨ q.dequeueRound w.memory.nodes = .lost →
      Dequeues t w d (w.publish h q.head).2
        [.dequeue { d with stage := .round c { h with target := q.head } }] .resume
  | unlinkOverflows (d : DequeueFrame V) (c : CallId) (h : Hazard) (q q' : Queue) (a : Address)
      (p : Panic) : d.stage = .round c h → w.queues.get? d.queue = some q →
      q.dequeueRound w.memory.nodes = .unlinked a q' →
      ((((w.publish h q.head).2.setQueue d.queue q').noteUnlinked q.id c a).site t).enter =
        .error p →
      Dequeues t w d
        (((w.publish h q.head).2.setQueue d.queue q').noteUnlinked q.id c a)
        [.dequeue { d with stage := .unlinked c { h with target := q.head } a }] (.unwind p)
  | unlinks (d : DequeueFrame V) (c : CallId) (h : Hazard) (q q' : Queue) (a : Address)
      (rs : List Retired) (s : Site) : d.stage = .round c h → w.queues.get? d.queue = some q →
      q.dequeueRound w.memory.nodes = .unlinked a q' →
      ((((w.publish h q.head).2.setQueue d.queue q').noteUnlinked q.id c a).site t).retire
        ⟨a, .boxed⟩ = .ok (rs, s) →
      Dequeues t w d
        (((((w.publish h q.head).2.setQueue d.queue q').noteUnlinked q.id c a).setSite t s).emit
          (.retired ⟨a, .boxed⟩))
        [.reclaim rs, .dequeue { d with stage := .unlinked c { h with target := q.head } a }]
        .resume
  | claimStrays (d : DequeueFrame V) (c : CallId) (h : Hazard) (a b : Address) (q : Queue) :
      d.stage = .unlinked c h a → w.queues.get? d.queue = some q →
      q.claim w.memory.nodes a = .dangling b →
      Dequeues t w d w [] (.dangling b)
  | claimRefused (d : DequeueFrame V) (c : CallId) (h : Hazard) (a : Address) (q : Queue) :
      d.stage = .unlinked c h a → w.queues.get? d.queue = some q →
      q.claim w.memory.nodes a = .refused →
      Dequeues t w d w [.dequeue { d with stage := .round c h }] .resume
  | breaks (d : DequeueFrame V) (c : CallId) (h : Hazard) (q : Queue)
      (found : Option (Payload V)) (w₁ w₂ : World V) (p : Panic) :
      Decides w d.queue c d.stage h w₁ q found → w₁.dropHazard t h = (some p, w₂) →
      Dequeues t w d w₂ [] (.unwind p)
  | ends (d : DequeueFrame V) (c : CallId) (h : Hazard) (q : Queue)
      (found : Option (Payload V)) (w₁ w₂ w₃ : World V) (fs : List (Frame V)) (k : Control V) :
      Decides w d.queue c d.stage h w₁ q found → w₁.dropHazard t h = (none, w₂) →
      Gives d.queue q (w₂.emit (.returned q.id c (found.map (·.value)))) d.goal
        (found.map (·.value)) w₃ fs k →
      Dequeues t w d w₃ fs k

inductive Proceeds (t : ThreadId) (w : World V) :
    Frame V → World V → List (Frame V) → Control V → Prop where
  | scriptOver : Proceeds t w (.script []) w [] .resume
  | acts (label : Option String) (op : Op V) (rest : List (Act V)) :
      Proceeds t w (.script (⟨label, op⟩ :: rest)) w [.acting label rest] (.perform op)
  | acted (label : Option String) (rest : List (Act V)) :
      Proceeds t w (.acting label rest) (w.emit (.acted label .done)) [.script rest] .resume
  | reclaims {rs : List Retired} {w' : World V} {fs : List (Frame V)} {c : Control V} :
      Reclaims w rs w' fs c → Proceeds t w (.reclaim rs) w' fs c
  | answers (a : Answer V) : Proceeds t w (.answering a) w [] (.answer a)
  | enqueues {e : EnqueueFrame V} {w' : World V} {fs : List (Frame V)} {c : Control V} :
      Enqueues t w e w' fs c → Proceeds t w (.enqueue e) w' fs c
  | dequeues {d : DequeueFrame V} {w' : World V} {fs : List (Frame V)} {c : Control V} :
      Dequeues t w d w' fs c → Proceeds t w (.dequeue d) w' fs c
  | chainOver (i : QueueId) : Proceeds t w (.dropChain i none) w [] .resume
  | chainStrays (i : QueueId) (a : Address) : w.memory.nodes.get? a = none →
      Proceeds t w (.dropChain i (some a)) w [] (.dangling a)
  | frees (i : QueueId) (a : Address) (n : Node (Payload V)) (w₁ : World V)
      (fs : List (Frame V)) : w.memory.nodes.get? a = some n →
      Empties ((w.setNodes (w.memory.nodes.erase a)).emit
        (.nodeFreed i a (n.slot.value?.map (·.value)))) n.slot w₁ fs →
      Proceeds t w (.dropChain i (some a)) w₁ (fs ++ [.dropChain i n.next]) .resume
  | stays : (w.thread t).presence.context? = none → Proceeds t w .leave w [] .resume
  | leaves (rs : List Retired) (b : Bag) (s : Site) : (w.site t).leave = (rs, some b, s) →
      Proceeds t w .leave (w.setSite t s) [.reclaim rs, .abandonRest b] .resume
  | keepsNothing (b : Bag) : b.isEmpty = true → Proceeds t w (.abandonRest b) w [] .resume
  | abandons (b : Bag) : b.isEmpty = false →
      Proceeds t w (.abandonRest b) (w.abandoning b) [] .resume
  | exits (byPanic : Bool) :
      Proceeds t w (.finishExit byPanic) (w.setPhase t .exited) [] (.answer (.ended byPanic))

/-- What comes of a step of the thread `t` in the world `w`: the world, the frames and the control
after it. -/
inductive Transition (t : ThreadId) (w : World V) :
    Cue V → World V → List (Frame V) → Control V → Prop where
  | performs {op : Op V} {w' : World V} {fs : List (Frame V)} {c : Control V} :
      Performs t w op w' fs c → Transition t w (.perform op) w' fs c
  | proceeds {f : Frame V} {w' : World V} {fs : List (Frame V)} {c : Control V} :
      Proceeds t w f w' fs c → Transition t w (.proceed f) w' fs c
  | acted (a : Answer V) (label : Option String) (rest : List (Act V)) :
      Transition t w (.receive a (.acting label rest)) (w.emit (.acted label a)) [.script rest]
        .resume
  | passesOn (a : Answer V) (f : Frame V) : (∀ label rest, f ≠ .acting label rest) →
      Transition t w (.receive a f) w [f] .resume
  /-- The end of a thread catches the panics of its acts. -/
  | catches (p : Panic) (label : Option String) (rest : List (Act V)) :
      (w.thread t).phase = .exiting →
      Transition t w (.unwind p (.acting label rest)) (w.emit (.acted label (.panicked p)))
        [.script rest] .resume
  | releases (p : Panic) (f : Frame V) (h : Hazard) : f.hazard? = some h →
      Transition t w (.unwind p f) (w.dropHazard t h).2 [] (.unwind p)
  | passesThrough (p : Panic) (f : Frame V) : f.hazard? = none →
      Transition t w (.unwind p f) w [] (.unwind p)

namespace Run

/-- The thread comes from `m` to `n` and leaves frames on top of its stack; `R` tells of the world
that it comes to, of these frames and of the control. -/
structure Follows (R : World V → List (Frame V) → Control V → Prop) (m n : Run V) : Prop where
  thread : n.thread = m.thread
  frames : ∃ fs, n.stack = fs ++ m.stack ∧ R n.world fs n.control

theorem Follows.imp {R S : World V → List (Frame V) → Control V → Prop} {m n : Run V}
    (h : Follows R m n) (hRS : ∀ w fs c, R w fs c → S w fs c) : Follows S m n := by
  obtain ⟨hthread, fs, hstack, hR⟩ := h
  exact ⟨hthread, fs, hstack, hRS _ _ _ hR⟩

end Run
end Reclaim
