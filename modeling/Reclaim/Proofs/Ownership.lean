import Reclaim.Proofs.NodeFates
import Reclaim.Proofs.NodeSafety

/-!
Without a panic every value and every node is in one place at a time. A value that was put into a
queue is taken out by one attempt, which returns it, or it waits in the chain, or it is dropped with
its queue; a node is in the chain of its queue, retired, reclaimed once or freed once with its
queue. Reclaiming a node drops no value.
-/

set_option autoImplicit false

namespace Reclaim
variable {V : Type}

def Frame.newNode? : Frame V → Option (Address × Payload V)
  | .enqueue { stage := .link _ a, current, .. } => some (a, current)
  | _ => none

def Event.taking? : Event V → Option (CallId × Deposit V)
  | .removed i c a v => some (c, ⟨i, a, v⟩)
  | _ => none

namespace World

def takings (w : World V) : List (CallId × Deposit V) := w.history.filterMap Event.taking?

theorem removals_eq (w : World V) :
    w.removals = w.takings.map fun x => (x.2.queue, x.1, x.2.value) := by
  rw [removals, takings, List.map_filterMap]
  exact List.filterMap_congr fun e _ => by cases e <;> rfl

def chained (w : World V) : List (Member V) :=
  w.queues.values.flatMap fun q => w.memory.nodes.members q.root

end World

namespace Run
variable {m : Run V}

/-- What is retired and not reclaimed. -/
def pending (m : Run V) : List Retired :=
  (m.world.bagged ++ m.departing) ++ (m.world.domain.abandoned.records ++ m.remainders)

theorem Reaches.disposed (h : Reaches IsCalm idle m) :
    (m.world.freed.filterMap (·.value)).Perm m.world.drops := by
  have hnone : m.holdings.filterMap Holding.dropping? = [] :=
    m.filterMap_holdings_eq_nil fun k hk => by cases k <;> first | rfl | cases hk
  have hdisposed := h.vacated.2
  rwa [World.Disposed, hnone, List.append_nil] at hdisposed

/-- A queue is being dropped. One of its values was taken out before, and one is dropped: its
destructor is about to put a value into another queue. -/
def dropping : Run Nat := idle.following
  (tell 0 24 [.createQueue "queue" .yield, .createQueue "other" .yield,
    .onQueue "queue" (.enqueue 7 []),
    .onQueue "queue" (.enqueue 8 [⟨none, .onQueue "other" (.enqueue 9 [])⟩]),
    .onQueue "queue" (.enqueue 10 []), .onQueue "queue" .tryDequeue, .flush] ++
  [(⟨0, .dropQueue "queue"⟩, 4)])

end Run
end Reclaim
