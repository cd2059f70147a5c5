import Reclaim.Bag
import Reclaim.Config
import Reclaim.Queue
import Reclaim.Refusal

set_option autoImplicit false

namespace Reclaim

mutual

/-- An operation of one thread. A target that is absent is the null pointer. -/
inductive Op (V : Type) : Type where
  | malformed
  | panic (text : String)
  | install (options : ConfigOptions)
  | currentConfig
  | statistics
  | countRetired
  | flush
  | create (record : Name) (acts : List (Act V))
  | retire (record : Name) (deleter : Deleter)
  /-- An absent name is refused when it is reached. -/
  | abandon (capacity : Nat) (records : List (Option Name))
  | setCell (cell : Name) (target : Option Name)
  | swapCell (cell : Name) (target : Option Name)
  | newHazard (hazard : Name) (target : Option Name)
  | tryHazard
  | dropHazard (hazard : Name)
  | protect (hazard : Name) (target : Option Name)
  | load (hazard : Name) (cell : Name)
  | reset (hazard : Name)
  | inspect (hazard : Name)
  | listProtected
  | createQueue (queue : Name) (strategy : WaitStrategy)
  | onQueue (queue : Name) (action : QueueAction V)

inductive QueueAction (V : Type) : Type where
  | malformed
  | enqueue (value : V) (acts : List (Act V))
  | tryEnqueue (value : V) (acts : List (Act V))
  | enqueueEach (count : Nat) (value : Nat → V)
  | tryDequeue
  | tryDequeueTimes (times : Nat)
  | dequeue
  | length
  | bounds
  | describe
  | strategy
  | values
  | nextTimes (times : Nat)

/-- A step of a destructor; the label only names it in the record of events. -/
inductive Act (V : Type) : Type where
  | mk (label : Option String) (op : Op V)

end

instance {V : Type} : Inhabited (Op V) := ⟨.malformed⟩

instance {V : Type} : Inhabited (QueueAction V) := ⟨.malformed⟩

instance {V : Type} : Inhabited (Act V) := ⟨.mk none .malformed⟩

mutual

/-- Bounds the number of operations and queue accesses that an operation leads to. -/
def Op.weight {V : Type} : Op V → Nat
  | .create _ acts => 1 + weightOfActs acts
  | .abandon _ records => 1 + records.length
  | .onQueue _ action => 1 + action.weight
  | _ => 1

def QueueAction.weight {V : Type} : QueueAction V → Nat
  | .enqueue _ acts => 1 + weightOfActs acts
  | .tryEnqueue _ acts => 1 + weightOfActs acts
  | .enqueueEach count _ => 1 + count
  | .tryDequeueTimes times => 1 + times
  | _ => 1

def weightOfActs {V : Type} : List (Act V) → Nat
  | [] => 0
  | ⟨_, op⟩ :: rest => 1 + op.weight + weightOfActs rest

end

inductive Answer (V : Type) where
  | done
  | refused (r : Refusal)
  | panicked (p : Panic)
  | config (c : Config)
  | statistics (active allocated : UInt64)
  | count (n : Nat)
  | flag (b : Bool)
  | record (name : Option Name)
  | records (names : List Name)
  | pointer (target referent : Option Name)
  | description (isNull : Bool) (text : String)
  | taken (v : Option V)
  | takenEach (l : List (Option V))
  | value (v : V)
  | values (l : List V)
  | length (n : Nat) (isEmpty isFull : Bool)
  | bounds (isEmpty isFull : Bool)
  | text (s : String)
  | strategy (s : WaitStrategy) (isLockFree : Bool)
  | ended (byPanic : Bool)

end Reclaim
