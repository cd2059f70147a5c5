import Reclaim.Address

set_option autoImplicit false

namespace Reclaim

inductive Slot (V : Type) where
  | vacant
  | full (v : V)
  /-- Claimed and not moved out yet: nobody else can get at the value. -/
  | claimed (v : V)
  deriving Repr

namespace Slot
variable {V : Type}

def isValid : Slot V → Bool
  | full _ => true
  | _ => false

def value? : Slot V → Option V
  | full v => some v
  | _ => none

def claim : Slot V → Bool × Slot V
  | full v => (true, claimed v)
  | s => (false, s)

def take : Slot V → Option V × Slot V
  | claimed v => (some v, vacant)
  | s => (none, s)

/-- Overwrites a value that nobody has claimed and gives back the old one. -/
def replace (s : Slot V) (v : V) : Option V × Slot V :=
  match s with
  | full old => (some old, full v)
  | s => (none, s)

def describe (s : Slot V) : String :=
  Text.record "ValueSlot" [("valid", Text.bool s.isValid)]

end Slot

structure Node (V : Type) where
  next : Option Address := none
  slot : Slot V := .vacant
  deriving Repr

namespace Node
variable {V : Type}

def describe (n : Node V) : String :=
  Text.record "QueueNode" [("next", Address.describe n.next), ("value", n.slot.describe)]

end Node
end Reclaim
