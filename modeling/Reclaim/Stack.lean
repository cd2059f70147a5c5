import Reclaim.Address
import Reclaim.Table

set_option autoImplicit false

namespace Reclaim

structure StackCell (α : Type) where
  content : α
  next : Option Address := none

structure Stack (α : Type) where
  head : Option Address := none
  cells : Table Address (StackCell α) := {}

namespace Stack
variable {α : Type}

def isEmpty (s : Stack α) : Bool := s.head.isNone

def allocate (s : Stack α) (a : Address) (content : α) : Stack α :=
  { s with cells := s.cells.insert a { content } }

def free (s : Stack α) (a : Address) : Stack α := { s with cells := s.cells.erase a }

def setNext (s : Stack α) (a : Address) (next : Option Address) : Stack α :=
  { s with cells := s.cells.modify a fun c => { c with next } }

def exchangeHead (s : Stack α) (current : Option Address) (a : Address) : Option (Stack α) :=
  if s.head = current then some { s with head := some a } else none

def push (s : Stack α) (a : Address) : Stack α :=
  let linked := s.setNext a s.head
  (linked.exchangeHead s.head a).getD linked

/-- The head of the chain, which is private to the caller from now on. -/
def takeAll (s : Stack α) : Option Address × Stack α := (s.head, { s with head := none })

def chainFrom (s : Stack α) : (fuel : Nat) → Option Address → List (Address × α)
  | 0, _ => []
  | _, none => []
  | fuel + 1, some a =>
    match s.cells.get? a with
    | none => []
    | some c => (a, c.content) :: s.chainFrom fuel c.next

def chain (s : Stack α) (start : Option Address) : List (Address × α) :=
  s.chainFrom s.cells.size start

def toList (s : Stack α) : List α := (s.chain s.head).map (·.2)

def top? (s : Stack α) : Option α := s.head.bind fun a => (s.cells.get? a).map (·.content)

end Stack
end Reclaim
