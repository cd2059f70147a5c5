import Reclaim.Stack
import Reclaim.Waiter

/-!
Pushes and takings of whole chains by any number of threads, one access at a time. An exchange may
fail for no reason. Cells of a chain that was taken are freed one by one by its taker, and the
address of a cell that was freed may be used for another cell at once.
-/

set_option autoImplicit false

namespace Reclaim.Interleaved

inductive Pushing where
  | readHead
  | link (seen : Option Address)
  | exchange (seen : Option Address)
  deriving DecidableEq, Repr

inductive StackEvent (α : Type) where
  | pushed (a : Address) (content : α)
  | taken (t : ThreadId) (start : Option Address)
  | freed (t : ThreadId) (a : Address) (content : α)

structure StackState (α : Type) where
  stack : Stack α := {}
  /-- The cell that a thread is pushing, and how far it has come. -/
  pushing : Table ThreadId (Address × Pushing) := {}
  /-- What is left of the chain that a thread has taken. -/
  chains : Table ThreadId (Option Address) := {}
  history : List (StackEvent α) := []

inductive StackMove (α : Type) where
  | push (t : ThreadId) (a : Address) (content : α)
  /-- The next access of a push; an exchange fails if `spurious`. -/
  | step (t : ThreadId) (spurious : Bool)
  | takeAll (t : ThreadId)
  /-- The taker reads the link of the first cell that is left, and frees the cell. -/
  | free (t : ThreadId)

def Pushing.step {α : Type} (s : Stack α) (a : Address) (spurious : Bool) :
    Pushing → Option Pushing × Stack α
  | readHead => (some (link s.head), s)
  | link seen => (some (exchange seen), s.setNext a seen)
  | exchange seen =>
    match if spurious then none else s.exchangeHead seen a with
    | some s' => (none, s')
    | none => (some readHead, s)

/-- A push that nothing comes in between of is the push of the sequential stack. -/
theorem Pushing.step_alone {α : Type} (s : Stack α) (a : Address) :
    let linked := (Pushing.step s a false readHead).2
    let seen := s.head
    (Pushing.step (Pushing.step linked a false (link seen)).2 a false (exchange seen)) =
      (none, s.push a) := by
  simp [Pushing.step, Stack.push, Stack.exchangeHead, Stack.setNext]

namespace StackState
variable {α : Type}

def stepPush (s : StackState α) (t : ThreadId) (spurious : Bool) (a : Address) (p : Pushing) :
    StackState α :=
  match p.step s.stack a spurious with
  | (some p, stack) => { s with stack, pushing := s.pushing.insert t (a, p) }
  | (none, stack) =>
    { s with
      stack
      pushing := s.pushing.erase t
      history := ((stack.cells.get? a).toList.map fun c => .pushed a c.content) ++ s.history }

def move (s : StackState α) : StackMove α → StackState α
  | .push t a content =>
    if s.pushing.contains t || s.stack.cells.contains a then s
    else
      { s with
        stack := s.stack.allocate a content
        pushing := s.pushing.insert t (a, .readHead) }
  | .step t spurious =>
    match s.pushing.get? t with
    | some (a, p) => s.stepPush t spurious a p
    | none => s
  | .takeAll t =>
    if s.pushing.contains t || s.chains.contains t then s
    else
      let (start, stack) := s.stack.takeAll
      { s with
        stack
        chains := s.chains.insert t start
        history := .taken t start :: s.history }
  | .free t =>
    match s.chains.get? t with
    | none => s
    | some none => { s with chains := s.chains.erase t }
    | some (some a) =>
      match s.stack.cells.get? a with
      | none => s
      | some c =>
        { s with
          stack := s.stack.free a
          chains := s.chains.insert t c.next
          history := .freed t a c.content :: s.history }

inductive Reachable : StackState α → Prop where
  | initial : Reachable {}
  | move {s : StackState α} (m : StackMove α) : Reachable s → Reachable (s.move m)

end StackState
end Reclaim.Interleaved
