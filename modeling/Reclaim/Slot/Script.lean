import Reclaim.Refusal
import Reclaim.Slot

set_option autoImplicit false

namespace Reclaim.Slot
variable {V : Type}

inductive NodeCommand (V : Type) where
  | malformed
  | drop | isValid | invalidate | take | value | replace (v : V) | describe | describeNode
  | nextIsNull

inductive Command (V : Type) where
  | malformed
  | create (s : Slot V)
  | onNode (command : NodeCommand V)

inductive Reply (V : Type) where
  | done
  | flag (b : Bool)
  | taken (v : V)
  | value (v : Option V)
  | text (s : String)

def dropped : Option (Node V) → List V
  | none => []
  | some n => n.slot.value?.toList

structure Step (V : Type) where
  result : Except Refusal (Reply V)
  dropped : List V := []
  node : Option (Node V)

def performOn (n : Node V) : NodeCommand V → Step V
  | .malformed => { result := .error .badInput, node := some n }
  | .drop => { result := .ok .done, dropped := dropped (some n), node := none }
  | .isValid => { result := .ok (.flag n.slot.isValid), node := some n }
  | .invalidate =>
    let (won, slot) := n.slot.claim
    { result := .ok (.flag won), node := some { n with slot } }
  | .take =>
    match n.slot.take with
    | (some v, slot) =>
      { result := .ok (.taken v), dropped := [v], node := some { n with slot } }
    | (none, slot) => { result := .error .notClaimed, node := some { n with slot } }
  | .value => { result := .ok (.value n.slot.value?), node := some n }
  | .replace v =>
    let (old, slot) := n.slot.replace v
    { result := .ok (.flag old.isSome), dropped := old.toList, node := some { n with slot } }
  | .describe => { result := .ok (.text n.slot.describe), node := some n }
  | .describeNode => { result := .ok (.text n.describe), node := some n }
  | .nextIsNull => { result := .ok (.flag n.next.isNone), node := some n }

def perform (node : Option (Node V)) : Command V → Step V
  | .malformed => { result := .error .badInput, node }
  | .create slot => { result := .ok .done, dropped := dropped node, node := some { slot } }
  | .onNode c =>
    match node with
    | none => { result := .error .noNode, node }
    | some n => performOn n c

def runScript (node : Option (Node V)) : List (Command V) → List (Step V) × List V
  | [] => ([], dropped node)
  | c :: rest =>
    let s := perform node c
    let (steps, last) := runScript s.node rest
    (s :: steps, last)

end Reclaim.Slot
