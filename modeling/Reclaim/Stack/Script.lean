import Reclaim.Refusal
import Reclaim.Stack

set_option autoImplicit false

namespace Reclaim.Stack
variable {α : Type}

inductive Command (α : Type) where
  | malformed
  | push (content : α)
  | top | list | isEmpty | takeAll

inductive Reply (α : Type) where
  | done
  | content (c : Option α)
  | contents (l : List α)
  | flag (b : Bool)

def takeAndFree (s : Stack α) : List α × Stack α :=
  let (start, s) := s.takeAll
  let taken := s.chain start
  (taken.map (·.2), taken.foldl (fun s c => s.free c.1) s)

def perform (s : Stack α) (fresh : Address) : Command α → Except Refusal (Reply α) × Stack α
  | .malformed => (.error .badInput, s)
  | .push c => (.ok .done, (s.allocate fresh c).push fresh)
  | .top => (.ok (.content s.top?), s)
  | .list => (.ok (.contents s.toList), s)
  | .isEmpty => (.ok (.flag s.isEmpty), s)
  | .takeAll => let (l, s) := s.takeAndFree; (.ok (.contents l), s)

def runScript (s : Stack α) (fresh : Address) : List (Command α) → List (Except Refusal (Reply α))
  | [] => []
  | c :: rest =>
    let (r, s) := s.perform fresh c
    r :: s.runScript (fresh + 1) rest

end Reclaim.Stack
