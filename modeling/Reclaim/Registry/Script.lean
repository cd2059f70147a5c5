import Reclaim.Refusal
import Reclaim.Registry

set_option autoImplicit false

namespace Reclaim.Registry

inductive RecordCommand where
  | malformed
  | release | deactivate | unprotect | tryCapture | capture | isActive | target
  | protect (address : Option Address) (order : StoreOrder)

inductive Command where
  | malformed
  | activate | entries | protectedAddresses | counters
  /-- Without a number no record is meant. -/
  | onRecord (record : Option RecordId) (command : RecordCommand)

inductive Reply where
  | done
  | record (i : RecordId)
  | entries (l : List (RecordId × Bool))
  | addresses (l : List Address)
  | flag (b : Bool)
  | target (a : Option Address)

def performOn (g : Registry) (i : RecordId) : RecordCommand → Except Failure (Reply × Registry)
  | .malformed => .error (.refused .badInput)
  | .release => ((g.release i).map fun g => (.done, g)).mapError .panicked
  | .deactivate => .ok (.done, g.deactivate i)
  | .unprotect => .ok (.done, g.protect i none)
  | .tryCapture => let (b, g) := g.tryCapture i; .ok (.flag b, g)
  | .capture => let (b, g) := g.capture i; .ok (.flag b, g)
  | .isActive => .ok (.flag (g.isActive i), g)
  | .target => .ok (.target (g.target i), g)
  | .protect a order => ((g.protectWith i a order).map fun g => (.done, g)).mapError .panicked

def perform (g : Registry) : Command → Except Failure (Reply × Registry)
  | .malformed => .error (.refused .badInput)
  | .activate => let (i, g) := g.activated; .ok (.record i, g)
  | .entries => .ok (.entries g.entries, g)
  | .protectedAddresses => .ok (.addresses g.protectedAddresses, g)
  | .counters => .ok (.done, g)
  | .onRecord record c =>
    match record.filter g.contains with
    | some i => g.performOn i c
    | none => .error (.refused .unknown)

/-- Each result with the registry that it leaves; a failure leaves the registry as it was. -/
def runScript (g : Registry) : List Command → List (Except Failure Reply × Registry)
  | [] => []
  | c :: rest =>
    match g.perform c with
    | .error f => (.error f, g) :: g.runScript rest
    | .ok (r, g) => (.ok r, g) :: g.runScript rest

end Reclaim.Registry
