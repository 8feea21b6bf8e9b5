import MethodCapture.Duration
import MethodCapture.Method.Description
import MethodCapture.Request.Id
import MethodCapture.Signature.Fault

/-!
Everything that can go wrong with a request, and the text an operator sees. A failure report carries
a coarser reason beside the text.
-/

namespace MethodCapture

inductive Failure where
  | malformed (message file : String) (line : Nat)
  | outOfBounds
  | nestingLimit (limit : Nat)
  | emptyRequest
  | invalidLimit
  | invalidDuration (duration : Duration)
  | deniedMethods (methods : List Description)
  | tooManyRequests
  | duplicateRequest (id : RequestId)
  | unknownRequest (id : RequestId)
  | unresolvedMethods (methods : List Description)
  | instrumentation (message : String)
  | shuttingDown
  deriving DecidableEq

def Failure.text : Failure → String
  | malformed message file line => "Malformed - " ++ file ++ ":" ++ toString line ++ ": " ++ message
  | outOfBounds => Signature.Fault.outOfBounds.message
  | nestingLimit limit => (Signature.Fault.nestingLimit limit).message
  | emptyRequest => "A capturing request must name at least one method"
  | invalidLimit => "The capture limit must be greater than zero"
  | invalidDuration d => "Invalid capturing duration - " ++ d.text
  | deniedMethods ds => "Denied methods - " ++ Description.listText ds
  | tooManyRequests => "Too many concurrent capturing requests"
  | duplicateRequest id => "A request with id " ++ id.text ++ " already exists"
  | unknownRequest id => "Unknown request - " ++ id.text
  | unresolvedMethods ds => "Unresolved methods - " ++ Description.listText ds
  | instrumentation message => "Instrumentation failed - " ++ message
  | shuttingDown => "The capturing orchestrator is shutting down"

inductive FailureReason where
  | unresolvedMethods
  | deniedMethods
  | tooManyRequests
  | internalError
  deriving DecidableEq

def FailureReason.name : FailureReason → String
  | unresolvedMethods => "UnresolvedMethods"
  | deniedMethods => "DeniedMethods"
  | tooManyRequests => "TooManyRequests"
  | internalError => "InternalError"

/-- The reason reported when a request that was taken up fails. -/
def Failure.processingReason : Failure → FailureReason
  | unresolvedMethods _ => .unresolvedMethods
  | _ => .internalError

end MethodCapture
