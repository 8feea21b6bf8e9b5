/-!
The stages of a request. Three of them are final; probes are installed in two.
-/

namespace MethodCapture

inductive Stage where
  | pending
  | validating
  | resolving
  | active
  | stopping
  | completed
  | faulted
  | denied
  deriving DecidableEq

namespace Stage

/-- In the order of their numbers. -/
def all : List Stage :=
  [pending, validating, resolving, active, stopping, completed, faulted, denied]

def ofNumber? (n : Nat) : Option Stage := all[n]?

def name : Stage → String
  | pending => "Pending"
  | validating => "Validating"
  | resolving => "Resolving"
  | active => "Active"
  | stopping => "Stopping"
  | completed => "Completed"
  | faulted => "Faulted"
  | denied => "Denied"

def isFinal : Stage → Bool
  | completed | faulted | denied => true
  | _ => false

def isProbed : Stage → Bool
  | active | stopping => true
  | _ => false

end Stage

end MethodCapture
