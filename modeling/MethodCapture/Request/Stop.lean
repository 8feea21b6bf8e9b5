/-!
Why a request stops. A stop signal is resolved at most once: the first reason stays.
-/

namespace MethodCapture

inductive StopReason where
  | explicit
  | durationElapsed
  | limitReached
  | shutdown
  | cancelled
  deriving DecidableEq

namespace StopReason

def all : List StopReason := [explicit, durationElapsed, limitReached, shutdown, cancelled]

def name : StopReason → String
  | explicit => "Explicit"
  | durationElapsed => "DurationElapsed"
  | limitReached => "LimitReached"
  | shutdown => "Shutdown"
  | cancelled => "Cancelled"

end StopReason

structure StopSignal where
  reason : Option StopReason
  deriving DecidableEq

namespace StopSignal

def unresolved : StopSignal := ⟨none⟩

def isResolved (s : StopSignal) : Bool := s.reason.isSome

def resolve (s : StopSignal) (reason : StopReason) : StopSignal :=
  ⟨some (s.reason.getD reason)⟩

/-- Whether `resolve` would take effect. -/
def wins (s : StopSignal) : Bool := s.reason.isNone

@[simp] theorem reason_resolve (s : StopSignal) (reason : StopReason) :
    (s.resolve reason).reason = some (s.reason.getD reason) := rfl

@[simp] theorem isResolved_resolve (s : StopSignal) (reason : StopReason) :
    (s.resolve reason).isResolved = true := rfl

@[simp] theorem resolve_resolve (s : StopSignal) (first second : StopReason) :
    (s.resolve first).resolve second = s.resolve first := rfl

theorem resolve_of_isResolved {s : StopSignal} (h : s.isResolved) (reason : StopReason) :
    s.resolve reason = s := by
  rcases s with ⟨_ | r⟩
  · cases h
  · rfl

end StopSignal

end MethodCapture
