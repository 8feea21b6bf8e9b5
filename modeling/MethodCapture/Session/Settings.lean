import MethodCapture.Duration
import MethodCapture.Signature.Parameters

/-!
The settings of a capturing session.
-/

namespace MethodCapture

structure Settings where
  maxDuration : Duration
  defaultLimit : Option Nat
  nestingLimit : Nat
  /-- Whether methods may be classified side by side; their order is the same either way. -/
  parallel : Bool
  deriving DecidableEq

namespace Settings

/-- An hour at most, and no limit on captures. -/
def standard : Settings where
  maxDuration := .ofSeconds 3600
  defaultLimit := none
  nestingLimit := Signature.defaultLimit
  parallel := true

/-- Ten minutes and a thousand captures at most, and no work beside the monitored program. -/
def production : Settings where
  maxDuration := .ofSeconds 600
  defaultLimit := some 1000
  nestingLimit := Signature.defaultLimit
  parallel := false

end Settings

end MethodCapture
