import MethodCapture.Token

/-!
The identity of a method: the module that holds it and its token there. Methods are ordered by
module and then by token.
-/

namespace MethodCapture

structure ModuleId where
  value : UInt64
  deriving DecidableEq

def ModuleId.text (m : ModuleId) : String :=
  "0x" ++ Digits.hex m.value.toNat

structure MethodId where
  module : ModuleId
  token : Token
  deriving DecidableEq

namespace MethodId

def text (m : MethodId) : String :=
  m.module.text ++ ":" ++ m.token.text

def le (a b : MethodId) : Bool :=
  if a.module = b.module then a.token.value ≤ b.token.value else a.module.value ≤ b.module.value

/-- Every id once, in ascending order. -/
def ascending (ids : List MethodId) : List MethodId :=
  (ids.mergeSort le).eraseReps

end MethodId

end MethodCapture
