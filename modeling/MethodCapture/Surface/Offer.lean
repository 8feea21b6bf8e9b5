import MethodCapture.Method.Id
import MethodCapture.Primitive

/-!
What an installed probe offers for capture: one invocation of a method with a value for each slot.
-/

namespace MethodCapture

inductive SlotValue where
  | primitive (kind : Primitive) (bits : UInt64)
  | object (handle : UInt64)
  | null
  | unavailable
  deriving DecidableEq

def SlotValue.text : SlotValue → String
  | primitive kind bits => kind.name ++ "=" ++ toString bits.toNat
  | object handle => "Object=" ++ toString handle.toNat
  | null => "Null"
  | unavailable => "Unavailable"

structure Offer where
  method : MethodId
  values : List SlotValue
  deriving DecidableEq

end MethodCapture
