import MethodCapture.Method.Id
import MethodCapture.Primitive

/-!
Methods as the metadata declares them. A method has one capture slot for its receiver, if it has
one, and one for each parameter; the shape of a slot is what the declaration alone tells of its
type.
-/

namespace MethodCapture

inductive Shape where
  | byRef
  | byRefLike
  | pointer
  | genericParameter
  | primitive (kind : Primitive)
  | valueType (token : Token) (home : ModuleId) (generic : Bool)
  | array
  | classType
  | interface
  | other
  deriving DecidableEq

structure Parameter where
  name : String
  shape : Shape
  deriving DecidableEq

structure Method where
  id : MethodId
  declaringType : String
  name : String
  receiver : Option Shape
  parameters : List Parameter
  signature : List UInt8
  deriving DecidableEq

namespace Method

/-- Whether the method has a receiver. -/
def isInstance (m : Method) : Bool := m.receiver.isSome

/-- The shapes of the slots: the receiver first, then the parameters in order. -/
def slotShapes (m : Method) : List Shape :=
  m.receiver.toList ++ m.parameters.map (·.shape)

theorem length_slotShapes (m : Method) :
    m.slotShapes.length = m.receiver.toList.length + m.parameters.length := by
  simp [slotShapes]

def text (m : Method) : String :=
  m.declaringType ++ "." ++ m.name ++ " [" ++ m.id.text ++ "]"

end Method

end MethodCapture
