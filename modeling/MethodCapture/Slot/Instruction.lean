import MethodCapture.Primitive
import MethodCapture.Token

/-!
How a probe represents the value of one capture slot. A constructed type is named by the range of
the method's signature that describes it; the bytes are looked up when they are needed.
-/

namespace MethodCapture

inductive Instruction where
  | primitive (kind : Primitive)
  | object
  | typeToken (token : Token)
  | unsupported
  | typeSpec (offset length : Nat)
  deriving DecidableEq

namespace Instruction

def isCapturable : Instruction → Bool
  | unsupported => false
  | _ => true

@[simp] theorem isCapturable_eq_false {i : Instruction} :
    i.isCapturable = false ↔ i = unsupported := by
  cases i <;> simp [isCapturable]

/-- The described part of the signature, when the instruction is a range that lies within it. -/
def excerpt? (signature : List UInt8) : Instruction → Option (List UInt8)
  | typeSpec offset length =>
    if offset + length ≤ signature.length then some ((signature.drop offset).take length) else none
  | _ => none

def text : Instruction → String
  | primitive kind => "primitive(" ++ kind.name ++ ")"
  | object => "object"
  | typeToken t => "token(" ++ t.text ++ ")"
  | unsupported => "unsupported"
  | typeSpec offset length =>
    "typespec(" ++ toString offset ++ ".." ++ toString (offset + length) ++ ")"

/-- The number of offsets: they are 64-bit numbers. -/
def offsetBound : Nat := 0x10000000000000000

/-- A range whose end is no offset has no text. -/
def hasText : Instruction → Bool
  | typeSpec offset length => offset + length < offsetBound
  | _ => true

def text? (i : Instruction) : Option String :=
  if i.hasText then some i.text else none

end Instruction

end MethodCapture
