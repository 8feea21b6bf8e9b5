import MethodCapture.Text.Digits

/-!
Why a signature cannot be read: it ends too early, nests too deeply, or holds a byte or number that
has no meaning where it stands.
-/

namespace MethodCapture.Signature

inductive Flaw where
  | integerLead (byte : UInt8)
  | tokenTag (value : Nat)
  | notMethod (header : UInt8)
  | repeatedSentinel
  | genericHead (byte : UInt8)
  | noTypeArguments
  | element (byte : UInt8)
  deriving DecidableEq

def Flaw.message : Flaw → String
  | integerLead b => "Invalid compressed uint - " ++ toString b.toNat
  | tokenTag v => "Invalid compressed token - " ++ toString v
  | notMethod h => "Not a method signature - header 0x" ++ Digits.paddedHex 2 h.toNat
  | repeatedSentinel => "Duplicate vararg sentinel"
  | genericHead b =>
    "GENERICINST - Next byte is not TYPE_CLASS or TYPE_VALUE - " ++ toString b.toNat
  | noTypeArguments => "GENERICINST - Zero type arguments"
  | element b => "Unsupported ELEMENT_TYPE - " ++ toString b.toNat

inductive Fault where
  | outOfBounds
  | nestingLimit (limit : Nat)
  | malformed (flaw : Flaw)
  deriving DecidableEq

def Fault.message : Fault → String
  | outOfBounds => "Out of Bound read would have occurred!"
  | nestingLimit n => "Reach the maximum recursion level allowed - " ++ toString n
  | malformed flaw => flaw.message

end MethodCapture.Signature
