/-!
The first byte of a method signature: the low four bits are the calling convention, three of the
others are flags.
-/

namespace MethodCapture.Signature

/-- The flags of a header byte. -/
structure Header where
  bits : UInt8
  deriving DecidableEq

namespace Header

def knownFlags : UInt8 := 0x70

/-- Bits that are no known flag are dropped. -/
def ofByte (b : UInt8) : Header := ⟨b &&& knownFlags⟩

def isGeneric (h : Header) : Bool := h.bits &&& 0x10 != 0

def hasThis (h : Header) : Bool := h.bits &&& 0x20 != 0

def hasExplicitThis (h : Header) : Bool := h.bits &&& 0x40 != 0

end Header

def callingConvention (b : UInt8) : Nat := b.toNat % 16

/-- A method has a convention from 0 to 5; a function pointer may have the unmanaged one, 9, too. -/
def isMethodHeader (nested : Bool) (b : UInt8) : Bool :=
  callingConvention b ≤ 5 || (nested && callingConvention b == 9)

end MethodCapture.Signature
