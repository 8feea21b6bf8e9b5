/-!
The primitive value types a probe can capture by value, and the byte that stands for each of them in
a signature.
-/

namespace MethodCapture

inductive Primitive where
  | boolean
  | char
  | sbyte
  | byte
  | int16
  | uint16
  | int32
  | uint32
  | int64
  | uint64
  | intPtr
  | uintPtr
  | single
  | double
  deriving DecidableEq

namespace Primitive

def all : List Primitive :=
  [boolean, char, sbyte, byte, int16, uint16, int32, uint32, int64, uint64, intPtr, uintPtr, single,
    double]

def name : Primitive → String
  | boolean => "Boolean"
  | char => "Char"
  | sbyte => "SByte"
  | byte => "Byte"
  | int16 => "Int16"
  | uint16 => "UInt16"
  | int32 => "Int32"
  | uint32 => "UInt32"
  | int64 => "Int64"
  | uint64 => "UInt64"
  | intPtr => "IntPtr"
  | uintPtr => "UIntPtr"
  | single => "Single"
  | double => "Double"

def code : Primitive → UInt8
  | boolean => 0x02
  | char => 0x03
  | sbyte => 0x04
  | byte => 0x05
  | int16 => 0x06
  | uint16 => 0x07
  | int32 => 0x08
  | uint32 => 0x09
  | int64 => 0x0a
  | uint64 => 0x0b
  | single => 0x0c
  | double => 0x0d
  | intPtr => 0x18
  | uintPtr => 0x19

def ofCode? (b : UInt8) : Option Primitive :=
  all.find? (·.code == b)

@[simp] theorem ofCode?_code (p : Primitive) : ofCode? p.code = some p := by
  cases p <;> decide

theorem code_of_ofCode? {b : UInt8} {p : Primitive} (h : ofCode? b = some p) : p.code = b := by
  simpa using List.find?_some h

end Primitive

end MethodCapture
