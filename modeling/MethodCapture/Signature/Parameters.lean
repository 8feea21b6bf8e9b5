import MethodCapture.Signature.Cursor
import MethodCapture.Signature.Element
import MethodCapture.Signature.Header
import MethodCapture.Slot.Instruction

/-!
The parameters of a method signature, each with the instruction for its type. A signature is read
from its start and need not use all the bytes. Types nest; the readers of the parts of a type take
the reader for the types one level further in as an argument, and `typeAt` closes the recursion over
the number of levels that are left.
-/

namespace MethodCapture.Signature

open Reader

/-- Custom modifiers: each is a modifier byte and a token. -/
def modifiers (c : Cursor) : EStateM.Result Fault Cursor Unit :=
  match h : c.rest with
  | [] => .ok () c
  | b :: bs =>
    if isModifier b then
      match ht : token ⟨c.position + 1, bs⟩ with
      | .ok _ c' =>
        have : c'.rest.length < c.rest.length := by
          have := token_advances _ _ _ ht
          simp only [h, List.length_cons] at this ⊢
          omega
        modifiers c'
      | .error e c' => .error e c'
    else .ok () c
termination_by c.rest.length

/-- Runs `r` the given number of times. -/
def times {α : Type} (r : Reader α) : Nat → Reader (List α)
  | 0 => return []
  | n + 1 => do
    let a ← r
    let as ← times r n
    return a :: as

@[simp] theorem times_zero {α : Type} (r : Reader α) : times r 0 = pure [] := rfl

@[simp] theorem times_succ {α : Type} (r : Reader α) (n : Nat) :
    times r (n + 1) = (do let a ← r; let as ← times r n; return a :: as) := rfl

/-- Whatever a reference is passed to, its slot cannot be captured. -/
def parameterWith (type : Reader Instruction) : Reader Instruction := do
  modifiers
  let b ← peek
  if b = Element.byRef.code then
    skip
    let _ ← type
    return .unsupported
  else
    type

/-- The given number of parameters. Those behind the sentinel are read and dropped. -/
def parametersWith (type : Reader Instruction) : (count : Nat) → (optional : Bool) →
    Reader (List Instruction)
  | 0, _ => return []
  | n + 1, optional => do
    let b ← peek
    if b = sentinel then
      if optional then
        malformed .repeatedSentinel
      skip
      let _ ← parameterWith type
      parametersWith type n true
    else
      let i ← parameterWith type
      let is ← parametersWith type n optional
      return if optional then is else i :: is

/-- Header, number of type parameters if the method is generic, number of parameters, result,
parameters. -/
def methodWith (type : Reader Instruction) (nested : Bool) : Reader (List Instruction) := do
  let header ← byte
  if !isMethodHeader nested header then
    malformed (.notMethod header)
  if (Header.ofByte header).isGeneric then
    let _ ← integer
  let count ← integer
  let _ ← parameterWith type
  parametersWith type count false

/-- The range from `start` to the cursor. -/
def rangeFrom (start : Nat) : Reader Instruction := do
  let stop ← position
  return .typeSpec start (stop - start)

/-- Rank, sizes and lower bounds of an array. -/
def arrayBounds : Reader Unit := do
  let _ ← integer
  let sizes ← integer
  let _ ← times integer sizes
  let lowerBounds ← integer
  let _ ← times integer lowerBounds

/-- The generic type, which must be a class or a value type, and at least one argument. -/
def genericArguments (type : Reader Instruction) : Reader Unit := do
  let b ← peek
  if b ≠ Element.classType.code ∧ b ≠ Element.valueType.code then
    malformed (.genericHead b)
  let _ ← type
  let count ← integer
  if count = 0 then
    malformed .noTypeArguments
  let _ ← times type count

/-- What follows the opening element of a type that began at `start`. -/
def elementWith (type : Reader Instruction) (start : Nat) : Element → Reader Instruction
  | .primitive kind => return .primitive kind
  | .string | .object => return .object
  | .void | .typedReference => return .unsupported
  | .classType => do
    let _ ← token
    return .object
  | .valueType => do
    let t ← token
    if t.table = Table.typeSpec then rangeFrom start else return .typeToken t
  | .typeVariable | .methodVariable => do
    let _ ← integer
    rangeFrom start
  | .vector => do
    modifiers
    let _ ← type
    return .object
  | .array => do
    let _ ← type
    arrayBounds
    return .object
  | .genericInstance => do
    genericArguments type
    rangeFrom start
  | .pointer => do
    modifiers
    let _ ← type
    return .unsupported
  | .byRef => do
    let _ ← type
    return .unsupported
  | .functionPointer => do
    let _ ← methodWith type true
    return .unsupported
  | .requiredModifier | .optionalModifier => do
    let _ ← token
    type

def typeWith (type : Reader Instruction) : Reader Instruction := do
  let start ← position
  let b ← byte
  match Element.ofCode? b with
  | some e => elementWith type start e
  | none => malformed (.element b)

/-- A type that may nest through `levels` levels, its own included; `limit` is the bound to
report. -/
def typeAt (limit : Nat) : (levels : Nat) → Reader Instruction
  | 0, c => .error (.nestingLimit limit) c
  | levels + 1, c => typeWith (fun c => typeAt limit levels c) c

@[simp] theorem typeAt_zero (limit : Nat) : typeAt limit 0 = throw (.nestingLimit limit) := rfl

@[simp] theorem typeAt_succ (limit levels : Nat) :
    typeAt limit (levels + 1) = typeWith (typeAt limit levels) := rfl

/-- A type stands below `limit` only if its nesting level, counted from one, is smaller. -/
def method (limit : Nat) : Reader (List Instruction) :=
  methodWith (typeAt limit (limit - 1)) false

/-- The nesting limit when none is chosen. -/
def defaultLimit : Nat := 50

/-- The instructions of the required parameters of a signature. -/
def parameters (limit : Nat) (signature : List UInt8) : Except Fault (List Instruction) :=
  match method limit (.ofBytes signature) with
  | .ok is _ => .ok is
  | .error e _ => .error e

end MethodCapture.Signature
