import MethodCapture.Method.Basic
import MethodCapture.Signature.Parameters

/-!
The plan for capturing a method: one instruction for each slot. The declared shape settles most
slots. The rest are deferred to the signature, which is read once and may only improve a deferred
slot: when it cannot be read, or does not have as many parameters as the method, those slots stay
unsupported.
-/

namespace MethodCapture

inductive Verdict where
  | settled (instruction : Instruction)
  | deferred
  deriving DecidableEq

namespace Verdict

/-- The instruction as far as the declaration tells. -/
def instruction : Verdict → Instruction
  | settled i => i
  | deferred => .unsupported

def isDeferred : Verdict → Bool
  | settled _ => false
  | deferred => true

/-- The instruction once the signature has been asked. -/
def complete : Verdict → (found : Option Instruction) → Instruction
  | settled i, _ => i
  | deferred, found => found.getD .unsupported

@[simp] theorem complete_settled (i : Instruction) (found : Option Instruction) :
    (settled i).complete found = i := rfl

@[simp] theorem complete_deferred (found : Option Instruction) :
    deferred.complete found = found.getD .unsupported := rfl

@[simp] theorem complete_none (v : Verdict) : v.complete none = v.instruction := by
  cases v <;> rfl

end Verdict

/-- What a declared shape says in a method of the module `home`. A value type is boxed through its
own token only where that token is valid and names the whole type. -/
def Shape.verdict (home : ModuleId) : Shape → Verdict
  | byRef | byRefLike | pointer | other => .settled .unsupported
  | genericParameter => .deferred
  | primitive kind => .settled (.primitive kind)
  | valueType token module generic =>
    if generic || module != home then .deferred else .settled (.typeToken token)
  | array | classType | interface => .settled .object

namespace Method

/-- The verdicts on the slots, in slot order. -/
def verdicts (m : Method) : List Verdict :=
  m.slotShapes.map (Shape.verdict m.id.module)

def hasExplicitThis (m : Method) : Bool :=
  match m.signature with
  | [] => false
  | b :: _ => (Signature.Header.ofByte b).hasExplicitThis

/-- One instruction for each parameter as the signature has them. An explicit receiver is the first
parameter of the signature, but it has the receiver's slot already. -/
def signatureParameters? (limit : Nat) (m : Method) : Option (List Instruction) :=
  match Signature.parameters limit m.signature with
  | .error _ => none
  | .ok is =>
    let is := if m.hasExplicitThis then is.tail else is
    if is.length = m.parameters.length then some is else none

/-- One instruction for each slot. The signature has none for the receiver. -/
def instructions (limit : Nat) (m : Method) : List Instruction :=
  let found := m.signatureParameters? limit
  m.receiver.toList.map (fun shape => (shape.verdict m.id.module).instruction) ++
    m.parameters.mapIdx fun n p => (p.shape.verdict m.id.module).complete (found.bind (·[n]?))

@[simp] theorem length_instructions (limit : Nat) (m : Method) :
    (m.instructions limit).length = m.slotShapes.length := by
  simp [instructions, slotShapes]

end Method

structure Plan where
  method : Method
  instructions : List Instruction
  deriving DecidableEq

namespace Plan

def ofMethod (limit : Nat) (m : Method) : Plan := ⟨m, m.instructions limit⟩

@[simp] theorem method_ofMethod (limit : Nat) (m : Method) : (ofMethod limit m).method = m := rfl

@[simp] theorem instructions_ofMethod (limit : Nat) (m : Method) :
    (ofMethod limit m).instructions = m.instructions limit := rfl

def isCapturable (p : Plan) (slot : Nat) : Bool :=
  p.instructions[slot]?.any (·.isCapturable)

def capturableCount (p : Plan) : Nat :=
  p.instructions.countP (·.isCapturable)

def isFullyCapturable (p : Plan) : Bool :=
  p.capturableCount == p.instructions.length

end Plan

end MethodCapture
