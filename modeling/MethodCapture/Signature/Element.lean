import MethodCapture.Primitive

/-!
The bytes that open a type in a signature.
-/

namespace MethodCapture.Signature

inductive Element where
  | void
  | primitive (kind : Primitive)
  | string
  | pointer
  | byRef
  | valueType
  | classType
  | typeVariable
  | array
  | genericInstance
  | typedReference
  | functionPointer
  | object
  | vector
  | methodVariable
  | requiredModifier
  | optionalModifier
  deriving DecidableEq

namespace Element

def code : Element → UInt8
  | void => 0x01
  | primitive kind => kind.code
  | string => 0x0e
  | pointer => 0x0f
  | byRef => 0x10
  | valueType => 0x11
  | classType => 0x12
  | typeVariable => 0x13
  | array => 0x14
  | genericInstance => 0x15
  | typedReference => 0x16
  | functionPointer => 0x1b
  | object => 0x1c
  | vector => 0x1d
  | methodVariable => 0x1e
  | requiredModifier => 0x1f
  | optionalModifier => 0x20

/-- The elements that are not primitive types. -/
def constructed : List Element :=
  [void, string, pointer, byRef, valueType, classType, typeVariable, array, genericInstance,
    typedReference, functionPointer, object, vector, methodVariable, requiredModifier,
    optionalModifier]

def ofCode? (b : UInt8) : Option Element :=
  match Primitive.ofCode? b with
  | some kind => some (.primitive kind)
  | none => constructed.find? (·.code == b)

@[simp] theorem ofCode?_code (e : Element) : ofCode? e.code = some e := by
  cases e with
  | primitive kind => simp [ofCode?, code]
  | _ => decide

theorem code_of_ofCode? {b : UInt8} {e : Element} (h : ofCode? b = some e) : e.code = b := by
  unfold ofCode? at h
  split at h
  · next kind hk =>
    cases h
    exact Primitive.code_of_ofCode? hk
  · simpa using List.find?_some h

theorem ofCode?_eq_some_iff {b : UInt8} {e : Element} : ofCode? b = some e ↔ e.code = b :=
  ⟨code_of_ofCode?, fun h => h ▸ ofCode?_code e⟩

theorem code_inj {e e' : Element} (h : e.code = e'.code) : e = e' := by
  have he : ofCode? e'.code = some e := ofCode?_eq_some_iff.2 h
  rw [ofCode?_code] at he
  exact (Option.some.inj he).symm

end Element

/-- Stands before the first optional argument of a variable argument list. -/
def sentinel : UInt8 := 0x41

def isModifier (b : UInt8) : Bool :=
  b == Element.requiredModifier.code || b == Element.optionalModifier.code

theorem isModifier_code_iff {e : Element} :
    isModifier e.code = true ↔ e = .requiredModifier ∨ e = .optionalModifier := by
  rw [isModifier, Bool.or_eq_true, beq_iff_eq, beq_iff_eq]
  constructor
  · rintro (h | h)
    · exact .inl (Element.code_inj h)
    · exact .inr (Element.code_inj h)
  · rintro (rfl | rfl)
    · exact .inl rfl
    · exact .inr rfl

theorem exists_code_of_isModifier {b : UInt8} (h : isModifier b = true) :
    ∃ e : Element, (e = .requiredModifier ∨ e = .optionalModifier) ∧ e.code = b := by
  rw [isModifier, Bool.or_eq_true, beq_iff_eq, beq_iff_eq] at h
  rcases h with rfl | rfl
  · exact ⟨.requiredModifier, .inl rfl, rfl⟩
  · exact ⟨.optionalModifier, .inr rfl, rfl⟩

/-- The sentinel opens no type. -/
theorem Element.code_ne_sentinel (e : Element) : e.code ≠ sentinel := by
  cases e with
  | primitive kind => cases kind <;> decide
  | _ => decide

end MethodCapture.Signature
