import MethodCapture.Proofs.Signature.Form

/-!
The grammar of method signatures. Each type has its instruction; a range in an instruction is
counted from the first byte of the signature. The productions for a type are stated over the form
`T` of the types one level further in, and `IsType` closes them over the number of levels.
-/

namespace MethodCapture.Signature

/-- What may stand after the modifiers of a parameter. -/
inductive IsPassed (T : Form Instruction) : Form Instruction
  | byRef {p : Nat} {u : List UInt8} {i : Instruction} (h : T (p + 1) u i) :
      IsPassed T p (Element.byRef.code :: u) .unsupported
  | byValue {p : Nat} {u : List UInt8} {i : Instruction} (hb : u.head? ≠ some Element.byRef.code)
      (h : T p u i) : IsPassed T p u i

/-- Modifiers in front of a parameter are its own, never those of its type. -/
def IsParameter (T : Form Instruction) : Form Instruction := (IsPassed T).afterModifiers

/-- A number of parameters with the instructions of the required ones. The sentinel stands directly
before the first optional one. -/
inductive IsParameters (T : Form Instruction) : Nat → Form (List Instruction)
  | required {n p : Nat} {w : List UInt8} {is : List Instruction}
      (h : Repeat (IsParameter T) n p w is) : IsParameters T n p w is
  | withOptional {n k m p : Nat} {u v : List UInt8} {is js : List Instruction}
      (hn : n = k + (m + 1)) (hu : Repeat (IsParameter T) k p u is)
      (hv : Repeat (IsParameter T) (m + 1) (p + u.length + 1) v js) :
      IsParameters T n p (u ++ sentinel :: v) is

/-- Opens a method. The low four bits are the calling convention, which is one from 0 to 5; a
function pointer may have the unmanaged one, 9, too. -/
def IsHeader (nested : Bool) (header : UInt8) : Prop :=
  header &&& 0x0f ≤ 5 ∨ nested = true ∧ header &&& 0x0f = 9

/-- The number of type parameters of a generic method; others have no such number. -/
inductive IsGenericCount : UInt8 → List UInt8 → Prop
  | absent {header : UInt8} (hh : header &&& 0x10 = 0) : IsGenericCount header []
  | present {header : UInt8} {u : List UInt8} {n : Nat} (hh : header &&& 0x10 ≠ 0)
      (hu : IsInteger u n) : IsGenericCount header u

/-- Header, number of type parameters, number of parameters, result, parameters. -/
inductive IsMethod (T : Form Instruction) (nested : Bool) : Form (List Instruction)
  | mk {p n : Nat} {header : UInt8} {u v r w : List UInt8} {i : Instruction} {is : List Instruction}
      (hh : IsHeader nested header) (hu : IsGenericCount header u) (hv : IsInteger v n)
      (hr : IsParameter T (p + 1 + u.length + v.length) r i)
      (hw : IsParameters T n (p + 1 + u.length + v.length + r.length) w is) :
      IsMethod T nested p (header :: (u ++ (v ++ (r ++ w)))) is

/-- A number of integers, written down before them. -/
inductive IsCounted : Form (List Nat)
  | mk {p n : Nat} {u v : List UInt8} {as : List Nat} (hu : IsInteger u n)
      (hv : Repeat (.anywhere IsInteger) n (p + u.length) v as) : IsCounted p (u ++ v) as

/-- The rank, the sizes and the lower bounds. -/
inductive IsArrayBounds : Form Unit
  | mk {p rank : Nat} {r u v : List UInt8} {sizes lowerBounds : List Nat} (hr : IsInteger r rank)
      (hu : IsCounted (p + r.length) u sizes)
      (hv : IsCounted (p + r.length + u.length) v lowerBounds) :
      IsArrayBounds p (r ++ (u ++ v)) ()

/-- A class or value type by its token. -/
inductive IsNamed : List UInt8 → Prop
  | mk {e : Element} {u : List UInt8} {t : Token} (he : e = .classType ∨ e = .valueType)
      (hu : IsToken u t) : IsNamed (e.code :: u)

/-- The generic type, the number of arguments and at least one argument. -/
inductive IsGenericArguments (T : Form Instruction) : Form Unit
  | mk {p n : Nat} {u v w : List UInt8} {is : List Instruction} (hu : IsNamed u)
      (hv : IsInteger v n) (hn : n ≠ 0) (hw : Repeat T n (p + u.length + v.length) w is) :
      IsGenericArguments T p (u ++ (v ++ w)) ()

/-- What follows the opening element of a type that began at `start`. A range goes from there to the
end of the type. -/
inductive Follows (T : Form Instruction) (start : Nat) : Element → Form Instruction
  | primitive {p : Nat} (kind : Primitive) :
      Follows T start (.primitive kind) p [] (.primitive kind)
  | string {p : Nat} : Follows T start .string p [] .object
  | object {p : Nat} : Follows T start .object p [] .object
  | void {p : Nat} : Follows T start .void p [] .unsupported
  | typedReference {p : Nat} : Follows T start .typedReference p [] .unsupported
  | classType {p : Nat} {u : List UInt8} {t : Token} (h : IsToken u t) :
      Follows T start .classType p u .object
  | valueType {p : Nat} {u : List UInt8} {t : Token} (h : IsToken u t)
      (ht : t.table ≠ Table.typeSpec) : Follows T start .valueType p u (.typeToken t)
  | describedValueType {p : Nat} {u : List UInt8} {t : Token} (h : IsToken u t)
      (ht : t.table = Table.typeSpec) :
      Follows T start .valueType p u (.typeSpec start (p + u.length - start))
  | typeVariable {p n : Nat} {u : List UInt8} (h : IsInteger u n) :
      Follows T start .typeVariable p u (.typeSpec start (p + u.length - start))
  | methodVariable {p n : Nat} {u : List UInt8} (h : IsInteger u n) :
      Follows T start .methodVariable p u (.typeSpec start (p + u.length - start))
  | vector {p : Nat} {u v : List UInt8} {i : Instruction} (hu : IsModifiers u)
      (hv : T (p + u.length) v i) : Follows T start .vector p (u ++ v) .object
  | pointer {p : Nat} {u v : List UInt8} {i : Instruction} (hu : IsModifiers u)
      (hv : T (p + u.length) v i) : Follows T start .pointer p (u ++ v) .unsupported
  | array {p : Nat} {u v : List UInt8} {i : Instruction} (hu : T p u i)
      (hv : IsArrayBounds (p + u.length) v ()) : Follows T start .array p (u ++ v) .object
  | genericInstance {p : Nat} {u : List UInt8} (h : IsGenericArguments T p u ()) :
      Follows T start .genericInstance p u (.typeSpec start (p + u.length - start))
  | functionPointer {p : Nat} {u : List UInt8} {is : List Instruction}
      (h : IsMethod T true p u is) :
      Follows T start .functionPointer p u .unsupported
  | byRef {p : Nat} {u : List UInt8} {i : Instruction} (h : T p u i) :
      Follows T start .byRef p u .unsupported
  | requiredModifier {p : Nat} {u v : List UInt8} {t : Token} {i : Instruction} (hu : IsToken u t)
      (hv : T (p + u.length) v i) : Follows T start .requiredModifier p (u ++ v) i
  | optionalModifier {p : Nat} {u v : List UInt8} {t : Token} {i : Instruction} (hu : IsToken u t)
      (hv : T (p + u.length) v i) : Follows T start .optionalModifier p (u ++ v) i

/-- An element and what follows it. -/
inductive IsTypeOver (T : Form Instruction) : Form Instruction
  | mk {p : Nat} {e : Element} {u : List UInt8} {i : Instruction} (h : Follows T p e (p + 1) u i) :
      IsTypeOver T p (e.code :: u) i

/-- A type that nests through at most `levels` levels, its own included. -/
def IsType : (levels : Nat) → Form Instruction
  | 0 => fun _ _ _ => False
  | levels + 1 => IsTypeOver (IsType levels)

/-! What may stand inside may also stand inside when more is open. -/

section

variable {T U : Form Instruction} (hle : T.Le U) {n p : Nat} {w : List UInt8} {i : Instruction}
  {is : List Instruction}

include hle

theorem IsPassed.mono (h : IsPassed T p w i) : IsPassed U p w i := by
  cases h with
  | byRef h => exact .byRef (hle _ _ _ h)
  | byValue hb h => exact .byValue hb (hle _ _ _ h)

theorem IsParameter.mono (h : IsParameter T p w i) : IsParameter U p w i := by
  obtain ⟨u, v, rfl, hu, ho, hv⟩ := h
  exact ⟨u, v, rfl, hu, ho, hv.mono hle⟩

theorem IsParameters.mono (h : IsParameters T n p w is) : IsParameters U n p w is := by
  have hp : (IsParameter T).Le (IsParameter U) := fun _ _ _ h => h.mono hle
  cases h with
  | required h => exact .required (h.mono hp)
  | withOptional hn hu hv => exact .withOptional hn (hu.mono hp) (hv.mono hp)

theorem IsMethod.mono {nested : Bool} (h : IsMethod T nested p w is) :
    IsMethod U nested p w is := by
  cases h with
  | mk hh hu hv hr hw => exact .mk hh hu hv (hr.mono hle) (hw.mono hle)

theorem IsGenericArguments.mono (h : IsGenericArguments T p w ()) :
    IsGenericArguments U p w () := by
  cases h with
  | mk hu hv hn hw => exact .mk hu hv hn (hw.mono hle)

theorem Follows.mono {start : Nat} {e : Element} (h : Follows T start e p w i) :
    Follows U start e p w i := by
  cases h with
  | vector hu hv => exact .vector hu (hle _ _ _ hv)
  | pointer hu hv => exact .pointer hu (hle _ _ _ hv)
  | array hu hv => exact .array (hle _ _ _ hu) hv
  | genericInstance h => exact .genericInstance (h.mono hle)
  | functionPointer h => exact .functionPointer (h.mono hle)
  | byRef h => exact .byRef (hle _ _ _ h)
  | requiredModifier hu hv => exact .requiredModifier hu (hle _ _ _ hv)
  | optionalModifier hu hv => exact .optionalModifier hu (hle _ _ _ hv)
  | primitive => exact .primitive _
  | string => exact .string
  | object => exact .object
  | void => exact .void
  | typedReference => exact .typedReference
  | classType h => exact .classType h
  | valueType h ht => exact .valueType h ht
  | describedValueType h ht => exact .describedValueType h ht
  | typeVariable h => exact .typeVariable h
  | methodVariable h => exact .methodVariable h

end

theorem isType_le_succ (levels : Nat) : (IsType levels).Le (IsType (levels + 1)) := by
  induction levels with
  | zero => exact fun _ _ _ h => h.elim
  | succ levels ih =>
    intro p w i h
    cases h with
    | mk h => exact .mk (h.mono ih)

theorem isType_le {m n : Nat} (h : m ≤ n) : (IsType m).Le (IsType n) := by
  induction h with
  | refl => exact fun _ _ _ h => h
  | step _ ih => exact fun p u i h => isType_le_succ _ p u i (ih p u i h)

/-! Parameters, one at a time. -/

namespace IsParameters

variable {T : Form Instruction} {n p : Nat} {u v w : List UInt8} {i : Instruction}
  {is js : List Instruction}

theorem sentinel (h : Repeat (IsParameter T) (n + 1) (p + 1) v js) :
    IsParameters T (n + 1) p (sentinel :: v) [] :=
  .withOptional (k := 0) (by omega) .nil h

theorem cons (h : IsParameter T p u i) (hs : IsParameters T n (p + u.length) v is) :
    IsParameters T (n + 1) p (u ++ v) (i :: is) := by
  cases hs with
  | required hs => exact .required (.cons h hs)
  | @withOptional k m _ x y _ _ hn hx hy =>
    rw [Nat.add_assoc p, ← List.length_append] at hy
    rw [← List.append_assoc]
    exact .withOptional (k := k + 1) (m := m) (by omega) (.cons h hx) hy

theorem cases_succ (h : IsParameters T (n + 1) p w is) :
    (∃ v js, w = Signature.sentinel :: v ∧ is = [] ∧
      Repeat (IsParameter T) (n + 1) (p + 1) v js) ∨
    ∃ u v i js, w = u ++ v ∧ is = i :: js ∧ IsParameter T p u i ∧
      IsParameters T n (p + u.length) v js := by
  cases h with
  | required h =>
    cases h with
    | cons h hs => exact .inr ⟨_, _, _, _, rfl, rfl, h, .required hs⟩
  | @withOptional k m _ x y _ _ hn hx hy =>
    cases hx with
    | nil =>
      obtain rfl : n = m := by omega
      exact .inl ⟨y, _, rfl, rfl, hy⟩
    | @cons k _ u v i is h hs =>
      rw [List.length_append, ← Nat.add_assoc p] at hy
      exact .inr ⟨u, v ++ Signature.sentinel :: y, i, is, by simp, rfl, h,
        .withOptional (m := m) (by omega) hs hy⟩

end IsParameters

end MethodCapture.Signature
