import MethodCapture.Proofs.Signature.Range
import MethodCapture.Proofs.Slot.Instructions

/-!
A constructed type is captured through the part of the signature that describes it. The part lies
within the signature and is complete: put into a signature of its own it is read as the same type,
and no proper prefix of it can be read there.
-/

namespace MethodCapture.Signature

variable {limit offset length : Nat} {blob : List UInt8} {is : List Instruction}

/-- The range of a type in a signature. -/
structure SelfContained (limit : Nat) (blob : List UInt8) (offset length : Nat) : Prop where
  two_le_length : 2 ≤ length
  three_le_offset : 3 ≤ offset
  within : offset + length ≤ blob.length
  opens : ∃ e ∈ Element.ranged, blob[offset]? = some e.code
  alone : parameters limit (onlyParameter ((blob.drop offset).take length)) =
    .ok [.typeSpec 3 length]
  shorter : ∀ u, u <+: (blob.drop offset).take length → u ≠ (blob.drop offset).take length →
    ∃ e, parameters limit (onlyParameter u) = .error e

/-- In a signature that can be read, each range was found where the parameters stand. -/
theorem exists_locates (h : parameters limit blob = .ok is) : is.Pairwise Precedes ∧
    ∀ offset length, .typeSpec offset length ∈ is →
      ∃ a v b, blob = a ++ (v ++ b) ∧ 3 ≤ a.length ∧ offset = a.length ∧ length = v.length ∧
        IsDescribed (IsType (limit - 1)) v := by
  obtain ⟨bytes, rest, rfl, hm⟩ := exists_isMethod h
  obtain ⟨n, a, u, b, rfl, ha, hu⟩ := hm.exists_repeat
  refine ⟨hu.pairwise_precedes, ?_⟩
  intro offset length hi
  obtain ⟨x, v, y, rfl, rfl, rfl, hd⟩ := hu.locates hi
  have hle : 3 ≤ (a ++ x).length := by
    rw [List.length_append]
    omega
  exact ⟨a ++ x, v, y ++ (b ++ rest), by simp, hle, by simp, rfl, hd⟩

theorem selfContained_of_mem (h : parameters limit blob = .ok is)
    (hi : .typeSpec offset length ∈ is) : SelfContained limit blob offset length := by
  obtain ⟨a, v, b, rfl, ha, rfl, rfl, hd⟩ := (exists_locates h).2 offset length hi
  have hbytes : ((a ++ (v ++ b)).drop a.length).take v.length = v := by
    rw [List.drop_left, List.take_left]
  refine {
    two_le_length := hd.two_le
    three_le_offset := ha
    within := by
      rw [List.length_append, List.length_append]
      omega
    opens := ?_
    alone := ?_
    shorter := ?_ }
  · obtain ⟨e, he, hhead⟩ := hd.opens
    refine ⟨e, he, ?_⟩
    rw [List.getElem?_append_right (Nat.le_refl _), Nat.sub_self, ← List.head?_eq_getElem?,
      List.head?_append, hhead]
    rfl
  · rw [hbytes]
    exact parameters_of_isMethod (isMethod_onlyParameter hd)
  · rw [hbytes]
    intro u hu hne
    cases hp : parameters limit (onlyParameter u) with
    | error e => exact ⟨e, rfl⟩
    | ok js => exact absurd hp (not_isMethod_onlyParameter hd hu hne)

/-- The ranges of a signature follow one another, and each can stand on its own. So the bytes to
which the instructions of a method point are there, and the end of their range can be written
down. -/
theorem ranges_self_contained (limit : Nat) :
    (∀ blob is, parameters limit blob = .ok is →
      is.Pairwise Precedes ∧
      ∀ offset length, .typeSpec offset length ∈ is → SelfContained limit blob offset length) ∧
    ∀ (m : Method) (offset length : Nat), .typeSpec offset length ∈ m.instructions limit →
      SelfContained limit m.signature offset length ∧
      (Instruction.typeSpec offset length).excerpt? m.signature =
        some ((m.signature.drop offset).take length) ∧
      (m.signature.length < Instruction.offsetBound →
        (Instruction.typeSpec offset length).hasText = true) := by
  constructor
  · intro blob is h
    exact ⟨(exists_locates h).1, fun _ _ hi => selfContained_of_mem h hi⟩
  · intro m offset length hmem
    obtain ⟨is, hok, hi⟩ := Method.exists_parameters_of_typeSpec hmem
    have hs := selfContained_of_mem hok hi
    refine ⟨hs, if_pos hs.within, ?_⟩
    intro hbound
    exact decide_eq_true (Nat.lt_of_le_of_lt hs.within hbound)

/-- A method with a number and a list of its own type parameter. -/
def listMethod : Method where
  id := ⟨⟨1⟩, Token.ofRow Table.methodDef 2⟩
  declaringType := "Shop.Orders"
  name := "Split"
  receiver := some .classType
  parameters := [⟨"count", .primitive .int32⟩, ⟨"items", .genericParameter⟩]
  signature := [0x30, 0x01, 0x02, 0x01, 0x08, 0x15, 0x12, 0x05, 0x01, 0x1e, 0x00]

theorem ranges_self_contained_listMethod :
    parameters 50 listMethod.signature = .ok [.primitive .int32, .typeSpec 5 6] ∧
      [Instruction.primitive .int32, .typeSpec 5 6].Pairwise Precedes ∧
      listMethod.instructions 50 = [.object, .primitive .int32, .typeSpec 5 6] ∧
      SelfContained 50 listMethod.signature 5 6 ∧
      (Instruction.typeSpec 5 6).excerpt? listMethod.signature =
        some [0x15, 0x12, 0x05, 0x01, 0x1e, 0x00] ∧
      (Instruction.typeSpec 5 6).hasText = true := by
  have hok : parameters 50 listMethod.signature = .ok [.primitive .int32, .typeSpec 5 6] := by cbv
  have hi : listMethod.instructions 50 = [.object, .primitive .int32, .typeSpec 5 6] := by cbv
  obtain ⟨hblob, hmethod⟩ := ranges_self_contained 50
  obtain ⟨hs, hexcerpt, htext⟩ := hmethod listMethod 5 6 (by rw [hi]; decide)
  exact ⟨hok, (hblob _ _ hok).1, hi, hs, hexcerpt, htext (by decide)⟩

end MethodCapture.Signature
