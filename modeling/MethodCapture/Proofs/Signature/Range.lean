import MethodCapture.Proofs.Signature.Decoding

/-!
The ranges in the instructions of a signature. Which bytes form a type does not depend on where they
stand, so the bytes of a range are a type wherever they are put, and nothing shorter is. The ranges
of the parameters follow one another.
-/

namespace MethodCapture.Signature

variable {α : Type} {T : Form Instruction} {levels n p : Nat} {u v w : List UInt8}

/-- Bytes that may stand somewhere may stand anywhere, though they may mean something else there. -/
def Form.Portable (F : Form α) : Prop := ∀ p u a, F p u a → ∀ q, ∃ b, F q u b

theorem Form.Portable.times {F : Form α} (hF : F.Portable) (n : Nat) : (Repeat F n).Portable := by
  intro p w as h
  induction h with
  | nil =>
    intro q
    exact ⟨[], .nil⟩
  | @cons n p u v a as hu _ ih =>
    intro q
    obtain ⟨b, hb⟩ := hF p u a hu q
    obtain ⟨bs, hbs⟩ := ih (q + u.length)
    exact ⟨b :: bs, .cons hb hbs⟩

theorem Form.Portable.afterModifiers {F : Form α} (hF : F.Portable) :
    F.afterModifiers.Portable := by
  intro p w a h q
  obtain ⟨u, v, rfl, hu, ho, hv⟩ := h
  obtain ⟨b, hb⟩ := hF _ v a hv (q + u.length)
  exact ⟨b, u, v, rfl, hu, ho, hb⟩

theorem portable_arrayBounds : IsArrayBounds.Portable := by
  have hinteger : (Form.anywhere IsInteger).Portable := fun _ _ n h _ => ⟨n, h⟩
  have hcounted : IsCounted.Portable := by
    intro p w as h q
    cases h with
    | @mk _ n u v _ hu hv =>
      obtain ⟨bs, hbs⟩ := hinteger.times n _ v as hv (q + u.length)
      exact ⟨bs, .mk hu hbs⟩
  intro p w _ h q
  cases h with
  | @mk _ _ r u v _ _ hr hu hv =>
    obtain ⟨sizes, hsizes⟩ := hcounted _ u _ hu (q + r.length)
    obtain ⟨bounds, hbounds⟩ := hcounted _ v _ hv (q + r.length + u.length)
    exact ⟨(), .mk hr hsizes hbounds⟩

section

variable (hT : T.Portable)

include hT

theorem portable_passed : (IsPassed T).Portable := by
  intro p w i h q
  cases h with
  | byRef h =>
    obtain ⟨j, hj⟩ := hT _ _ _ h (q + 1)
    exact ⟨.unsupported, .byRef hj⟩
  | byValue hb h =>
    obtain ⟨j, hj⟩ := hT _ _ _ h q
    exact ⟨j, .byValue hb hj⟩

theorem portable_parameter : (IsParameter T).Portable :=
  (portable_passed hT).afterModifiers

theorem portable_parameters (n : Nat) : (IsParameters T n).Portable := by
  intro p w is h q
  have hP := portable_parameter hT
  cases h with
  | required h =>
    obtain ⟨js, hjs⟩ := hP.times n _ _ _ h q
    exact ⟨js, .required hjs⟩
  | @withOptional k m _ u v _ _ hn hu hv =>
    obtain ⟨js, hjs⟩ := hP.times k _ u _ hu q
    obtain ⟨ks, hks⟩ := hP.times (m + 1) _ v _ hv (q + u.length + 1)
    exact ⟨js, .withOptional hn hjs hks⟩

theorem portable_method (nested : Bool) : (IsMethod T nested).Portable := by
  intro p w is h q
  cases h with
  | @mk _ n header u v r w _ _ hh hu hv hr hw =>
    obtain ⟨j, hj⟩ := portable_parameter hT _ r _ hr (q + 1 + u.length + v.length)
    obtain ⟨js, hjs⟩ := portable_parameters hT n _ w _ hw (q + 1 + u.length + v.length + r.length)
    exact ⟨js, .mk hh hu hv hj hjs⟩

theorem portable_genericArguments : (IsGenericArguments T).Portable := by
  intro p w _ h q
  cases h with
  | @mk _ n u v w _ hu hv hn hw =>
    obtain ⟨js, hjs⟩ := hT.times n _ w _ hw (q + u.length + v.length)
    exact ⟨(), .mk hu hv hn hjs⟩

theorem Follows.move {start : Nat} {e : Element} {i : Instruction} (h : Follows T start e p u i)
    (start' q : Nat) : ∃ j, Follows T start' e q u j := by
  cases h with
  | primitive kind => exact ⟨_, .primitive kind⟩
  | string => exact ⟨_, .string⟩
  | object => exact ⟨_, .object⟩
  | void => exact ⟨_, .void⟩
  | typedReference => exact ⟨_, .typedReference⟩
  | classType h => exact ⟨_, .classType h⟩
  | valueType h ht => exact ⟨_, .valueType h ht⟩
  | describedValueType h ht => exact ⟨_, .describedValueType h ht⟩
  | typeVariable h => exact ⟨_, .typeVariable h⟩
  | methodVariable h => exact ⟨_, .methodVariable h⟩
  | @vector _ u v _ hu hv =>
    obtain ⟨j, hj⟩ := hT _ v _ hv (q + u.length)
    exact ⟨_, .vector hu hj⟩
  | @pointer _ u v _ hu hv =>
    obtain ⟨j, hj⟩ := hT _ v _ hv (q + u.length)
    exact ⟨_, .pointer hu hj⟩
  | @array _ u v _ hu hv =>
    obtain ⟨j, hj⟩ := hT _ u _ hu q
    obtain ⟨_, hbounds⟩ := portable_arrayBounds _ v _ hv (q + u.length)
    exact ⟨_, .array hj hbounds⟩
  | genericInstance h =>
    obtain ⟨_, hargs⟩ := portable_genericArguments hT _ _ _ h q
    exact ⟨_, .genericInstance hargs⟩
  | functionPointer h =>
    obtain ⟨js, hjs⟩ := portable_method hT true _ _ _ h q
    exact ⟨_, .functionPointer hjs⟩
  | byRef h =>
    obtain ⟨j, hj⟩ := hT _ _ _ h q
    exact ⟨_, .byRef hj⟩
  | @requiredModifier _ u v _ _ hu hv =>
    obtain ⟨j, hj⟩ := hT _ v _ hv (q + u.length)
    exact ⟨_, .requiredModifier hu hj⟩
  | @optionalModifier _ u v _ _ hu hv =>
    obtain ⟨j, hj⟩ := hT _ v _ hv (q + u.length)
    exact ⟨_, .optionalModifier hu hj⟩

end

theorem portable_type (levels : Nat) : (IsType levels).Portable := by
  induction levels with
  | zero =>
    intro _ _ _ h
    exact h.elim
  | succ levels ih =>
    intro p w i h q
    cases h with
    | mk h =>
      obtain ⟨j, hj⟩ := h.move ih q (q + 1)
      exact ⟨j, .mk hj⟩

/-! Types that are described by a range. -/

/-- The elements that open them. -/
def Element.ranged : List Element := [typeVariable, methodVariable, genericInstance, valueType]

theorem IsInteger.ne_nil {k : Nat} (h : IsInteger u k) : u ≠ [] := by
  cases h <;> exact List.cons_ne_nil _ _

theorem IsToken.ne_nil {t : Token} (h : IsToken u t) : u ≠ [] := by
  obtain ⟨v, hv, -⟩ := h
  exact hv.ne_nil

theorem IsGenericArguments.ne_nil (h : IsGenericArguments T p u ()) : u ≠ [] := by
  cases h with
  | mk hu _ _ _ =>
    cases hu with
    | mk => exact List.cons_ne_nil _ _

/-- Wherever the bytes stand, they are a type, and its instruction is their own range. -/
structure IsDescribed (T : Form Instruction) (w : List UInt8) : Prop where
  opens : ∃ e ∈ Element.ranged, w.head? = some e.code
  two_le : 2 ≤ w.length
  reads : ∀ q, T q w (.typeSpec q w.length)

/-- Only a modifier passes on the range of a type further in. -/
theorem Follows.described {start offset length : Nat} {e : Element} (hT : T.Portable)
    (h : Follows T start e p u (.typeSpec offset length)) (hm : isModifier e.code = false) :
    e ∈ Element.ranged ∧ u ≠ [] ∧ offset = start ∧ length = p + u.length - start ∧
      ∀ start' q, Follows T start' e q u (.typeSpec start' (q + u.length - start')) := by
  cases h with
  | describedValueType h ht =>
    exact ⟨by simp [Element.ranged], h.ne_nil, rfl, rfl, fun _ _ => .describedValueType h ht⟩
  | typeVariable h =>
    exact ⟨by simp [Element.ranged], h.ne_nil, rfl, rfl, fun _ _ => .typeVariable h⟩
  | methodVariable h =>
    exact ⟨by simp [Element.ranged], h.ne_nil, rfl, rfl, fun _ _ => .methodVariable h⟩
  | genericInstance h =>
    refine ⟨by simp [Element.ranged], h.ne_nil, rfl, rfl, ?_⟩
    intro start' q
    obtain ⟨_, hargs⟩ := portable_genericArguments hT _ _ _ h q
    exact .genericInstance hargs
  | requiredModifier => cases hm
  | optionalModifier => cases hm

theorem isType_described {offset length : Nat} (h : IsType levels p w (.typeSpec offset length))
    (hm : opensModifier w = false) :
    offset = p ∧ length = w.length ∧ IsDescribed (IsType levels) w := by
  cases levels with
  | zero => exact h.elim
  | succ levels =>
    obtain @⟨_, e, u, _, h⟩ := h
    obtain ⟨he, hu, rfl, rfl, hmove⟩ := h.described (portable_type levels) hm
    have hlength (q : Nat) : q + 1 + u.length - q = (e.code :: u).length := by
      rw [List.length_cons]
      omega
    have hpos : 0 < u.length := List.length_pos_iff.2 hu
    refine ⟨rfl, hlength _, ⟨e, he, rfl⟩, ?_, ?_⟩
    · rw [List.length_cons]
      omega
    · intro q
      have hq := hmove q (q + 1)
      rw [hlength] at hq
      exact .mk hq

/-- The range of a parameter is what stands behind its modifiers. -/
theorem IsParameter.described {offset length : Nat}
    (h : IsParameter (IsType levels) p w (.typeSpec offset length)) :
    ∃ u v, w = u ++ v ∧ offset = p + u.length ∧ length = v.length ∧
      IsDescribed (IsType levels) v := by
  obtain ⟨u, v, rfl, -, ho, hv⟩ := h
  cases hv with
  | byValue _ hv =>
    obtain ⟨rfl, rfl, hd⟩ := isType_described hv ho
    exact ⟨u, v, rfl, rfl, rfl, hd⟩

/-- The bytes from `offset` on, `length` of them, are a type that is described by its range. -/
def Locates (levels : Nat) (p : Nat) (w : List UInt8) (offset length : Nat) : Prop :=
  ∃ a v b, w = a ++ (v ++ b) ∧ offset = p + a.length ∧ length = v.length ∧
    IsDescribed (IsType levels) v

theorem Locates.cons {offset length : Nat} (h : Locates levels (p + u.length) v offset length) :
    Locates levels p (u ++ v) offset length := by
  obtain ⟨a, x, b, rfl, rfl, rfl, hd⟩ := h
  exact ⟨u ++ a, x, b, by simp, by simp [Nat.add_assoc], rfl, hd⟩

theorem Repeat.locates {is : List Instruction} {offset length : Nat}
    (h : Repeat (IsParameter (IsType levels)) n p w is) (hi : .typeSpec offset length ∈ is) :
    Locates levels p w offset length := by
  induction h with
  | nil => cases hi
  | @cons n p u v i is hu _ ih =>
    rcases List.mem_cons.1 hi with rfl | hi
    · obtain ⟨a, x, rfl, rfl, rfl, hd⟩ := hu.described
      exact ⟨a, x, v, List.append_assoc .., rfl, rfl, hd⟩
    · exact (ih hi).cons

/-- If both are ranges, the first ends before the second begins. -/
def Precedes (i j : Instruction) : Prop :=
  ∀ offset length offset' length', i = .typeSpec offset length → j = .typeSpec offset' length' →
    offset < offset' ∧ offset + length ≤ offset'

theorem Repeat.pairwise_precedes {is : List Instruction}
    (h : Repeat (IsParameter (IsType levels)) n p w is) : is.Pairwise Precedes := by
  induction h with
  | nil => exact .nil
  | @cons n p u v i is hu hs ih =>
    refine List.pairwise_cons.2 ⟨?_, ih⟩
    rintro j hj offset length offset' length' rfl rfl
    obtain ⟨a, x, rfl, rfl, rfl, hd⟩ := hu.described
    obtain ⟨b, y, c, -, rfl, rfl, -⟩ := hs.locates hj
    have htwo := hd.two_le
    rw [List.length_append]
    omega

/-- Header, number of parameters and result take three bytes at least. -/
theorem IsMethod.exists_repeat {nested : Bool} {is : List Instruction}
    (h : IsMethod (IsType levels) nested p w is) : ∃ n a u b, w = a ++ (u ++ b) ∧ 3 ≤ a.length ∧
      Repeat (IsParameter (IsType levels)) n (p + a.length) u is := by
  obtain @⟨_, n, header, x, y, r, z, i, _, _, _, hy, hr, hz⟩ := h
  have hylen : 0 < y.length := List.length_pos_iff.2 hy.ne_nil
  have hrlen : 0 < r.length := List.length_pos_iff.2 (hr.opens (regular_isType levels)).ne_nil
  have hlen : (header :: (x ++ (y ++ r))).length = 1 + x.length + y.length + r.length := by
    simp only [List.length_cons, List.length_append]
    omega
  obtain ⟨k, u, b, rfl, hu⟩ : ∃ k u b, z = u ++ b ∧
      Repeat (IsParameter (IsType levels)) k (p + 1 + x.length + y.length + r.length) u is := by
    cases hz with
    | required hz => exact ⟨n, z, [], by simp, hz⟩
    | @withOptional k _ _ u v _ _ _ hu _ => exact ⟨k, u, sentinel :: v, rfl, hu⟩
  refine ⟨k, header :: (x ++ (y ++ r)), u, b, by simp, ?_, ?_⟩
  · omega
  · rwa [hlen, ← Nat.add_assoc, ← Nat.add_assoc, ← Nat.add_assoc]

/-! Whole signatures. -/

variable {limit : Nat} {blob bytes : List UInt8} {is : List Instruction}

theorem exists_isMethod (h : parameters limit blob = .ok is) :
    ∃ bytes rest, blob = bytes ++ rest ∧ IsMethod (IsType (limit - 1)) false 0 bytes is := by
  unfold parameters at h
  split at h
  · next c hok =>
    cases h
    obtain ⟨u, rest, hb, -, hu⟩ := (reads_methodAt limit).sound hok
    exact ⟨u, rest, hb, hu⟩
  · cases h

theorem parameters_of_isMethod (h : IsMethod (IsType (limit - 1)) false 0 bytes is) :
    parameters limit bytes = .ok is := by
  have hok := (reads_methodAt limit).complete h []
  rw [List.append_nil] at hok
  rw [parameters, Cursor.ofBytes, hok]

/-- No byte string of a form that is read is a proper prefix of another. -/
theorem Reads.prefixFree {r : Reader α} {F : Form α} (hr : Reads r F) {a b : α} (hu : F p u a)
    (hv : F p v b) (h : u <+: v) : u = v := by
  obtain ⟨rest, rfl⟩ := h
  have hshort := hr.complete hu rest
  have hlong := hr.complete hv []
  rw [List.append_nil] at hlong
  rw [hshort, EStateM.Result.ok.injEq, Cursor.mk.injEq] at hlong
  rw [hlong.2.2, List.append_nil]

/-- The signature of a method without receiver and result that has one parameter. -/
def onlyParameter (u : List UInt8) : List UInt8 := [0x00, 0x01, 0x01] ++ u

theorem isMethod_onlyParameter (hv : IsDescribed (IsType levels) v) :
    IsMethod (IsType levels) false 0 (onlyParameter v) [.typeSpec 3 v.length] := by
  obtain ⟨e, he, hhead⟩ := hv.opens
  have hmodifier : opensModifier v = false := by
    rw [opensModifier, hhead]
    simp only [Element.ranged, List.mem_cons, List.not_mem_nil, or_false] at he
    rcases he with rfl | rfl | rfl | rfl <;> rfl
  have hbyRef : v.head? ≠ some Element.byRef.code := by
    rw [hhead]
    simp only [Element.ranged, List.mem_cons, List.not_mem_nil, or_false] at he
    rcases he with rfl | rfl | rfl | rfl <;> decide
  have hvoid : IsType levels 2 [Element.void.code] .unsupported := by
    cases levels with
    | zero => exact (hv.reads 0).elim
    | succ levels => exact .mk .void
  have hresult : IsParameter (IsType levels) 2 [Element.void.code] .unsupported :=
    ⟨[], _, rfl, .nil, rfl, .byValue (by decide) hvoid⟩
  have hparameter : IsParameter (IsType levels) 3 v (.typeSpec 3 v.length) :=
    ⟨[], v, rfl, .nil, hmodifier, .byValue hbyRef (hv.reads 3)⟩
  have hparameters : IsParameters (IsType levels) 1 3 (v ++ []) [.typeSpec 3 v.length] :=
    .required (.cons hparameter .nil)
  rw [List.append_nil] at hparameters
  exact .mk (u := []) (v := [0x01]) (r := [Element.void.code]) (.inl (by decide)) (.absent rfl)
    (.one (by decide)) hresult hparameters

/-- A proper prefix of the bytes of a described type is no type. -/
theorem not_isMethod_onlyParameter (hv : IsDescribed (IsType (limit - 1)) v) (hu : u <+: v)
    (hne : u ≠ v) : parameters limit (onlyParameter u) ≠ .ok is := by
  intro h
  obtain ⟨bytes, rest, hb, hm⟩ := exists_isMethod h
  have hpre : onlyParameter u <+: onlyParameter v := List.prefix_append_right_inj _ |>.2 hu
  have hbytes : bytes <+: onlyParameter v := (List.prefix_append bytes rest).trans (hb ▸ hpre)
  have heq := (reads_methodAt limit).prefixFree hm (isMethod_onlyParameter hv) hbytes
  rw [heq] at hb
  have hv' : onlyParameter v <+: onlyParameter u := ⟨rest, hb.symm⟩
  have hlen := hv'.length_le
  simp only [onlyParameter, List.length_append] at hlen
  exact hne (hu.eq_of_length_le (by omega))

end MethodCapture.Signature
