import MethodCapture.Proofs.Signature.Grammar

/-!
The reader of method signatures reads the grammar. Each part of the reader reads its production as
soon as the reader for the types further in reads a regular form, and the types of every number of
levels are a regular form.
-/

namespace MethodCapture.Signature

open Reader

/-- The bytes begin with an element. -/
def OpensElement (u : List UInt8) : Prop := ∃ e : Element, u.head? = some e.code

theorem OpensElement.ne_nil {u : List UInt8} (h : OpensElement u) : u ≠ [] := by
  rintro rfl
  obtain ⟨e, he⟩ := h
  cases he

/-- What the readers rely on when they look ahead. -/
structure Regular (T : Form Instruction) : Prop where
  opens : ∀ {p u i}, T p u i → OpensElement u
  /-- Modifiers in front of a type can be taken off, which leaves a type. -/
  strip : T.Le T.afterModifiers
  named : ∀ {p u i} {e : Element}, T p (e.code :: u) i → e = .classType ∨ e = .valueType →
    IsNamed (e.code :: u)
  of_named : ∀ {p q u v j}, T q v j → IsNamed u → ∃ i, T p u i

theorem isTypeOver_cons {T : Form Instruction} {p : Nat} {e : Element} {u : List UInt8}
    {i : Instruction} : IsTypeOver T p (e.code :: u) i ↔ Follows T p e (p + 1) u i := by
  constructor
  · intro h
    generalize hw : e.code :: u = w at h
    cases h with
    | mk h =>
      obtain ⟨he, rfl⟩ := List.cons.inj hw
      rwa [Element.code_inj he]
  · exact .mk

namespace IsTypeOver

variable {T : Form Instruction} {p : Nat} {e : Element} {u : List UInt8} {i : Instruction}

theorem opens (h : IsTypeOver T p u i) : OpensElement u := by
  cases h
  exact ⟨_, rfl⟩

theorem named (h : IsTypeOver T p (e.code :: u) i) (he : e = .classType ∨ e = .valueType) :
    IsNamed (e.code :: u) := by
  have hf := isTypeOver_cons.1 h
  rcases he with rfl | rfl
  · cases hf with
    | classType ht => exact .mk (.inl rfl) ht
  · cases hf with
    | valueType ht => exact .mk (.inr rfl) ht
    | describedValueType ht => exact .mk (.inr rfl) ht

theorem of_named (hu : IsNamed u) : ∃ i, IsTypeOver T p u i := by
  obtain @⟨e, w, t, he, ht⟩ := hu
  rcases he with rfl | rfl
  · exact ⟨_, .mk (.classType ht)⟩
  · by_cases hs : t.table = Table.typeSpec
    · exact ⟨_, .mk (.describedValueType ht hs)⟩
    · exact ⟨_, .mk (.valueType ht hs)⟩

end IsTypeOver

theorem Follows.of_modifier {T : Form Instruction} {start p : Nat} {e : Element} {w : List UInt8}
    {i : Instruction} (h : Follows T start e p w i)
    (he : e = .requiredModifier ∨ e = .optionalModifier) :
    ∃ u v t, w = u ++ v ∧ IsToken u t ∧ T (p + u.length) v i := by
  rcases he with rfl | rfl
  · cases h with
    | requiredModifier hu hv => exact ⟨_, _, _, rfl, hu, hv⟩
  · cases h with
    | optionalModifier hu hv => exact ⟨_, _, _, rfl, hu, hv⟩

/-- Each modifier in front of a type takes one level, so that what is left has room enough. -/
theorem isType_strip (levels : Nat) : (IsType levels).Le (IsType levels).afterModifiers := by
  induction levels with
  | zero => exact fun _ _ _ h => h.elim
  | succ levels ih =>
    intro p w i h
    obtain @⟨p, e, u, i, h⟩ := h
    cases hm : isModifier e.code with
    | false => exact ⟨[], e.code :: u, rfl, .nil, hm, .mk h⟩
    | true =>
      have he := isModifier_code_iff.1 hm
      obtain ⟨v, w, t, rfl, hv, hw⟩ := h.of_modifier he
      obtain ⟨us, x, rfl, hus, ho, hx⟩ := ih _ _ _ hw
      have hpos : p + (e.code :: v ++ us).length = p + 1 + v.length + us.length := by
        simp only [List.length_append, List.length_cons]
        omega
      refine ⟨e.code :: v ++ us, x, by simp, .cons (.mk he hv) hus, ho, ?_⟩
      rw [hpos]
      exact isType_le_succ _ _ _ _ hx

theorem regular_isType (levels : Nat) : Regular (IsType levels) := by
  cases levels with
  | zero => exact ⟨fun h => h.elim, isType_strip 0, fun h => h.elim, fun h => h.elim⟩
  | succ levels =>
    exact ⟨IsTypeOver.opens, isType_strip _, IsTypeOver.named, fun _ => IsTypeOver.of_named⟩

section

variable {type : Reader Instruction} {T : Form Instruction}

theorem IsPassed.opens (hR : Regular T) {p : Nat} {u : List UInt8} {i : Instruction}
    (h : IsPassed T p u i) : OpensElement u := by
  cases h with
  | byRef h => exact ⟨.byRef, rfl⟩
  | byValue _ h => exact hR.opens h

theorem reads_passed (hT : Reads type T) (hR : Regular T) :
    Reads (do
      let b ← peek
      if b = Element.byRef.code then
        skip
        let _ ← type
        return .unsupported
      else
        type) (IsPassed T) := by
  have hskip := Reads.skip.bind fun _ => hT.bind fun _ => Reads.pure Instruction.unsupported
  refine (Reads.peek (fun b => .ite hskip hT) ?_).congr fun p u i => ⟨?_, ?_⟩
  · intro b p u a h
    split at h
    · obtain ⟨_, _, _, rfl, ⟨b, rfl⟩, -⟩ := h
      simp
    · exact (hR.opens h).ne_nil
  · rintro ⟨b, hb, h⟩
    split at h
    · next he =>
      obtain ⟨_, _, _, rfl, ⟨d, rfl⟩, _, v, _, rfl, hv, rfl, rfl⟩ := h
      cases hb
      rw [List.append_nil, he]
      exact .byRef hv
    · next he =>
      refine .byValue ?_ h
      rw [hb]
      simpa using he
  · intro h
    cases h with
    | byRef h =>
      refine ⟨Element.byRef.code, rfl, ?_⟩
      rw [if_pos rfl]
      exact ⟨(), [_], _, rfl, ⟨_, rfl⟩, _, _, [], by simp, h, rfl, rfl⟩
    | byValue hb h =>
      obtain ⟨e, he⟩ := hR.opens h
      refine ⟨e.code, he, ?_⟩
      rwa [if_neg (by rw [he] at hb; simpa using hb)]

theorem reads_parameter (hT : Reads type T) (hR : Regular T) :
    Reads (parameterWith type) (IsParameter T) :=
  (reads_passed hT hR).afterModifiers fun _ _ _ h => (h.opens hR).ne_nil

theorem IsModifiers.opens {u : List UInt8} (h : IsModifiers u) (hu : u ≠ []) : OpensElement u := by
  cases h with
  | nil => exact absurd rfl hu
  | cons h _ =>
    cases h with
    | mk => exact ⟨_, rfl⟩

/-- A parameter begins with an element, so never with the sentinel. -/
theorem IsParameter.opens (hR : Regular T) {p : Nat} {w : List UInt8} {i : Instruction}
    (h : IsParameter T p w i) : OpensElement w := by
  obtain ⟨u, v, rfl, hu, -, hv⟩ := h
  cases u with
  | nil => exact hv.opens hR
  | cons b bs => exact hu.opens (List.cons_ne_nil _ _)

/-- A check in front of a reader. -/
theorem Reads.unless {α : Type} {r : Reader α} {F : Form α} {c : Prop} [Decidable c] (flaw : Flaw)
    (hr : Reads r F) : Reads (if c then malformed flaw >>= fun (_ : Unit) => r else r)
      fun p u a => ¬ c ∧ F p u a where
  sound h := by
    split at h
    · cases h
    · next hc =>
      obtain ⟨u, rest, hb, he, hu⟩ := hr.sound h
      exact ⟨u, rest, hb, he, hc, hu⟩
  complete h rest := by
    rw [if_neg h.1]
    exact hr.complete h.2 rest

/-- Behind the sentinel there may be no other, and nothing is kept. -/
theorem reads_optional (hP : Reads (parameterWith type) (IsParameter T)) (hR : Regular T)
    (n : Nat) :
    Reads (parametersWith type n true) fun p w is =>
      is = [] ∧ ∃ js, Repeat (IsParameter T) n p w js := by
  induction n with
  | zero =>
    refine (Reads.pure []).congr fun p w is => ⟨?_, ?_⟩
    · rintro ⟨rfl, rfl⟩
      exact ⟨rfl, [], .nil⟩
    · rintro ⟨rfl, js, ⟨⟩⟩
      exact ⟨rfl, rfl⟩
  | succ n ih =>
    have hskip := Reads.skip.bind fun _ => hP.bind fun _ => ih
    have hstop := hskip.unless (c := True) .repeatedSentinel
    have hnext := hP.bind fun _ => ih.bind fun is => Reads.pure is
    refine (Reads.peek (fun b => .ite hstop hnext) ?_).congr fun p w is => ⟨?_, ?_⟩
    · intro b p u is h
      split at h
      · exact absurd trivial h.1
      · obtain ⟨_, v, _, rfl, hv, -⟩ := h
        exact List.append_ne_nil_of_left_ne_nil (hv.opens hR).ne_nil _
    · rintro ⟨b, -, h⟩
      split at h
      · exact absurd trivial h.1
      · obtain ⟨i, u, _, rfl, hu, is, v, _, rfl, ⟨rfl, js, hv⟩, rfl, rfl⟩ := h
        rw [List.append_nil]
        exact ⟨rfl, i :: js, .cons hu hv⟩
    · rintro ⟨rfl, js, h⟩
      cases h with
      | cons hu hv =>
        obtain ⟨e, he⟩ := hu.opens hR
        refine ⟨e.code, by rw [List.head?_append, he]; rfl, ?_⟩
        rw [if_neg e.code_ne_sentinel]
        exact ⟨_, _, _, rfl, hu, [], _, [], by simp, ⟨rfl, _, hv⟩, rfl, rfl⟩

theorem reads_parameters (hP : Reads (parameterWith type) (IsParameter T)) (hR : Regular T)
    (n : Nat) : Reads (parametersWith type n false) (IsParameters T n) := by
  induction n with
  | zero =>
    refine (Reads.pure []).congr fun p w is => ⟨?_, ?_⟩
    · rintro ⟨rfl, rfl⟩
      exact .required .nil
    · intro h
      cases h with
      | required h =>
        cases h
        exact ⟨rfl, rfl⟩
      | withOptional hn => omega
  | succ n ih =>
    have hstop := Reads.skip.bind fun _ => hP.bind fun _ => reads_optional hP hR n
    have hnext := hP.bind fun i => ih.bind fun is => Reads.pure (i :: is)
    refine (Reads.peek (fun b => .ite hstop hnext) ?_).congr fun p w is => ⟨?_, ?_⟩
    · intro b p u is h
      split at h
      · obtain ⟨_, _, _, rfl, ⟨b, rfl⟩, -⟩ := h
        exact List.cons_ne_nil _ _
      · obtain ⟨_, v, _, rfl, hv, -⟩ := h
        exact List.append_ne_nil_of_left_ne_nil (hv.opens hR).ne_nil _
    · rintro ⟨b, hb, h⟩
      split at h
      · next hs =>
        obtain ⟨_, _, _, rfl, ⟨b, rfl⟩, i, u, v, rfl, hu, rfl, js, hv⟩ := h
        cases hb
        rw [hs]
        show IsParameters T (n + 1) p (sentinel :: (u ++ v)) []
        exact .sentinel (.cons hu hv)
      · obtain ⟨i, u, _, rfl, hu, is, v, _, rfl, hv, rfl, rfl⟩ := h
        rw [List.append_nil]
        exact .cons hu hv
    · intro h
      rcases h.cases_succ with ⟨v, js, rfl, rfl, hs⟩ | ⟨u, v, i, js, rfl, rfl, hu, hv⟩
      · cases hs with
        | cons hu hv =>
          refine ⟨sentinel, rfl, ?_⟩
          rw [if_pos rfl]
          exact ⟨(), [_], _, rfl, ⟨_, rfl⟩, _, _, _, rfl, hu, rfl, _, hv⟩
      · obtain ⟨e, he⟩ := hu.opens hR
        refine ⟨e.code, by rw [List.head?_append, he]; rfl, ?_⟩
        rw [if_neg e.code_ne_sentinel]
        exact ⟨_, _, _, rfl, hu, _, v, [], by simp, hv, rfl, rfl⟩

theorem isMethodHeader_iff {nested : Bool} {header : UInt8} :
    isMethodHeader nested header = true ↔ IsHeader nested header := by
  have hlow : (header &&& 0x0f).toNat = callingConvention header :=
    (UInt8.toNat_and _ _).trans (Nat.and_two_pow_sub_one_eq_mod _ 4)
  rw [IsHeader, UInt8.le_iff_toNat_le, ← UInt8.toNat_inj, hlow]
  simp [isMethodHeader]

theorem isGeneric_ofByte (header : UInt8) :
    (Header.ofByte header).isGeneric = true ↔ header &&& 0x10 ≠ 0 := by
  rw [Header.isGeneric, Header.ofByte, UInt8.and_assoc]
  exact bne_iff_ne

theorem reads_method (hP : Reads (parameterWith type) (IsParameter T)) (hR : Regular T)
    (nested : Bool) : Reads (methodWith type nested) (IsMethod T nested) := by
  have hrest := reads_integer.bind fun n => hP.bind fun _ => reads_parameters hP hR n
  have hcount := reads_integer.bind fun _ => hrest
  refine (Reads.byte.bind fun header =>
    (Reads.ite hcount hrest).unless (.notMethod header)).congr fun p w is => ⟨?_, ?_⟩
  · rintro ⟨header, _, w, rfl, rfl, hh, h⟩
    have hh : IsHeader nested header := isMethodHeader_iff.1 (by simpa using hh)
    split at h
    · next hg =>
      obtain ⟨k, u, _, rfl, hu, n, v, _, rfl, hv, i, r, w, rfl, hr, hw⟩ := h
      show IsMethod T nested p (header :: (u ++ (v ++ (r ++ w)))) is
      exact .mk hh (.present ((isGeneric_ofByte header).1 hg) hu) hv hr hw
    · next hg =>
      obtain ⟨n, v, _, rfl, hv, i, r, w, rfl, hr, hw⟩ := h
      have hg : header &&& 0x10 = 0 := by simpa using mt (isGeneric_ofByte header).2 hg
      show IsMethod T nested p (header :: ([] ++ (v ++ (r ++ w)))) is
      exact .mk hh (.absent hg) hv hr hw
  · rintro ⟨hh, hu, hv, hr, hw⟩
    next n header u v r w i =>
    refine ⟨header, [header], _, rfl, rfl, by simp [isMethodHeader_iff.2 hh], ?_⟩
    cases hu with
    | absent hg =>
      rw [if_neg (by simp [isGeneric_ofByte, hg])]
      exact ⟨n, v, _, rfl, hv, i, r, w, rfl, hr, hw⟩
    | present hg hu =>
      rw [if_pos ((isGeneric_ofByte header).2 hg)]
      exact ⟨_, u, _, rfl, hu, n, v, _, rfl, hv, i, r, w, rfl, hr, hw⟩

/-! The parts of a type. -/

/-- A reader whose answer is dropped. -/
theorem reads_const {α : Type} {r : Reader α} {F : Form α} (hr : Reads r F) (i : Instruction) :
    Reads (do let _ ← r; return i) fun p w j => (∃ a, F p w a) ∧ j = i := by
  refine (hr.bind fun _ => .pure i).congr fun p w j => ⟨?_, ?_⟩
  · rintro ⟨a, u, _, rfl, hu, rfl, rfl⟩
    rw [List.append_nil]
    exact ⟨⟨a, hu⟩, rfl⟩
  · rintro ⟨⟨a, hw⟩, rfl⟩
    exact ⟨a, w, [], by simp, hw, rfl, rfl⟩

theorem reads_rangeFrom (start : Nat) : Reads (rangeFrom start) fun p u i =>
    u = [] ∧ i = .typeSpec start (p - start) where
  sound h := by
    cases h
    exact ⟨[], _, rfl, rfl, rfl, rfl⟩
  complete h rest := by
    obtain ⟨rfl, rfl⟩ := h
    rfl

/-- A reader with the range from where the type began to where it stops. -/
theorem reads_range {α : Type} {r : Reader α} {F : Form α} (hr : Reads r F) (start : Nat) :
    Reads (do let _ ← r; rangeFrom start) fun p w i =>
      (∃ a, F p w a) ∧ i = .typeSpec start (p + w.length - start) := by
  refine (hr.bind fun _ => reads_rangeFrom start).congr fun p w j => ⟨?_, ?_⟩
  · rintro ⟨a, u, _, rfl, hu, rfl, rfl⟩
    rw [List.append_nil]
    exact ⟨⟨a, hu⟩, rfl⟩
  · rintro ⟨⟨a, hw⟩, rfl⟩
    exact ⟨a, w, [], by simp, hw, rfl, rfl⟩

/-- A reader of modifiers and a type takes whatever modifiers there are; what is left is a type. -/
theorem reads_modified (hT : Reads type T) (hR : Regular T) (c : Instruction) :
    Reads (do modifiers; let _ ← type; return c) fun p w i =>
      (∃ u v j, w = u ++ v ∧ IsModifiers u ∧ T (p + u.length) v j) ∧ i = c := by
  refine ((reads_const hT c).afterModifiers fun p u i h => ?_).congr fun p w i => ⟨?_, ?_⟩
  · obtain ⟨⟨j, h⟩, -⟩ := h
    exact (hR.opens h).ne_nil
  · rintro ⟨u, v, rfl, hu, -, ⟨j, hv⟩, rfl⟩
    exact ⟨⟨u, v, j, rfl, hu, hv⟩, rfl⟩
  · rintro ⟨⟨u, v, j, rfl, hu, hv⟩, rfl⟩
    obtain ⟨us, x, rfl, hus, ho, hx⟩ := hR.strip _ _ _ hv
    refine ⟨u ++ us, x, by simp, hu.append hus, ho, ⟨j, ?_⟩, rfl⟩
    rwa [List.length_append, ← Nat.add_assoc]

theorem reads_arrayBounds : Reads arrayBounds IsArrayBounds := by
  refine (reads_integer.bind fun _ => reads_integer.bind fun n =>
    (reads_integer.times n).bind fun _ => reads_integer.bind fun n =>
    (reads_integer.times n).bind fun _ => .pure ()).congr
    fun p w _ => ⟨?_, ?_⟩
  · rintro ⟨rank, r, _, rfl, hr, n, u, _, rfl, hu, as, v, _, rfl, hv, m, x, _, rfl, hx, bs, y, _,
      rfl, hy, rfl, -⟩
    rw [Nat.add_assoc (p + r.length), ← List.length_append] at hy
    have hbounds := IsArrayBounds.mk hr (.mk hu hv) (.mk hx hy)
    rw [List.append_nil]
    rwa [List.append_assoc] at hbounds
  · rintro ⟨hr, ⟨hu, hv⟩, ⟨hx, hy⟩⟩
    rw [List.length_append, ← Nat.add_assoc] at hy
    exact ⟨_, _, _, rfl, hr, _, _, _, List.append_assoc .., hu, _, _, _, rfl, hv, _, _, _, rfl, hx,
      _, _, [], by simp, hy, rfl, rfl⟩

theorem reads_genericArguments (hT : Reads type T) (hR : Regular T) :
    Reads (genericArguments type) (IsGenericArguments T) := by
  have hargs := hT.bind fun _ => reads_integer.bind fun n =>
    ((hT.times n).bind fun _ => Reads.pure ()).unless (c := n = 0) .noTypeArguments
  refine (Reads.peek (fun b => hargs.unless (.genericHead b)) ?_).congr fun p w _ => ⟨?_, ?_⟩
  · rintro b p _ _ ⟨-, i, u, v, rfl, hu, -⟩
    exact List.append_ne_nil_of_left_ne_nil (hR.opens hu).ne_nil _
  · rintro ⟨b, hb, hhead, i, u, _, rfl, hu, n, v, _, rfl, hv, hn, is, w, _, rfl, hw, rfl, -⟩
    rw [List.append_nil]
    refine .mk ?_ hv hn hw
    obtain ⟨e, he⟩ := hR.opens hu
    obtain ⟨u, rfl⟩ := List.head?_eq_some_iff.1 he
    cases hb
    refine hR.named hu ?_
    by_cases hc : e.code = Element.classType.code
    · exact .inl (Element.code_inj hc)
    by_cases hv : e.code = Element.valueType.code
    · exact .inr (Element.code_inj hv)
    · exact absurd ⟨hc, hv⟩ hhead
  · rintro ⟨hu, hv, hn, hw⟩
    -- an argument shows that there is room for a type, so for the generic type too
    obtain ⟨i, hi⟩ : ∃ i, T p _ i := by
      cases hw with
      | nil => exact absurd rfl hn
      | cons ha _ => exact hR.of_named ha hu
    cases hu with
    | @mk e u t he _ =>
      refine ⟨e.code, rfl, ?_, i, _, _, rfl, hi, _, _, _, rfl, hv, hn, _, _, [], by simp, hw, rfl,
        rfl⟩
      rcases he with rfl | rfl <;> simp

/-! What follows each opening element. -/

variable {start : Nat}

theorem reads_primitive (kind : Primitive) :
    Reads (elementWith type start (.primitive kind)) (Follows T start (.primitive kind)) := by
  refine (Reads.pure _).congr fun p w i => ⟨?_, ?_⟩
  · rintro ⟨rfl, rfl⟩
    exact .primitive kind
  · rintro ⟨⟩
    exact ⟨rfl, rfl⟩

/-- The elements that are whole types. -/
theorem reads_whole {e : Element}
    (he : e = .string ∨ e = .object ∨ e = .void ∨ e = .typedReference) :
    Reads (elementWith type start e) (Follows T start e) := by
  rcases he with rfl | rfl | rfl | rfl
  all_goals
    refine (Reads.pure _).congr fun p w i => ⟨?_, ?_⟩
    · rintro ⟨rfl, rfl⟩
      constructor
    · rintro ⟨⟩
      exact ⟨rfl, rfl⟩

theorem reads_classType :
    Reads (elementWith type start .classType) (Follows T start .classType) := by
  refine (reads_const reads_token .object).congr fun p w i => ⟨?_, ?_⟩
  · rintro ⟨⟨t, h⟩, rfl⟩
    exact .classType h
  · intro h
    cases h with
    | classType h => exact ⟨⟨_, h⟩, rfl⟩

theorem reads_valueType :
    Reads (elementWith type start .valueType) (Follows T start .valueType) := by
  refine (reads_token.bind fun t => .ite (c := t.table = Table.typeSpec) (reads_rangeFrom start)
    (.pure (.typeToken t))).congr fun p w i => ⟨?_, ?_⟩
  · rintro ⟨t, u, v, rfl, hu, h⟩
    split at h
    · next ht =>
      obtain ⟨rfl, rfl⟩ := h
      rw [List.append_nil]
      exact .describedValueType hu ht
    · next ht =>
      obtain ⟨rfl, rfl⟩ := h
      rw [List.append_nil]
      exact .valueType hu ht
  · intro h
    cases h with
    | valueType hu ht =>
      refine ⟨_, w, [], by simp, hu, ?_⟩
      dsimp only
      rw [if_neg ht]
      exact ⟨rfl, rfl⟩
    | describedValueType hu ht =>
      refine ⟨_, w, [], by simp, hu, ?_⟩
      dsimp only
      rw [if_pos ht]
      exact ⟨rfl, rfl⟩

theorem reads_variable {e : Element} (he : e = .typeVariable ∨ e = .methodVariable) :
    Reads (elementWith type start e) (Follows T start e) := by
  rcases he with rfl | rfl
  all_goals
    refine (reads_range reads_integer start).congr fun p w i => ⟨?_, ?_⟩
    · rintro ⟨⟨n, h⟩, rfl⟩
      constructor
      exact h
    · intro h
      cases h
      next h => exact ⟨⟨_, h⟩, rfl⟩

/-- A vector or a pointer. -/
theorem reads_vector (hT : Reads type T) (hR : Regular T) {e : Element}
    (he : e = .vector ∨ e = .pointer) : Reads (elementWith type start e) (Follows T start e) := by
  rcases he with rfl | rfl
  all_goals
    refine (reads_modified hT hR _).congr fun p w i => ⟨?_, ?_⟩
    · rintro ⟨⟨u, v, j, rfl, hu, hv⟩, rfl⟩
      constructor
      · exact hu
      · exact hv
    · intro h
      cases h
      next hu hv => exact ⟨⟨_, _, _, rfl, hu, hv⟩, rfl⟩

theorem reads_array (hT : Reads type T) :
    Reads (elementWith type start .array) (Follows T start .array) := by
  refine (hT.bind fun _ => reads_const reads_arrayBounds .object).congr fun p w i => ⟨?_, ?_⟩
  · rintro ⟨j, u, v, rfl, hu, ⟨_, hv⟩, rfl⟩
    exact .array hu hv
  · intro h
    cases h with
    | array hu hv => exact ⟨_, _, _, rfl, hu, ⟨_, hv⟩, rfl⟩

theorem reads_genericInstance (hT : Reads type T) (hR : Regular T) :
    Reads (elementWith type start .genericInstance) (Follows T start .genericInstance) := by
  refine (reads_range (reads_genericArguments hT hR) start).congr fun p w i => ⟨?_, ?_⟩
  · rintro ⟨⟨_, h⟩, rfl⟩
    exact .genericInstance h
  · intro h
    cases h with
    | genericInstance h => exact ⟨⟨_, h⟩, rfl⟩

theorem reads_functionPointer (hT : Reads type T) (hR : Regular T) :
    Reads (elementWith type start .functionPointer) (Follows T start .functionPointer) := by
  have hM := reads_method (reads_parameter hT hR) hR true
  refine (reads_const hM .unsupported).congr fun p w i => ⟨?_, ?_⟩
  · rintro ⟨⟨is, h⟩, rfl⟩
    exact .functionPointer h
  · intro h
    cases h with
    | functionPointer h => exact ⟨⟨_, h⟩, rfl⟩

theorem reads_byRef (hT : Reads type T) :
    Reads (elementWith type start .byRef) (Follows T start .byRef) := by
  refine (reads_const hT .unsupported).congr fun p w i => ⟨?_, ?_⟩
  · rintro ⟨⟨j, h⟩, rfl⟩
    exact .byRef h
  · intro h
    cases h with
    | byRef h => exact ⟨⟨_, h⟩, rfl⟩

theorem reads_modifier (hT : Reads type T) {e : Element}
    (he : e = .requiredModifier ∨ e = .optionalModifier) :
    Reads (elementWith type start e) (Follows T start e) := by
  rcases he with rfl | rfl
  all_goals
    refine (reads_token.bind fun _ => hT).congr fun p w i => ⟨?_, ?_⟩
    · rintro ⟨t, u, v, rfl, hu, hv⟩
      constructor
      · exact hu
      · exact hv
    · intro h
      obtain ⟨u, v, t, rfl, hu, hv⟩ := h.of_modifier (by simp)
      exact ⟨t, u, v, rfl, hu, hv⟩

theorem reads_element (hT : Reads type T) (hR : Regular T) (start : Nat) (e : Element) :
    Reads (elementWith type start e) (Follows T start e) := by
  cases e with
  | primitive kind => exact reads_primitive kind
  | string => exact reads_whole (.inl rfl)
  | object => exact reads_whole (.inr (.inl rfl))
  | void => exact reads_whole (.inr (.inr (.inl rfl)))
  | typedReference => exact reads_whole (.inr (.inr (.inr rfl)))
  | classType => exact reads_classType
  | valueType => exact reads_valueType
  | typeVariable => exact reads_variable (.inl rfl)
  | methodVariable => exact reads_variable (.inr rfl)
  | vector => exact reads_vector hT hR (.inl rfl)
  | pointer => exact reads_vector hT hR (.inr rfl)
  | array => exact reads_array hT
  | genericInstance => exact reads_genericInstance hT hR
  | functionPointer => exact reads_functionPointer hT hR
  | byRef => exact reads_byRef hT
  | requiredModifier => exact reads_modifier hT (.inl rfl)
  | optionalModifier => exact reads_modifier hT (.inr rfl)

theorem typeWith_of_element {b : UInt8} {e : Element} (he : Element.ofCode? b = some e) (p : Nat)
    (bs : List UInt8) : typeWith type ⟨p, b :: bs⟩ = elementWith type p e ⟨p + 1, bs⟩ := by
  simp [typeWith, position, byte, bind, EStateM.bind, he]

theorem typeWith_of_none {b : UInt8} (hb : Element.ofCode? b = none) (p : Nat) (bs : List UInt8) :
    typeWith type ⟨p, b :: bs⟩ = .error (.malformed (.element b)) ⟨p + 1, bs⟩ := by
  simp [typeWith, position, byte, bind, EStateM.bind, hb]
  rfl

theorem reads_typeOver (hT : Reads type T) (hR : Regular T) :
    Reads (typeWith type) (IsTypeOver T) where
  sound {p bytes i c} h := by
    cases bytes with
    | nil => cases h
    | cons b bs =>
      cases he : Element.ofCode? b with
      | none =>
        rw [typeWith_of_none he] at h
        cases h
      | some e =>
        rw [typeWith_of_element he] at h
        obtain ⟨u, rest, rfl, rfl, hu⟩ := (reads_element hT hR p e).sound h
        have hb : e.code = b := Element.ofCode?_eq_some_iff.1 he
        rw [← hb]
        exact ⟨e.code :: u, rest, rfl, by simp [Nat.add_assoc, Nat.add_comm 1], .mk hu⟩
  complete {p w i} h rest := by
    cases h with
    | @mk _ e u _ hu =>
      rw [List.cons_append, typeWith_of_element e.ofCode?_code,
        (reads_element hT hR p e).complete hu rest]
      simp [Nat.add_assoc, Nat.add_comm 1]

end

theorem reads_typeAt (limit levels : Nat) : Reads (typeAt limit levels) (IsType levels) := by
  induction levels with
  | zero =>
    exact {
      sound := fun h => by cases h
      complete := fun h => h.elim }
  | succ levels ih => exact reads_typeOver ih (regular_isType levels)

theorem reads_methodAt (limit : Nat) :
    Reads (method limit) (IsMethod (IsType (limit - 1)) false) :=
  reads_method (reads_parameter (reads_typeAt ..) (regular_isType _)) (regular_isType _) false

theorem not_isMethod_zero {nested : Bool} {p : Nat} {w : List UInt8} {is : List Instruction} :
    ¬ IsMethod (IsType 0) nested p w is := by
  rintro ⟨-, -, -, ⟨u, v, rfl, hu, ho, hv⟩, -⟩
  cases hv with
  | byRef h => exact h
  | byValue _ h => exact h

/-- A signature is accepted just if some prefix of it is derived by the grammar with every type at a
nesting level below the limit, and what is returned are the instructions of its required
parameters. -/
theorem parameters_eq_ok_iff (limit : Nat) (blob : List UInt8) (is : List Instruction) :
    parameters limit blob = .ok is ↔
      ∃ levels < limit, ∃ bytes, bytes <+: blob ∧ IsMethod (IsType levels) false 0 bytes is := by
  have hM := reads_methodAt limit
  constructor
  · intro h
    unfold parameters at h
    split at h
    · next js c hok =>
      cases h
      obtain ⟨u, rest, hb, -, hu⟩ := hM.sound hok
      have hlevels : limit - 1 < limit := by
        cases limit with
        | zero => exact absurd hu not_isMethod_zero
        | succ n => omega
      exact ⟨limit - 1, hlevels, u, ⟨rest, hb.symm⟩, hu⟩
    · cases h
  · rintro ⟨levels, hlevels, bytes, ⟨rest, rfl⟩, h⟩
    have hu := h.mono (isType_le (n := limit - 1) (by omega))
    have hok := hM.complete hu rest
    unfold parameters
    rw [Cursor.ofBytes, hok]

example : parameters 50 [0x00, 0x02, 0x01, 0x08, 0x15, 0x12, 0x05, 0x01, 0x0e] =
    .ok [.primitive .int32, .typeSpec 4 5] := by cbv

end MethodCapture.Signature
