import MethodCapture.Proofs.Signature.Decoding

/-!
Signatures that are cut short, and signatures with other bytes behind them. A steady reader that
succeeds does the same whatever follows its data, and one that fails for any other reason than the
end of the data fails whatever follows. Modifiers alone are no steady reader, since they stop where
the data stops; what stands behind them asks for another byte, and together the two are steady.
-/

namespace MethodCapture.Signature

/-- The same cursor with more bytes behind its data. -/
def Cursor.extend (c : Cursor) (more : List UInt8) : Cursor := ⟨c.position, c.rest ++ more⟩

namespace Reader

variable {α β : Type}

def Fails (r : Reader α) (c : Cursor) : Prop := ∃ e c', r c = .error e c'

structure Steady (r : Reader α) : Prop where
  ok : ∀ {c a c'}, r c = .ok a c' → ∀ more, r (c.extend more) = .ok a (c'.extend more)
  error : ∀ {c e c'}, r c = .error e c' → e ≠ .outOfBounds → ∀ more, Fails r (c.extend more)

/-- A reader that cannot do without another byte, or never succeeds at all. -/
def Needy (r : Reader α) : Prop :=
  (∀ p, ∃ c, r ⟨p, []⟩ = .error .outOfBounds c) ∨ ∀ c, Fails r c

theorem bind_eq_error {r : Reader α} {f : α → Reader β} {c c' : Cursor} {e : Fault} :
    (r >>= f) c = .error e c' ↔
      r c = .error e c' ∨ ∃ a c₁, r c = .ok a c₁ ∧ f a c₁ = .error e c' := by
  simp only [bind, EStateM.bind]
  cases r c <;> simp [and_assoc]

theorem bind_of_ok {r : Reader α} {f : α → Reader β} {c c' : Cursor} {a : α} (h : r c = .ok a c') :
    (r >>= f) c = f a c' := by
  simp only [bind, EStateM.bind, h]

theorem bind_of_error {r : Reader α} {f : α → Reader β} {c c' : Cursor} {e : Fault}
    (h : r c = .error e c') : (r >>= f) c = .error e c' :=
  bind_eq_error.2 (.inl h)

theorem Fails.bind {r : Reader α} {c : Cursor} (h : Fails r c) (f : α → Reader β) :
    Fails (r >>= f) c := by
  obtain ⟨e, c', he⟩ := h
  exact ⟨e, c', bind_eq_error.2 (.inl he)⟩

theorem Fails.of_ok {r : Reader α} {f : α → Reader β} {c c' : Cursor} {a : α} (hr : r c = .ok a c')
    (hf : Fails (f a) c') : Fails (r >>= f) c := by
  obtain ⟨e, c'', he⟩ := hf
  exact ⟨e, c'', bind_eq_error.2 (.inr ⟨a, c', hr, he⟩)⟩

theorem Needy.bind {r : Reader α} (h : Needy r) (f : α → Reader β) : Needy (r >>= f) := by
  cases h with
  | inl h =>
    left
    intro p
    obtain ⟨c, hc⟩ := h p
    exact ⟨c, bind_eq_error.2 (.inl hc)⟩
  | inr h =>
    right
    intro c
    exact (h c).bind f

theorem Needy.fails {r : Reader α} (h : Needy r) (p : Nat) : Fails r ⟨p, []⟩ := by
  cases h with
  | inl h =>
    obtain ⟨c, hc⟩ := h p
    exact ⟨.outOfBounds, c, hc⟩
  | inr h => exact h ⟨p, []⟩

theorem needy_peek (f : UInt8 → Reader β) : Needy (peek >>= f) := by
  left
  intro p
  exact ⟨⟨p, []⟩, rfl⟩

namespace Steady

variable {r : Reader α}

theorem pure (a : α) : Steady (Pure.pure a : Reader α) where
  ok h more := by
    cases h
    rfl
  error h := by cases h

theorem throw (e : Fault) : Steady (MonadExcept.throw e : Reader α) where
  ok h := by cases h
  error _ _ more := ⟨e, _, rfl⟩

theorem malformed (flaw : Flaw) : Steady (malformed flaw : Reader α) := throw (.malformed flaw)

theorem position : Steady position where
  ok h more := by
    cases h
    rfl
  error h := by cases h

theorem byte : Steady byte where
  ok {c b c'} h more := by
    obtain ⟨p, bytes⟩ := c
    obtain ⟨rest, rfl, rfl⟩ := byte_eq_ok h
    rfl
  error {c e c'} h he := by
    obtain ⟨p, _ | ⟨b, bs⟩⟩ := c
    · cases h
      exact absurd rfl he
    · cases h

theorem peek : Steady peek where
  ok {c b c'} h more := by
    obtain ⟨p, _ | ⟨b, bs⟩⟩ := c
    · cases h
    · cases h
      rfl
  error {c e c'} h he := by
    obtain ⟨p, _ | ⟨b, bs⟩⟩ := c
    · cases h
      exact absurd rfl he
    · cases h

theorem bind {f : α → Reader β} (hr : Steady r) (hf : ∀ a, Steady (f a)) : Steady (r >>= f) where
  ok h more := by
    obtain ⟨a, c₁, h₁, h₂⟩ := bind_eq_ok.1 h
    exact bind_eq_ok.2 ⟨a, _, hr.ok h₁ more, (hf a).ok h₂ more⟩
  error h he more := by
    cases bind_eq_error.1 h with
    | inl h₁ => exact (hr.error h₁ he more).bind f
    | inr h =>
      obtain ⟨a, c₁, h₁, h₂⟩ := h
      exact .of_ok (hr.ok h₁ more) ((hf a).error h₂ he more)

theorem ite {s : Reader α} {c : Prop} [Decidable c] (hr : Steady r) (hs : Steady s) :
    Steady (if c then r else s) := by
  split
  · exact hr
  · exact hs

/-- A check in front of a reader. -/
theorem check {c : Prop} [Decidable c] (flaw : Flaw) (hr : Steady r) :
    Steady (if c then Reader.malformed flaw >>= fun (_ : Unit) => r else r) :=
  ite ((malformed flaw).bind fun _ => hr) hr

theorem skip : Steady skip := byte.bind fun _ => pure ()

theorem times (hr : Steady r) (n : Nat) : Steady (times r n) := by
  induction n with
  | zero => exact pure []
  | succ n ih => exact hr.bind fun a => ih.bind fun as => pure (a :: as)

theorem integer : Steady integer := by
  apply byte.bind
  intro b
  have two := byte.bind fun c => pure (b.toNat % 64 * 256 + c.toNat)
  have four := byte.bind fun c => byte.bind fun d => byte.bind fun e =>
    pure (b.toNat % 32 * 16777216 + c.toNat * 65536 + d.toNat * 256 + e.toNat)
  exact ite (pure _) (ite two (ite four (malformed _)))

theorem token : Steady token := by
  apply integer.bind
  intro value
  split
  · exact pure _
  · exact malformed _

end Steady

end Reader

open Reader

/-! Modifiers, and what may stand behind them. -/

theorem modifiers_extend {c c' : Cursor} (h : modifiers c = .ok () c') (hc : c'.rest ≠ [])
    (more : List UInt8) : modifiers (c.extend more) = .ok () (c'.extend more) := by
  obtain ⟨p, bytes⟩ := c
  obtain ⟨u, rest, rfl, rfl, hu, ho⟩ := modifiers_sound h
  rw [← opensModifier_append hc more] at ho
  show modifiers ⟨p, (u ++ rest) ++ more⟩ = _
  rw [List.append_assoc]
  exact modifiers_complete hu ho p

theorem modifiers_of_token_error {p : Nat} {b : UInt8} {bs : List UInt8} {e : Fault} {c : Cursor}
    (hb : isModifier b = true) (ht : token ⟨p + 1, bs⟩ = .error e c) :
    modifiers ⟨p, b :: bs⟩ = .error e c := by
  rw [modifiers]
  simp only [hb, if_true]
  split
  · next hok =>
    rw [ht] at hok
    cases hok
  · next herror =>
    rw [ht] at herror
    cases herror
    rfl

theorem modifiers_fails {p : Nat} {b : UInt8} {bs : List UInt8} (hb : isModifier b = true)
    (h : Fails token ⟨p + 1, bs⟩) : Fails modifiers ⟨p, b :: bs⟩ := by
  obtain ⟨e, c, he⟩ := h
  exact ⟨e, c, modifiers_of_token_error hb he⟩

theorem modifiers_error {c c' : Cursor} {e : Fault} (h : modifiers c = .error e c')
    (he : e ≠ .outOfBounds) (more : List UInt8) : Fails modifiers (c.extend more) := by
  fun_induction modifiers c with
  | case1 => cases h
  | case2 c b bs hc hb t c₁ ht _ ih =>
    obtain ⟨p, bytes⟩ := c
    obtain rfl : bytes = b :: bs := hc
    obtain ⟨e', c'', hfails⟩ := ih h
    exact ⟨e', c'', (modifiers_of_token hb (Steady.token.ok ht more)).trans hfails⟩
  | case3 c b bs hc hb e₁ c₁ ht =>
    obtain ⟨p, bytes⟩ := c
    obtain rfl : bytes = b :: bs := hc
    cases h
    exact modifiers_fails hb (Steady.token.error ht he more)
  | case4 => cases h

namespace Reader

variable {α : Type} {r : Reader α}

/-- When the modifiers use up the data, the reader behind them still wants a byte, so that nothing
has been decided yet. -/
theorem Steady.afterModifiers (hr : Steady r) (hneedy : Needy r) : Steady (do modifiers; r) where
  ok {c a c'} h more := by
    obtain ⟨⟨⟩, c₁, hm, h₁⟩ := bind_eq_ok.1 h
    have hrest : c₁.rest ≠ [] := by
      intro hnil
      obtain ⟨p, _⟩ := c₁
      obtain rfl := hnil
      obtain ⟨e, c₂, h₂⟩ := hneedy.fails p
      rw [h₁] at h₂
      cases h₂
    exact bind_eq_ok.2 ⟨(), _, modifiers_extend hm hrest more, hr.ok h₁ more⟩
  error {c e c'} h he more := by
    cases bind_eq_error.1 h with
    | inl hm => exact (modifiers_error hm he more).bind _
    | inr h =>
      obtain ⟨⟨⟩, c₁, hm, h₁⟩ := h
      by_cases hrest : c₁.rest = []
      · obtain ⟨p, _⟩ := c₁
        obtain rfl := hrest
        cases hneedy with
        | inl hneedy =>
          obtain ⟨c₂, h₂⟩ := hneedy p
          rw [h₁] at h₂
          cases h₂
          exact absurd rfl he
        | inr hneedy =>
          cases hm' : modifiers (c.extend more) with
          | ok _ c₂ => exact .of_ok hm' (hneedy c₂)
          | error e' c₂ => exact .bind ⟨e', c₂, hm'⟩ _
      · exact .of_ok (modifiers_extend hm hrest more) (hr.error h₁ he more)

end Reader

/-! The parts of a signature, over the reader for the types one level further in. -/

section

variable {type : Reader Instruction} (hT : Steady type)

include hT

theorem steady_parameter : Steady (parameterWith type) := by
  have hskip := Steady.skip.bind fun _ => hT.bind fun _ => .pure Instruction.unsupported
  have hpassed := Steady.peek.bind fun b =>
    Steady.ite (c := b = Element.byRef.code) hskip hT
  exact hpassed.afterModifiers (needy_peek _)

theorem steady_parameters (count : Nat) (optional : Bool) :
    Steady (parametersWith type count optional) := by
  have hP := steady_parameter hT
  induction count generalizing optional with
  | zero => exact .pure []
  | succ count ih =>
    apply Steady.peek.bind
    intro b
    have hstop := Steady.skip.bind fun _ => hP.bind fun _ => ih true
    have hnext := hP.bind fun i => (ih optional).bind fun is =>
      Steady.pure (if optional then is else i :: is)
    exact .ite (hstop.check .repeatedSentinel) hnext

theorem steady_method (nested : Bool) : Steady (methodWith type nested) := by
  have hrest := Steady.integer.bind fun count =>
    (steady_parameter hT).bind fun _ => steady_parameters hT count false
  have hcount := Steady.integer.bind fun _ => hrest
  exact Steady.byte.bind fun header => (Steady.ite hcount hrest).check (.notMethod header)

theorem steady_genericArguments : Steady (genericArguments type) := by
  have hargs := hT.bind fun _ => Steady.integer.bind fun count =>
    ((hT.times count).bind fun _ => Steady.pure ()).check (c := count = 0) .noTypeArguments
  exact Steady.peek.bind fun b => hargs.check (.genericHead b)

end

theorem steady_rangeFrom (start : Nat) : Steady (rangeFrom start) :=
  Steady.position.bind fun _ => .pure _

theorem steady_arrayBounds : Steady arrayBounds :=
  Steady.integer.bind fun _ => Steady.integer.bind fun sizes =>
    (Steady.integer.times sizes).bind fun _ => Steady.integer.bind fun lowerBounds =>
      (Steady.integer.times lowerBounds).bind fun _ => .pure ()

theorem steady_element {type : Reader Instruction} (hT : Steady type) (hneedy : Needy type)
    (start : Nat) (e : Element) : Steady (elementWith type start e) := by
  have hmodified (i : Instruction) :=
    (hT.bind fun _ => Steady.pure i).afterModifiers (hneedy.bind _)
  cases e with
  | primitive | string | object | void | typedReference => exact .pure _
  | classType => exact Steady.token.bind fun _ => .pure _
  | valueType => exact Steady.token.bind fun _ => .ite (steady_rangeFrom start) (.pure _)
  | typeVariable | methodVariable => exact Steady.integer.bind fun _ => steady_rangeFrom start
  | vector => exact hmodified .object
  | pointer => exact hmodified .unsupported
  | array => exact hT.bind fun _ => steady_arrayBounds.bind fun _ => .pure _
  | genericInstance => exact (steady_genericArguments hT).bind fun _ => steady_rangeFrom start
  | byRef => exact hT.bind fun _ => .pure _
  | functionPointer => exact (steady_method hT true).bind fun _ => .pure _
  | requiredModifier | optionalModifier => exact Steady.token.bind fun _ => hT

theorem steady_type {type : Reader Instruction} (hT : Steady type) (hneedy : Needy type) :
    Steady (typeWith type) := by
  apply Steady.position.bind
  intro start
  apply Steady.byte.bind
  intro b
  split
  · exact steady_element hT hneedy start _
  · exact .malformed _

/-- Without levels left, a type is refused before anything is read. -/
theorem needy_typeAt (limit levels : Nat) : Needy (typeAt limit levels) := by
  cases levels with
  | zero =>
    right
    intro c
    exact ⟨.nestingLimit limit, c, rfl⟩
  | succ levels =>
    left
    intro p
    exact ⟨⟨p, []⟩, rfl⟩

theorem steady_typeAt (limit levels : Nat) : Steady (typeAt limit levels) := by
  induction levels with
  | zero => exact .throw (.nestingLimit limit)
  | succ levels ih => exact steady_type ih (needy_typeAt limit levels)

theorem steady_methodAt (limit : Nat) : Steady (method limit) :=
  steady_method (steady_typeAt limit (limit - 1)) false

/-! Whole signatures. -/

theorem parameters_ok_iff_method {limit : Nat} {bytes : List UInt8} {is : List Instruction} :
    parameters limit bytes = .ok is ↔ ∃ c, method limit (.ofBytes bytes) = .ok is c := by
  rw [parameters]
  cases method limit (.ofBytes bytes) <;> simp

theorem parameters_error_iff_method {limit : Nat} {bytes : List UInt8} {e : Fault} :
    parameters limit bytes = .error e ↔ ∃ c, method limit (.ofBytes bytes) = .error e c := by
  rw [parameters]
  cases method limit (.ofBytes bytes) <;> simp

/-- A derived signature that is cut short has ended too early, and nothing else is wrong with it. -/
theorem parameters_truncated {limit : Nat} {u v : List UInt8} {is : List Instruction}
    (h : IsMethod (IsType (limit - 1)) false 0 (u ++ v) is) (hv : v ≠ []) :
    parameters limit u = .error .outOfBounds := by
  have hfull := (reads_methodAt limit).complete h []
  rw [List.append_nil] at hfull
  cases hm : method limit (.ofBytes u) with
  | ok js c =>
    -- the bytes cut off would be left over
    have hext := (steady_methodAt limit).ok hm v
    have hsame := hfull.symm.trans hext
    injection hsame with _ hc
    have hnil : [] = c.rest ++ v := congrArg Cursor.rest hc
    exact absurd (List.append_eq_nil_iff.1 hnil.symm).2 hv
  | error e c =>
    by_cases he : e = .outOfBounds
    · rw [← he]
      exact parameters_error_iff_method.2 ⟨c, hm⟩
    · obtain ⟨e', c', hext⟩ := (steady_methodAt limit).error hm he v
      have hsame := hfull.symm.trans hext
      cases hsame

/-- A signature that can be read ends somewhere: nothing behind that end is looked at, and
everything cut off before it is missed. A signature that is wrong is not made right by what is put
behind it. -/
theorem signatures_delimit_themselves (limit : Nat) (blob : List UInt8) :
    (∀ is, parameters limit blob = .ok is → ∃ n ≤ blob.length,
      (∀ other, other.take n = blob.take n → parameters limit other = .ok is) ∧
      ∀ k < n, parameters limit (blob.take k) = .error .outOfBounds) ∧
    ∀ e, parameters limit blob = .error e → e ≠ .outOfBounds →
      ∀ more, ∃ e', parameters limit (blob ++ more) = .error e' := by
  constructor
  · intro is h
    obtain ⟨c, hc⟩ := parameters_ok_iff_method.1 h
    obtain ⟨u, rest, rfl, -, hu⟩ := (reads_methodAt limit).sound hc
    have hlength : u.length ≤ (u ++ rest).length := by simp
    refine ⟨u.length, hlength, ?_, ?_⟩
    · intro other hother
      rw [List.take_left] at hother
      have hsplit : other = u ++ other.drop u.length := by
        rw [← List.take_append_drop u.length other, hother, List.drop_left]
      rw [hsplit]
      exact parameters_ok_iff_method.2 ⟨_, (reads_methodAt limit).complete hu _⟩
    · intro k hk
      rw [List.take_append_of_le_length (Nat.le_of_lt hk)]
      apply parameters_truncated (v := u.drop k)
      · rwa [List.take_append_drop]
      · show u.drop k ≠ []
        rw [ne_eq, List.drop_eq_nil_iff]
        omega
  · intro e h he more
    obtain ⟨c, hc⟩ := parameters_error_iff_method.1 h
    obtain ⟨e', c', hext⟩ := (steady_methodAt limit).error hc he more
    exact ⟨e', parameters_error_iff_method.2 ⟨c', hext⟩⟩

theorem list_signature_delimited :
    (∃ n ≤ 9, (∀ other : List UInt8,
        other.take n = [0x00, 0x02, 0x01, 0x08, 0x15, 0x12, 0x05, 0x01, 0x0e].take n →
        parameters 50 other = .ok [.primitive .int32, .typeSpec 4 5]) ∧
      ∀ k < n, parameters 50 ([0x00, 0x02, 0x01, 0x08, 0x15, 0x12, 0x05, 0x01, 0x0e].take k) =
        .error .outOfBounds) ∧
    ∀ more, ∃ e, parameters 50 ([0x00, 0x01, 0x01, 0x15, 0x0e] ++ more) = .error e := by
  have hlist : parameters 50 [0x00, 0x02, 0x01, 0x08, 0x15, 0x12, 0x05, 0x01, 0x0e] =
      .ok [.primitive .int32, .typeSpec 4 5] := by cbv
  have hhead : parameters 50 [0x00, 0x01, 0x01, 0x15, 0x0e] =
      .error (.malformed (.genericHead 0x0e)) := by with_unfolding_all rfl
  constructor
  · exact (signatures_delimit_themselves 50 _).1 _ hlist
  · exact (signatures_delimit_themselves 50 _).2 _ hhead (by decide)

end MethodCapture.Signature
