import MethodCapture.Proofs.Signature.Lifting
import MethodCapture.Proofs.Signature.Number
import MethodCapture.Proofs.Signature.Range

/-!
What a signature takes to read. Each part that is read to its end has taken bytes, and so has each
round of each loop; so neither the numbers that a signature announces nor the limit on its types
decide when the reader stops, but the bytes that are left.
-/

namespace MethodCapture.Signature

/-- The second cursor stands behind the bytes `u`, which the first has next. -/
structure Cursor.Passes (c : Cursor) (u : List UInt8) (c' : Cursor) : Prop where
  rest : c.rest = u ++ c'.rest
  position : c'.position = c.position + u.length

namespace Cursor.Passes

variable {u v : List UInt8} {c c₁ c' : Cursor}

theorem refl (c : Cursor) : c.Passes [] c := ⟨rfl, rfl⟩

theorem trans (h₁ : c.Passes u c₁) (h₂ : c₁.Passes v c') : c.Passes (u ++ v) c' where
  rest := by rw [h₁.rest, h₂.rest, List.append_assoc]
  position := by rw [h₂.position, h₁.position, List.length_append, Nat.add_assoc]

end Cursor.Passes

namespace Reader

variable {α β : Type} {m n : Nat} {r s : Reader α}

/-- Every success takes bytes from the front of those that are left, `n` of them at least. -/
def Takes (n : Nat) (r : Reader α) : Prop :=
  ∀ c a c', r c = .ok a c' →
    ∃ u, n ≤ u.length ∧ c.rest = u ++ c'.rest ∧ c'.position = c.position + u.length

namespace Takes

theorem passes {c c' : Cursor} {a : α} (hr : Takes n r) (h : r c = .ok a c') :
    ∃ u, n ≤ u.length ∧ c.Passes u c' := by
  obtain ⟨u, hu, hrest, hpos⟩ := hr c a c' h
  exact ⟨u, hu, hrest, hpos⟩

theorem mono (hr : Takes m r) (h : n ≤ m) : Takes n r := by
  intro c a c' hok
  obtain ⟨u, hu, hrest, hpos⟩ := hr c a c' hok
  exact ⟨u, Nat.le_trans h hu, hrest, hpos⟩

theorem pure (a : α) : Takes 0 (Pure.pure a : Reader α) := by
  intro c b c' h
  cases h
  exact ⟨[], Nat.le_refl _, rfl, rfl⟩

theorem malformed (n : Nat) (flaw : Flaw) : Takes n (malformed flaw : Reader α) := by
  intro c a c' h
  cases h

theorem peek : Takes 0 peek := by
  rintro ⟨p, _ | ⟨b, bs⟩⟩ a c' h
  · cases h
  · cases h
    exact ⟨[], Nat.le_refl _, rfl, rfl⟩

theorem bind {f : α → Reader β} (hr : Takes m r) (hf : ∀ a, Takes n (f a)) :
    Takes (m + n) (r >>= f) := by
  intro c b c' h
  obtain ⟨a, c₁, h₁, h₂⟩ := bind_eq_ok.1 h
  obtain ⟨u, hu, hpasses₁⟩ := hr.passes h₁
  obtain ⟨v, hv, hpasses₂⟩ := (hf a).passes h₂
  have hpasses := hpasses₁.trans hpasses₂
  refine ⟨u ++ v, ?_, hpasses.rest, hpasses.position⟩
  rw [List.length_append]
  omega

theorem ite {c : Prop} [Decidable c] (hr : Takes n r) (hs : Takes n s) :
    Takes n (if c then r else s) := by
  split
  · exact hr
  · exact hs

/-- A check in front of a reader. -/
theorem check {c : Prop} [Decidable c] (flaw : Flaw) (hr : Takes n r) :
    Takes n (if c then Reader.malformed flaw >>= fun (_ : Unit) => r else r) := by
  have hstop : Takes (0 + n) (Reader.malformed flaw >>= fun (_ : Unit) => r) :=
    (malformed 0 flaw).bind fun _ => hr
  exact ite (hstop.mono (by omega)) hr

theorem keeps (hr : Takes n r) : Keeps r := by
  intro c a c' h
  obtain ⟨u, -, hrest, -⟩ := hr c a c' h
  rw [hrest, List.length_append]
  exact Nat.le_add_left _ _

theorem advances (hr : Takes 1 r) : Advances r := by
  intro c a c' h
  obtain ⟨u, hu, hrest, -⟩ := hr c a c' h
  rw [hrest, List.length_append]
  omega

theorem times (hr : Takes 1 r) (n : Nat) : Takes n (times r n) := by
  induction n with
  | zero => exact pure []
  | succ n ih =>
    have h := hr.bind fun a => ih.bind fun as => pure (a :: as)
    exact h.mono (by omega)

end Takes

end Reader

open Reader

theorem Reads.takes {α : Type} {r : Reader α} {F : Form α} (hr : Reads r F)
    (hF : ∀ {p u a}, F p u a → u ≠ []) : Takes 1 r := by
  intro c a c' h
  obtain ⟨u, rest, hrest, rfl, hu⟩ := hr.sound h
  exact ⟨u, List.length_pos_iff.2 (hF hu), hrest, rfl⟩

theorem takes_byte : Takes 1 byte :=
  Reads.byte.takes fun h => h ▸ List.cons_ne_nil _ _

theorem takes_skip : Takes 1 skip := takes_byte.bind fun _ => .pure ()

theorem takes_integer : Takes 1 integer := reads_integer.takes fun h => h.ne_nil

theorem takes_token : Takes 1 token := reads_token.takes fun h => h.ne_nil

/-! The rounds of the loops. -/

/-- One modifier. -/
def modifier : Reader Unit := do
  skip
  let _ ← token

theorem takes_modifier : Takes 2 modifier :=
  takes_skip.bind fun _ => takes_token.bind fun _ => .pure ()

/-- The loop over the modifiers goes on as long as another one begins. -/
theorem modifiers_eq (c : Cursor) : modifiers c =
    if opensModifier c.rest then (do modifier; modifiers) c else .ok () c := by
  split
  · next ho =>
    obtain ⟨p, _ | ⟨b, bs⟩⟩ := c
    · cases ho
    · cases ht : token ⟨p + 1, bs⟩ with
      | ok t c =>
        have hone : modifier ⟨p, b :: bs⟩ = .ok () c := bind_of_ok (r := token) ht
        exact (modifiers_of_token ho ht).trans (bind_of_ok (f := fun _ => modifiers) hone).symm
      | error e c =>
        have hone : modifier ⟨p, b :: bs⟩ = .error e c := bind_of_error (r := token) ht
        exact (modifiers_of_token_error ho ht).trans (bind_of_error hone).symm
  · next ho => exact modifiers_of_not_opens (by simpa using ho)

/-- One round of the loop over the parameters: the instruction, if the parameter is required, and
whether those behind it are optional. -/
def parameterRound (type : Reader Instruction) (optional : Bool) :
    Reader (Option Instruction × Bool) := do
  let b ← peek
  if b = sentinel then
    if optional then
      malformed .repeatedSentinel
    skip
    let _ ← parameterWith type
    return (none, true)
  else
    let i ← parameterWith type
    return (if optional then none else some i, optional)

theorem parametersWith_succ (type : Reader Instruction) (n : Nat) (optional : Bool) :
    parametersWith type (n + 1) optional = (do
      let (i, optional) ← parameterRound type optional
      let is ← parametersWith type n optional
      return i.toList ++ is) := by
  rw [parametersWith, parameterRound, bind_assoc]
  congr 1
  funext b
  split
  · split
    · simp
    · simp
  · cases optional
    · simp
    · simp

theorem takes_modifiers : Takes 0 modifiers := by
  intro c a c' h
  obtain ⟨u, rest, hu, rfl, -⟩ := modifiers_sound h
  exact ⟨u, Nat.zero_le _, hu, rfl⟩

section

variable {type : Reader Instruction} (hT : Takes 1 type)

include hT

theorem takes_parameter : Takes 1 (parameterWith type) := by
  have hskip := takes_skip.bind fun _ => hT.bind fun _ => .pure Instruction.unsupported
  have hpassed := Takes.peek.bind fun b =>
    Takes.ite (c := b = Element.byRef.code) (hskip.mono (by omega)) hT
  exact (takes_modifiers.bind fun _ => hpassed).mono (by omega)

theorem takes_parameterRound (optional : Bool) : Takes 1 (parameterRound type optional) := by
  have hP := takes_parameter hT
  have hstop := takes_skip.bind fun _ => hP.bind fun _ =>
    .pure ((none : Option Instruction), true)
  have hnext := hP.bind fun i => .pure (if optional then none else some i, optional)
  have hround := Takes.peek.bind fun b => Takes.ite (c := b = sentinel)
    ((hstop.mono (n := 1) (by omega)).check (c := optional) .repeatedSentinel) hnext
  exact hround.mono (by omega)

theorem takes_parameters (n : Nat) (optional : Bool) :
    Takes n (parametersWith type n optional) := by
  induction n generalizing optional with
  | zero => exact .pure []
  | succ n ih =>
    rw [parametersWith_succ]
    have hloop := (takes_parameterRound hT optional).bind fun x =>
      (ih x.2).bind fun is => .pure (x.1.toList ++ is)
    exact hloop.mono (by omega)

/-- Header, number of parameters and result. -/
theorem takes_method (nested : Bool) : Takes 3 (methodWith type nested) := by
  have hparameters (count : Nat) := (takes_parameters hT count false).mono (Nat.zero_le _)
  have hrest := takes_integer.bind fun count => (takes_parameter hT).bind fun _ => hparameters count
  have hcount := (takes_integer.bind fun _ => hrest).mono (n := 2) (by omega)
  exact takes_byte.bind fun header => (Takes.ite hcount hrest).check (.notMethod header)

end

theorem takes_typeAt (limit levels : Nat) : Takes 1 (typeAt limit levels) :=
  (reads_typeAt limit levels).takes fun h => ((regular_isType levels).opens h).ne_nil

/-! What is read further in is read where fewer bytes are left. -/

namespace Reader

variable {α β : Type} {k n : Nat}

/-- The two readers do the same wherever fewer than `n` bytes are left. -/
def AgreeBelow (n : Nat) (r s : Reader α) : Prop := ∀ c, c.rest.length < n → r c = s c

namespace AgreeBelow

variable {r s r' s' : Reader α}

theorem mono (h : AgreeBelow n r s) (hk : k ≤ n) : AgreeBelow k r s :=
  fun c hc => h c (Nat.lt_of_lt_of_le hc hk)

theorem ite {c : Prop} [Decidable c] (hr : AgreeBelow n r r') (hs : AgreeBelow n s s') :
    AgreeBelow n (if c then r else s) (if c then r' else s') := by
  split
  · exact hr
  · exact hs

/-- Behind a reader that takes a byte there is one byte less. -/
theorem bind {f g : α → Reader β} (hr : Advances r) (hf : ∀ a, AgreeBelow n (f a) (g a)) :
    AgreeBelow (n + 1) (r >>= f) (r >>= g) := by
  intro c hc
  cases h : r c with
  | ok a c₁ =>
    have hlt := hr c a c₁ h
    rw [bind_of_ok h, bind_of_ok h]
    exact hf a c₁ (by omega)
  | error e c₁ => rw [bind_of_error h, bind_of_error h]

/-- A check in front of both. -/
theorem check {c : Prop} [Decidable c] (flaw : Flaw) (hr : AgreeBelow n r s) :
    AgreeBelow n (if c then malformed flaw >>= fun (_ : Unit) => r else r)
      (if c then malformed flaw >>= fun (_ : Unit) => s else s) :=
  ite (fun _ _ => rfl) hr

end AgreeBelow

end Reader

/-- Below `n` bytes the first reader does what the second does, which gives no bytes back. -/
def below (n : Nat) : Simulation Reader where
  Rel x r := ∀ c, c.rest.length < n →
    x c = r c ∧ ∀ a c', r c = .ok a c' → c'.rest.length ≤ c.rest.length
  pure a c _ := ⟨rfl, keeps_pure a c⟩
  lift hr c _ := ⟨rfl, hr.keeps c⟩
  bind {_ _ x r f g} hx hf c hc := by
    obtain ⟨heq, hkeeps⟩ := hx c hc
    cases h : r c with
    | ok a c₁ =>
      have hle := hkeeps a c₁ h
      obtain ⟨heq₁, hkeeps₁⟩ := hf a c₁ (by omega)
      rw [bind_of_ok (heq.trans h), bind_of_ok h]
      exact ⟨heq₁, fun b c' hb => Nat.le_trans (hkeeps₁ b c' hb) hle⟩
    | error e c₁ =>
      rw [bind_of_error (heq.trans h), bind_of_error h]
      exact ⟨rfl, nofun⟩

section

variable {type type' : Reader Instruction} {n : Nat}

theorem below_rel (hk : Keeps type') (h : AgreeBelow n type type') : (below n).Rel type type' :=
  fun c hc => ⟨h c hc, hk c⟩

/-- A type asks for the types in it only where fewer bytes are left. -/
theorem typeWith_congr {c : Cursor} (hk : Keeps type')
    (h : AgreeBelow c.rest.length type type') : typeWith type c = typeWith type' c := by
  obtain ⟨p, _ | ⟨b, bs⟩⟩ := c
  · rfl
  · cases he : Element.ofCode? b with
    | none => rw [typeWith_of_none he, typeWith_of_none he]
    | some e =>
      rw [typeWith_of_element he, typeWith_of_element he, ← elementM_reader]
      have hbytes : bs.length < (b :: bs).length := Nat.lt_succ_self _
      exact ((below _).element (below_rel hk h) p e ⟨p + 1, bs⟩ hbytes).1

/-- The header and the number of parameters stand before the first type. -/
theorem methodWith_congr (nested : Bool) (hk : Keeps type') (h : AgreeBelow n type type') :
    AgreeBelow (n + 2) (methodWith type nested) (methodWith type' nested) := by
  have hrel := below_rel hk h
  have hparameters (count : Nat) : AgreeBelow n
      (do let _ ← parameterWith type; parametersWith type count false)
      (do let _ ← parameterWith type'; parametersWith type' count false) := by
    intro c hc
    have hp := (below n).bind ((below n).parameter hrel) fun _ =>
      (below n).parameters hrel count false
    rw [← parametersM_reader]
    exact (hp c hc).1
  have hrest := AgreeBelow.bind integer_advances hparameters
  have hcount := (AgreeBelow.bind integer_advances fun _ => hrest).mono (Nat.le_succ _)
  exact AgreeBelow.bind byte_advances fun header =>
    (AgreeBelow.ite hcount hrest).check (.notMethod header)

end

/-- No more levels can be open than there are bytes. -/
theorem typeAt_congr {limit limit' levels levels' : Nat} {c : Cursor} (h : c.rest.length < levels)
    (h' : c.rest.length < levels') : typeAt limit levels c = typeAt limit' levels' c := by
  induction levels generalizing levels' c with
  | zero => omega
  | succ levels ih =>
    obtain ⟨levels', rfl⟩ : ∃ k, levels' = k + 1 := ⟨levels' - 1, by omega⟩
    apply typeWith_congr (takes_typeAt limit' levels').keeps
    intro d hd
    exact ih (by omega) (by omega)

/-! Types without a limit. The reader calls itself only where fewer bytes are left, and that alone
determines it. -/

/-- Reads a type through as many levels as there can be. -/
def unlimitedType : Reader Instruction := fun c => typeAt 0 (c.rest.length + 1) c

theorem typeAt_eq_unlimitedType {limit levels : Nat} {c : Cursor} (h : c.rest.length < levels) :
    typeAt limit levels c = unlimitedType c :=
  typeAt_congr h (Nat.lt_succ_self _)

theorem takes_unlimitedType : Takes 1 unlimitedType :=
  fun c a c' h => takes_typeAt 0 (c.rest.length + 1) c a c' h

theorem unlimitedType_eq : unlimitedType = typeWith unlimitedType := by
  funext c
  have hinner : AgreeBelow c.rest.length (typeAt 0 c.rest.length) unlimitedType :=
    fun d hd => typeAt_eq_unlimitedType hd
  exact typeWith_congr takes_unlimitedType.keeps hinner

theorem unlimitedType_unique {type : Reader Instruction} (h : type = typeWith type) :
    type = unlimitedType := by
  have hbelow (n : Nat) : AgreeBelow n type unlimitedType := by
    induction n with
    | zero => exact fun c hc => absurd hc (Nat.not_lt_zero _)
    | succ n ih =>
      intro c hc
      rw [h, unlimitedType_eq]
      exact typeWith_congr takes_unlimitedType.keeps (ih.mono (Nat.le_of_lt_succ hc))
  funext c
  exact hbelow (c.rest.length + 1) c (Nat.lt_succ_self _)

theorem method_unlimited {limit : Nat} {blob : List UInt8} (h : blob.length ≤ limit) :
    method limit (.ofBytes blob) = methodWith unlimitedType false (.ofBytes blob) := by
  have htypes : AgreeBelow (blob.length - 1) (typeAt limit (limit - 1)) unlimitedType :=
    fun c hc => typeAt_eq_unlimitedType (by omega)
  apply methodWith_congr false takes_unlimitedType.keeps htypes
  show blob.length < _
  omega

/-! Counts that are larger than the data all come to the same. -/

theorem bind_congr_at {α β : Type} {r s : Reader α} {c : Cursor} (h : r c = s c)
    (f : α → Reader β) : (r >>= f) c = (s >>= f) c := by
  simp only [bind, EStateM.bind, h]

theorem times_congr {α : Type} {r : Reader α} (hr : Advances r) {n n' : Nat} {c : Cursor}
    (h : c.rest.length < n) (h' : c.rest.length < n') : times r n c = times r n' c := by
  induction n generalizing n' c with
  | zero => omega
  | succ n ih =>
    obtain ⟨n', rfl⟩ : ∃ k, n' = k + 1 := ⟨n' - 1, by omega⟩
    rw [times_succ, times_succ]
    refine AgreeBelow.bind (n := c.rest.length) hr (fun a d hd => ?_) c (Nat.lt_succ_self _)
    have heq : times r n d = times r n' d := ih (by omega) (by omega)
    exact bind_congr_at heq _

theorem parametersWith_count_congr {type : Reader Instruction} (hT : Takes 1 type) {n n' : Nat}
    {c : Cursor} (optional : Bool) (h : c.rest.length < n) (h' : c.rest.length < n') :
    parametersWith type n optional c = parametersWith type n' optional c := by
  induction n generalizing n' c optional with
  | zero => omega
  | succ n ih =>
    obtain ⟨n', rfl⟩ : ∃ k, n' = k + 1 := ⟨n' - 1, by omega⟩
    rw [parametersWith_succ, parametersWith_succ]
    refine AgreeBelow.bind (n := c.rest.length) (takes_parameterRound hT optional).advances
      (fun x d hd => ?_) c (Nat.lt_succ_self _)
    have heq : parametersWith type n x.2 d = parametersWith type n' x.2 d :=
      ih x.2 (by omega) (by omega)
    exact bind_congr_at heq _

/-! All that a signature takes. -/

/-- Whatever is read with `type` takes bytes, in each round of each loop. -/
structure Productive (type : Reader Instruction) : Prop where
  takes : Takes 1 type
  parameter : Takes 1 (parameterWith type)
  method : ∀ nested, Takes 3 (methodWith type nested)
  round : ∀ optional, Takes 1 (parameterRound type optional)
  parameters : ∀ n optional, Takes n (parametersWith type n optional)
  arguments : ∀ n, Takes n (times type n)
  /-- Once a count is larger than the data, it does not matter how large. -/
  parameters_count : ∀ n n' optional c, c.rest.length < n → c.rest.length < n' →
    parametersWith type n optional c = parametersWith type n' optional c
  arguments_count : ∀ n n' c, c.rest.length < n → c.rest.length < n' →
    times type n c = times type n' c

theorem productive {type : Reader Instruction} (hT : Takes 1 type) : Productive type where
  takes := hT
  parameter := takes_parameter hT
  method := takes_method hT
  round := takes_parameterRound hT
  parameters := takes_parameters hT
  arguments := hT.times
  parameters_count _ _ optional _ := parametersWith_count_congr hT optional
  arguments_count _ _ _ := times_congr hT.advances

theorem Repeat.length_le {α : Type} {F : Form α} (hF : ∀ {p u a}, F p u a → u ≠ []) {n p : Nat}
    {w : List UInt8} {as : List α} (h : Repeat F n p w as) : as.length ≤ w.length := by
  induction h with
  | nil => exact Nat.le_refl _
  | @cons n p u v a as hu _ ih =>
    have hpos : 0 < u.length := List.length_pos_iff.2 (hF hu)
    rw [List.length_cons, List.length_append]
    omega

/-- Each instruction has bytes of its own, behind those of the header, the count and the result. -/
theorem length_instructions_le {limit : Nat} {blob : List UInt8} {is : List Instruction}
    (h : parameters limit blob = .ok is) : is.length + 3 ≤ blob.length := by
  obtain ⟨bytes, rest, rfl, hm⟩ := exists_isMethod h
  obtain ⟨n, a, u, b, rfl, ha, hu⟩ := hm.exists_repeat
  have hle := hu.length_le fun hp => (hp.opens (regular_isType (limit - 1))).ne_nil
  simp only [List.length_append]
  omega

/-- Reading a signature consumes it. Every part that is read takes bytes, and every round of every
loop does, so that counts, which go up to `integerBound`, end with the data at the latest. Types are
read by recursion on the bytes that are left; a limit only cuts this recursion short. -/
theorem reading_consumes_input :
    (∀ limit levels, Productive (typeAt limit levels)) ∧
    (∀ type n optional, parametersWith type (n + 1) optional = (do
      let (i, optional) ← parameterRound type optional
      let is ← parametersWith type n optional
      return i.toList ++ is)) ∧
    (Takes 2 modifier ∧ ∀ c, modifiers c =
      if opensModifier c.rest then (do modifier; modifiers) c else .ok () c) ∧
    (Takes 1 integer ∧ (∀ n, Takes n (times integer n)) ∧
      (∀ c n c', integer c = .ok n c' → n < integerBound) ∧
      ∀ n n' c, c.rest.length < n → c.rest.length < n' → times integer n c = times integer n' c) ∧
    (∀ type type' c, Keeps type' → AgreeBelow c.rest.length type type' →
      typeWith type c = typeWith type' c) ∧
    (Productive unlimitedType ∧ ∀ type, type = typeWith type ↔ type = unlimitedType) ∧
    (∀ limit levels c, c.rest.length < levels → typeAt limit levels c = unlimitedType c) ∧
    (∀ limit blob, blob.length ≤ limit →
      method limit (.ofBytes blob) = methodWith unlimitedType false (.ofBytes blob)) ∧
    ∀ limit blob is, parameters limit blob = .ok is → is.length + 3 ≤ blob.length := by
  refine ⟨?_, ?_, ⟨takes_modifier, modifiers_eq⟩, ⟨takes_integer, takes_integer.times, ?_, ?_⟩, ?_,
    ⟨productive takes_unlimitedType, ?_⟩, ?_, ?_, ?_⟩
  · intro limit levels
    exact productive (takes_typeAt limit levels)
  · exact parametersWith_succ
  · intro c n c' h
    exact integer_lt h
  · intro n n' c h h'
    exact times_congr takes_integer.advances h h'
  · intro type type' c hk h
    exact typeWith_congr hk h
  · intro type
    constructor
    · exact unlimitedType_unique
    · rintro rfl
      exact unlimitedType_eq
  · intro limit levels c h
    exact typeAt_eq_unlimitedType h
  · intro limit blob h
    exact method_unlimited h
  · intro limit blob is h
    exact length_instructions_le h

theorem huge_count_ends :
    integer (.ofBytes [0xdf, 0xff, 0xff, 0xff]) = .ok 0x1fffffff ⟨4, []⟩ ∧
    0x1fffffff < integerBound ∧
    parametersWith (typeAt 50 49) 0x1fffffff false (.ofBytes [0x08, 0x08]) =
      parametersWith (typeAt 50 49) 3 false (.ofBytes [0x08, 0x08]) ∧
    typeWith (typeAt 50 2) (.ofBytes [0x1d, 0x08]) =
      typeWith unlimitedType (.ofBytes [0x1d, 0x08]) ∧
    typeAt 50 49 (.ofBytes [0x1d, 0x08]) = unlimitedType (.ofBytes [0x1d, 0x08]) ∧
    method 5 (.ofBytes [0x00, 0x02, 0x01, 0x08, 0x0e]) =
      methodWith unlimitedType false (.ofBytes [0x00, 0x02, 0x01, 0x08, 0x0e]) ∧
    [Instruction.primitive .int32, .object].length + 3 ≤ 5 := by
  obtain ⟨htypes, -, -, ⟨-, -, hbound, -⟩, hinner, -, hunlimited, hmethod, hlength⟩ :=
    reading_consumes_input
  have hcount : integer (.ofBytes [0xdf, 0xff, 0xff, 0xff]) = .ok 0x1fffffff ⟨4, []⟩ := rfl
  have htwo : parameters 50 [0x00, 0x02, 0x01, 0x08, 0x0e] = .ok [.primitive .int32, .object] := by
    with_unfolding_all rfl
  refine ⟨hcount, hbound _ _ _ hcount, ?_, ?_, ?_, ?_, ?_⟩
  · exact (htypes 50 49).parameters_count _ _ _ _ (by decide) (by decide)
  · exact hinner _ _ _ takes_unlimitedType.keeps fun c hc => typeAt_eq_unlimitedType hc
  · exact hunlimited 50 49 _ (by decide)
  · exact hmethod 5 _ (by decide)
  · exact hlength 50 _ _ htwo

end MethodCapture.Signature
