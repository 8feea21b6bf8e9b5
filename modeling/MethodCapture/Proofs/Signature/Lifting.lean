import MethodCapture.Proofs.Signature.Truncation

/-!
The parts of a signature in any monad that can run the readers of a cursor. In `Reader` they are the
parts as they stand. Two ways to read a type that a simulation relates make it relate the two ways
to read each part, whatever else the monad keeps books of.
-/

namespace MethodCapture.Signature

open Reader

section

variable {m : Type → Type} [Monad m] [MonadLiftT Reader m]

def timesM {α : Type} (r : m α) : Nat → m (List α)
  | 0 => return []
  | n + 1 => do
    let a ← r
    let as ← timesM r n
    return a :: as

def parameterM (type : m Instruction) : m Instruction := do
  liftM (m := Reader) modifiers
  let b ← peek
  if b = Element.byRef.code then
    skip
    let _ ← type
    return .unsupported
  else
    type

def parametersM (type : m Instruction) : (count : Nat) → (optional : Bool) → m (List Instruction)
  | 0, _ => return []
  | n + 1, optional => do
    let b ← peek
    if b = sentinel then
      if optional then
        malformed (α := Unit) .repeatedSentinel
      skip
      let _ ← parameterM type
      parametersM type n true
    else
      let i ← parameterM type
      let is ← parametersM type n optional
      return if optional then is else i :: is

def methodM (type : m Instruction) (nested : Bool) : m (List Instruction) := do
  let header ← byte
  if !isMethodHeader nested header then
    malformed (α := Unit) (.notMethod header)
  if (Header.ofByte header).isGeneric then
    let _ ← integer
  let count ← integer
  let _ ← parameterM type
  parametersM type count false

def genericArgumentsM (type : m Instruction) : m Unit := do
  let b ← peek
  if b ≠ Element.classType.code ∧ b ≠ Element.valueType.code then
    malformed (α := Unit) (.genericHead b)
  let _ ← type
  let count ← integer
  if count = 0 then
    malformed (α := Unit) .noTypeArguments
  let _ ← timesM type count

/-- Elements without a type further in are read as they stand. -/
def elementM (type : m Instruction) (start : Nat) : Element → m Instruction
  | .vector => do
    liftM (m := Reader) modifiers
    let _ ← type
    return .object
  | .array => do
    let _ ← type
    arrayBounds
    return .object
  | .genericInstance => do
    genericArgumentsM type
    rangeFrom start
  | .pointer => do
    liftM (m := Reader) modifiers
    let _ ← type
    return .unsupported
  | .byRef => do
    let _ ← type
    return .unsupported
  | .functionPointer => do
    let _ ← methodM type true
    return .unsupported
  | .requiredModifier | .optionalModifier => do
    let _ ← token
    type
  | e => elementWith (throw .outOfBounds) start e

def typeM (type : m Instruction) : m Instruction := do
  let start ← position
  let b ← byte
  match Element.ofCode? b with
  | some e => elementM type start e
  | none => malformed (.element b)

end

/-! In `Reader` itself. -/

section

variable (type : Reader Instruction)

theorem timesM_reader {α : Type} (r : Reader α) (n : Nat) : timesM r n = times r n := by
  induction n with
  | zero => rfl
  | succ n ih => rw [timesM, times, ih]

theorem parametersM_reader (n : Nat) (optional : Bool) :
    parametersM type n optional = parametersWith type n optional := by
  induction n generalizing optional with
  | zero => rfl
  | succ n ih =>
    rw [parametersM, parametersWith]
    simp only [ih]
    rfl

theorem methodM_reader (nested : Bool) : methodM type nested = methodWith type nested := by
  unfold methodM methodWith
  simp only [parametersM_reader]
  rfl

theorem genericArgumentsM_reader : genericArgumentsM type = genericArguments type := by
  unfold genericArgumentsM genericArguments
  simp only [timesM_reader]
  rfl

theorem elementM_reader (start : Nat) (e : Element) :
    elementM type start e = elementWith type start e := by
  cases e with
  | genericInstance =>
    unfold elementM elementWith
    rw [genericArgumentsM_reader]
    rfl
  | functionPointer =>
    unfold elementM elementWith
    rw [methodM_reader]
  | _ => rfl

theorem typeM_reader : typeM type = typeWith type := by
  unfold typeM typeWith
  simp only [elementM_reader]
  rfl

end

/-! Readers that ask for no type. -/

namespace Reader

variable {α β : Type}

/-- No type is read, so that no limit on types is met, and no bytes are given back. -/
structure Flat (r : Reader α) : Prop where
  keeps : Keeps r
  unlimited : ∀ {c n c'}, r c ≠ .error (.nestingLimit n) c'

namespace Flat

variable {r s : Reader α}

theorem pure (a : α) : Flat (Pure.pure a : Reader α) := ⟨keeps_pure a, nofun⟩

theorem malformed (flaw : Flaw) : Flat (malformed flaw : Reader α) := ⟨keeps_malformed flaw, nofun⟩

theorem bind {f : α → Reader β} (hr : Flat r) (hf : ∀ a, Flat (f a)) : Flat (r >>= f) where
  keeps := hr.keeps.bind fun a => (hf a).keeps
  unlimited h := by
    rcases bind_eq_error.1 h with h | ⟨a, c, -, h⟩
    · exact hr.unlimited h
    · exact (hf a).unlimited h

theorem ite {c : Prop} [Decidable c] (hr : Flat r) (hs : Flat s) : Flat (if c then r else s) := by
  split
  · exact hr
  · exact hs

theorem byte : Flat byte where
  keeps := byte_advances.keeps
  unlimited {c n c'} h := by
    obtain ⟨p, _ | ⟨b, bs⟩⟩ := c <;> cases h

theorem peek : Flat peek where
  keeps c b c' h := by
    obtain ⟨p, _ | ⟨d, bs⟩⟩ := c <;> cases h
    exact Nat.le_refl _
  unlimited {c n c'} h := by
    obtain ⟨p, _ | ⟨b, bs⟩⟩ := c <;> cases h

theorem position : Flat position where
  keeps c p c' h := by
    cases h
    exact Nat.le_refl _
  unlimited := nofun

theorem skip : Flat skip := byte.bind fun _ => pure ()

theorem integer : Flat integer := by
  apply byte.bind
  intro b
  have two := byte.bind fun c => pure (b.toNat % 64 * 256 + c.toNat)
  have four := byte.bind fun c => byte.bind fun d => byte.bind fun e =>
    pure (b.toNat % 32 * 16777216 + c.toNat * 65536 + d.toNat * 256 + e.toNat)
  exact ite (pure _) (ite two (ite four (malformed _)))

theorem token : Flat token := by
  apply integer.bind
  intro value
  split
  · exact pure _
  · exact malformed _

theorem times (hr : Flat r) (n : Nat) : Flat (times r n) := by
  induction n with
  | zero => exact pure []
  | succ n ih => exact hr.bind fun a => ih.bind fun as => pure (a :: as)

end Flat

end Reader

open Reader

theorem flat_modifiers : Flat modifiers where
  keeps c a c' h := by
    obtain ⟨u, rest, hu, rfl, -⟩ := modifiers_sound h
    rw [hu, List.length_append]
    exact Nat.le_add_left _ _
  unlimited {c n c'} h := by
    fun_induction modifiers c with
    | case1 => cases h
    | case2 c b bs hc hb t c₁ ht _ ih => exact ih h
    | case3 c b bs hc hb e c₁ ht =>
      cases h
      exact Flat.token.unlimited ht
    | case4 => cases h

theorem flat_rangeFrom (start : Nat) : Flat (rangeFrom start) :=
  Flat.position.bind fun _ => .pure _

theorem flat_arrayBounds : Flat arrayBounds :=
  Flat.integer.bind fun _ => Flat.integer.bind fun sizes => (Flat.integer.times sizes).bind fun _ =>
    Flat.integer.bind fun lowerBounds => (Flat.integer.times lowerBounds).bind fun _ => .pure ()

/-! What relates two ways to read a type relates the two ways to read what has types in it. -/

/-- A relation between readers in `m` and plain readers that putting readers together keeps. -/
structure Simulation (m : Type → Type) [Monad m] [MonadLiftT Reader m] where
  Rel : {α : Type} → m α → Reader α → Prop
  pure : ∀ {α : Type} (a : α), Rel (Pure.pure a) (Pure.pure a)
  lift : ∀ {α : Type} {r : Reader α}, Flat r → Rel (liftM r) r
  bind : ∀ {α β : Type} {x : m α} {r : Reader α} {f : α → m β} {g : α → Reader β}, Rel x r →
    (∀ a, Rel (f a) (g a)) → Rel (x >>= f) (r >>= g)

namespace Simulation

variable {m : Type → Type} [Monad m] [MonadLiftT Reader m] (S : Simulation m)

theorem ite {α : Type} {x y : m α} {r s : Reader α} {c : Prop} [Decidable c] (hx : S.Rel x r)
    (hy : S.Rel y s) : S.Rel (if c then x else y) (if c then r else s) := by
  split
  · exact hx
  · exact hy

/-- A check in front of a reader. -/
theorem check {α : Type} {x : m α} {r : Reader α} {c : Prop} [Decidable c] (flaw : Flaw)
    (hx : S.Rel x r) :
    S.Rel (if c then liftM (malformed flaw) >>= fun (_ : Unit) => x else x)
      (if c then malformed flaw >>= fun (_ : Unit) => r else r) :=
  S.ite (S.bind (S.lift (.malformed flaw)) fun _ => hx) hx

theorem times {α : Type} {x : m α} {r : Reader α} (hx : S.Rel x r) (n : Nat) :
    S.Rel (timesM x n) (times r n) := by
  induction n with
  | zero => exact S.pure []
  | succ n ih => exact S.bind hx fun a => S.bind ih fun as => S.pure (a :: as)

variable {x : m Instruction} {r : Reader Instruction} (hx : S.Rel x r)

include hx

theorem parameter : S.Rel (parameterM x) (parameterWith r) := by
  have hskip := S.bind (S.lift Flat.skip) fun _ => S.bind hx fun _ => S.pure Instruction.unsupported
  exact S.bind (S.lift flat_modifiers) fun _ => S.bind (S.lift Flat.peek) fun b =>
    S.ite (c := b = Element.byRef.code) hskip hx

theorem parameters (n : Nat) (optional : Bool) :
    S.Rel (parametersM x n optional) (parametersWith r n optional) := by
  have hP := S.parameter hx
  induction n generalizing optional with
  | zero => exact S.pure []
  | succ n ih =>
    apply S.bind (S.lift Flat.peek)
    intro b
    have hstop := S.bind (S.lift Flat.skip) fun _ => S.bind hP fun _ => ih true
    have hnext := S.bind hP fun i => S.bind (ih optional) fun is =>
      S.pure (if optional then is else i :: is)
    exact S.ite (S.check .repeatedSentinel hstop) hnext

theorem method (nested : Bool) : S.Rel (methodM x nested) (methodWith r nested) := by
  have hrest := S.bind (S.lift Flat.integer) fun count => S.bind (S.parameter hx) fun _ =>
    S.parameters hx count false
  have hcount := S.bind (S.lift Flat.integer) fun _ => hrest
  exact S.bind (S.lift Flat.byte) fun header => S.check (.notMethod header) (S.ite hcount hrest)

theorem genericArguments : S.Rel (genericArgumentsM x) (genericArguments r) := by
  have hargs := S.bind hx fun _ => S.bind (S.lift Flat.integer) fun count =>
    S.check (c := count = 0) .noTypeArguments (S.bind (S.times hx count) fun _ => S.pure ())
  exact S.bind (S.lift Flat.peek) fun b => S.check (.genericHead b) hargs

theorem element (start : Nat) (e : Element) :
    S.Rel (elementM x start e) (elementWith r start e) := by
  have hthen (i : Instruction) := S.bind hx fun _ => S.pure i
  have hmodified (i : Instruction) := S.bind (S.lift flat_modifiers) fun _ => hthen i
  cases e with
  | primitive | string | object | void | typedReference => exact S.lift (.pure _)
  | classType => exact S.lift (Flat.token.bind fun _ => .pure _)
  | valueType => exact S.lift (Flat.token.bind fun _ => .ite (flat_rangeFrom start) (.pure _))
  | typeVariable | methodVariable =>
    exact S.lift (Flat.integer.bind fun _ => flat_rangeFrom start)
  | vector => exact hmodified .object
  | pointer => exact hmodified .unsupported
  | array => exact S.bind hx fun _ => S.bind (S.lift flat_arrayBounds) fun _ => S.pure _
  | genericInstance =>
    exact S.bind (S.genericArguments hx) fun _ => S.lift (flat_rangeFrom start)
  | byRef => exact hthen .unsupported
  | functionPointer => exact S.bind (S.method hx true) fun _ => S.pure _
  | requiredModifier | optionalModifier => exact S.bind (S.lift Flat.token) fun _ => hx

theorem type : S.Rel (typeM x) (typeWith r) := by
  apply S.bind (S.lift Flat.position)
  intro start
  apply S.bind (S.lift Flat.byte)
  intro b
  cases Element.ofCode? b with
  | some e => exact S.element hx start e
  | none => exact S.lift (.malformed (.element b))

end Simulation

end MethodCapture.Signature
