import MethodCapture.Slot.Plan

/-!
What each slot of a method gets. A slot that its shape settles keeps what the shape says, whatever
the signature holds. A deferred slot takes what the signature says at its own place and nothing
else, so that one slot never depends on the shape of another.
-/

namespace MethodCapture

theorem Shape.verdict_ne_typeSpec (home : ModuleId) (shape : Shape) (offset length : Nat) :
    shape.verdict home ≠ .settled (.typeSpec offset length) := by
  intro h
  cases shape with
  | valueType token module generic =>
    rw [verdict] at h
    split at h <;> cases h
  | _ => cases h

namespace Method

variable {limit n : Nat} {m m' : Method} {i : Instruction} {is : List Instruction} {shape : Shape}
  {p : Parameter}

/-- The slot of the first parameter. -/
def firstParameter (m : Method) : Nat := if m.isInstance then 1 else 0

/-- The parameters of the signature that have slots of their own. A signature whose first byte says
so has the receiver in front of them. -/
def aligned (m : Method) (is : List Instruction) : List Instruction :=
  if m.signature.head?.any (· &&& 0x40 != 0) then is.drop 1 else is

/-- The signature can be read and has as many parameters as the method; `i` is what it says of
parameter `n`. -/
def Tells (limit : Nat) (m : Method) (n : Nat) (i : Instruction) : Prop :=
  ∃ is, Signature.parameters limit m.signature = .ok is ∧
    (m.aligned is).length = m.parameters.length ∧ (m.aligned is)[n]? = some i

theorem hasExplicitThis_eq (m : Method) :
    m.hasExplicitThis = m.signature.head?.any (· &&& 0x40 != 0) := by
  unfold hasExplicitThis
  cases m.signature with
  | nil => rfl
  | cons b bs =>
    have hb : b &&& Signature.Header.knownFlags &&& 0x40 = b &&& 0x40 := by
      rw [UInt8.and_assoc]
      rfl
    simp [Signature.Header.hasExplicitThis, Signature.Header.ofByte, hb]

theorem signatureParameters?_eq_some_iff {js : List Instruction} :
    m.signatureParameters? limit = some js ↔
      ∃ is, Signature.parameters limit m.signature = .ok is ∧ m.aligned is = js ∧
        js.length = m.parameters.length := by
  unfold signatureParameters?
  cases hs : Signature.parameters limit m.signature with
  | error e => simp
  | ok is =>
    have ha : (if m.hasExplicitThis then is.tail else is) = m.aligned is := by
      rw [hasExplicitThis_eq, aligned, List.drop_one]
    simp only [ha]
    split
    · next hl =>
      constructor
      · intro h
        cases h
        exact ⟨is, rfl, rfl, hl⟩
      · rintro ⟨_, ⟨⟩, rfl, -⟩
        rfl
    · next hl =>
      constructor
      · intro h
        cases h
      · rintro ⟨_, ⟨⟩, rfl, hl'⟩
        exact absurd hl' hl

/-- What the signature says of a slot; of the receiver it says nothing. -/
def signatureSlot? (limit : Nat) (m : Method) (n : Nat) : Option Instruction :=
  if n < m.firstParameter then none
  else (m.signatureParameters? limit).bind (·[n - m.firstParameter]?)

theorem signatureSlot?_parameter :
    m.signatureSlot? limit (m.firstParameter + n) = some i ↔ m.Tells limit n i := by
  have hn : ¬ m.firstParameter + n < m.firstParameter := by omega
  rw [signatureSlot?, if_neg hn, Nat.add_sub_cancel_left, Option.bind_eq_some_iff]
  constructor
  · rintro ⟨js, hjs, hi⟩
    obtain ⟨is, hok, rfl, hl⟩ := signatureParameters?_eq_some_iff.1 hjs
    exact ⟨is, hok, hl, hi⟩
  · rintro ⟨is, hok, hl, hi⟩
    exact ⟨m.aligned is, signatureParameters?_eq_some_iff.2 ⟨is, hok, rfl, hl⟩, hi⟩

/-- The instruction for one slot, from its own shape and its own place in the signature. -/
theorem getElem?_instructions (limit : Nat) (m : Method) (n : Nat) :
    (m.instructions limit)[n]? = m.slotShapes[n]?.map fun shape =>
      (shape.verdict m.id.module).complete (m.signatureSlot? limit n) := by
  unfold instructions slotShapes signatureSlot? firstParameter isInstance
  cases m.receiver with
  | none => simp [List.getElem?_mapIdx, Function.comp_def]
  | some shape =>
    cases n with
    | zero => simp
    | succ n => simp [List.getElem?_mapIdx, Function.comp_def]

theorem slotShapes_parameter (m : Method) (n : Nat) :
    m.slotShapes[m.firstParameter + n]? = m.parameters[n]?.map (·.shape) := by
  unfold slotShapes firstParameter isInstance
  cases m.receiver with
  | none => simp
  | some shape => simp [Nat.add_comm 1 n]

theorem instructions_of_settled (hn : m.slotShapes[n]? = some shape)
    (hv : shape.verdict m.id.module = .settled i) : (m.instructions limit)[n]? = some i := by
  rw [getElem?_instructions, hn, Option.map_some, hv, Verdict.complete_settled]

/-- A deferred slot holds what the signature says of it. -/
theorem instructions_of_deferred (hn : m.slotShapes[n]? = some shape)
    (hv : shape.verdict m.id.module = .deferred) :
    (m.instructions limit)[n]? = some ((m.signatureSlot? limit n).getD .unsupported) := by
  rw [getElem?_instructions, hn, Option.map_some, hv, Verdict.complete_deferred]

theorem signatureSlot?_congr (hs : m'.signature = m.signature) (hi : m'.isInstance = m.isInstance)
    (hl : m'.parameters.length = m.parameters.length) :
    m'.signatureSlot? limit n = m.signatureSlot? limit n := by
  have hf : m'.firstParameter = m.firstParameter := by rw [firstParameter, firstParameter, hi]
  have hp : m'.signatureParameters? limit = m.signatureParameters? limit := by
    simp only [signatureParameters?, hasExplicitThis_eq, hs, hl]
  rw [signatureSlot?, signatureSlot?, hf, hp]

/-- A range in an instruction was read from the signature. -/
theorem exists_parameters_of_typeSpec {offset length : Nat}
    (h : .typeSpec offset length ∈ m.instructions limit) :
    ∃ is, Signature.parameters limit m.signature = .ok is ∧ .typeSpec offset length ∈ is := by
  obtain ⟨n, hn⟩ := List.mem_iff_getElem?.1 h
  rw [getElem?_instructions] at hn
  obtain ⟨shape, -, hc⟩ := Option.map_eq_some_iff.1 hn
  cases hv : shape.verdict m.id.module with
  | settled i =>
    rw [hv, Verdict.complete_settled] at hc
    rw [hc] at hv
    exact (shape.verdict_ne_typeSpec _ _ _ hv).elim
  | deferred =>
    rw [hv, Verdict.complete_deferred] at hc
    cases hs : m.signatureSlot? limit n with
    | none =>
      rw [hs] at hc
      cases hc
    | some i =>
      obtain rfl : i = .typeSpec offset length := by simpa [hs] using hc
      rw [signatureSlot?] at hs
      split at hs
      · cases hs
      · obtain ⟨js, hjs, hi⟩ := Option.bind_eq_some_iff.1 hs
        obtain ⟨is, hok, rfl, -⟩ := signatureParameters?_eq_some_iff.1 hjs
        refine ⟨is, hok, ?_⟩
        have hmem := List.mem_of_getElem? hi
        unfold aligned at hmem
        split at hmem
        · exact List.mem_of_mem_drop hmem
        · exact hmem

/-- The instructions of a method, slot by slot. -/
structure Classified (limit : Nat) (m : Method) : Prop where
  length : (m.instructions limit).length = m.firstParameter + m.parameters.length
  settled : ∀ (n : Nat) (shape : Shape) (i : Instruction), m.slotShapes[n]? = some shape →
    shape.verdict m.id.module = .settled i → (m.instructions limit)[n]? = some i
  receiver : ∀ shape : Shape, m.receiver = some shape → shape.verdict m.id.module = .deferred →
    (m.instructions limit)[0]? = some .unsupported
  /-- A deferred parameter takes what the signature says of it, if that can be captured. -/
  told : ∀ (n : Nat) (p : Parameter) (i : Instruction), m.parameters[n]? = some p →
    p.shape.verdict m.id.module = .deferred → m.Tells limit n i → i.isCapturable = true →
    (m.instructions limit)[m.firstParameter + n]? = some i
  untold : ∀ (n : Nat) (p : Parameter), m.parameters[n]? = some p →
    p.shape.verdict m.id.module = .deferred →
    (¬ ∃ i, m.Tells limit n i ∧ i.isCapturable = true) →
    (m.instructions limit)[m.firstParameter + n]? = some .unsupported
  /-- The signature never takes away what the shape alone allows to capture. -/
  upgrades : ∀ (n : Nat) (shape : Shape), m.slotShapes[n]? = some shape →
    (shape.verdict m.id.module).instruction.isCapturable = true →
    (m.instructions limit)[n]? = some (shape.verdict m.id.module).instruction
  /-- Another signature, whatever is wrong with it, makes no difference to a slot that is not
  deferred. -/
  signature : ∀ (signature : List UInt8) (n : Nat) (shape : Shape), m.slotShapes[n]? = some shape →
    (shape.verdict m.id.module).isDeferred = false →
    ({ m with signature := signature }.instructions limit)[n]? = (m.instructions limit)[n]?
  /-- The shapes of the other slots make no difference. -/
  siblings : ∀ m' : Method, m'.id.module = m.id.module → m'.signature = m.signature →
    m'.isInstance = m.isInstance → m'.parameters.length = m.parameters.length →
    ∀ n : Nat, m'.slotShapes[n]? = m.slotShapes[n]? →
      (m'.instructions limit)[n]? = (m.instructions limit)[n]?

/-- Shapes settle what they can; the signature is asked about deferred parameters alone. -/
theorem instructions_classified (limit : Nat) (m : Method) : m.Classified limit where
  length := by
    rw [length_instructions, length_slotShapes, firstParameter, isInstance]
    cases m.receiver <;> rfl
  settled n shape i hn hv := instructions_of_settled hn hv
  receiver shape hr hv := by
    have hn : m.slotShapes[0]? = some shape := by simp [slotShapes, hr]
    have hs : m.signatureSlot? limit 0 = none := by
      simp [signatureSlot?, firstParameter, isInstance, hr]
    rw [instructions_of_deferred hn hv, hs]
    rfl
  told n p i hp hv ht _ := by
    have hn : m.slotShapes[m.firstParameter + n]? = some p.shape := by
      rw [slotShapes_parameter, hp, Option.map_some]
    rw [instructions_of_deferred hn hv, signatureSlot?_parameter.2 ht]
    rfl
  untold n p hp hv hno := by
    have hn : m.slotShapes[m.firstParameter + n]? = some p.shape := by
      rw [slotShapes_parameter, hp, Option.map_some]
    rw [instructions_of_deferred hn hv]
    cases hs : m.signatureSlot? limit (m.firstParameter + n) with
    | none => rfl
    | some i =>
      have hi : i.isCapturable = false :=
        Bool.eq_false_iff.2 fun hi => hno ⟨i, signatureSlot?_parameter.1 hs, hi⟩
      rw [Option.getD_some, Instruction.isCapturable_eq_false.1 hi]
  upgrades n shape hn hc := by
    cases hv : shape.verdict m.id.module with
    | settled i => exact instructions_of_settled hn hv
    | deferred =>
      rw [hv] at hc
      cases hc
  signature signature n shape hn hd := by
    cases hv : shape.verdict m.id.module with
    | settled i =>
      rw [instructions_of_settled hn hv]
      exact instructions_of_settled (m := { m with signature := signature }) hn hv
    | deferred =>
      rw [hv] at hd
      cases hd
  siblings m' hid hs hi hl n hn := by
    rw [getElem?_instructions, getElem?_instructions, hn, hid, signatureSlot?_congr hs hi hl]

end Method

end MethodCapture
