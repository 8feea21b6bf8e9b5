import MethodCapture.Signature.Fault
import MethodCapture.Token

/-!
A cursor over the bytes of a signature. A reader that fails leaves the cursor where the failing read
stopped: bytes taken before the failure stay taken. Numbers are stored in one, two or four bytes,
and the first byte tells how many; a token is a number whose low two bits choose the table.
-/

namespace MethodCapture.Signature

structure Cursor where
  position : Nat
  rest : List UInt8
  deriving DecidableEq

namespace Cursor

def ofBytes (bytes : List UInt8) : Cursor := ⟨0, bytes⟩

/-- The number of bytes in all, those already passed included. -/
def size (c : Cursor) : Nat := c.position + c.rest.length

@[simp] theorem size_ofBytes (bytes : List UInt8) : (ofBytes bytes).size = bytes.length := by
  simp [ofBytes, size]

end Cursor

abbrev Reader := EStateM Fault Cursor

namespace Reader

def position : Reader Nat := fun c => .ok c.position c

def size : Reader Nat := fun c => .ok c.size c

def hasMore : Reader Bool := fun c => .ok (!c.rest.isEmpty) c

def isEmpty : Reader Bool := fun c => .ok (c.size == 0) c

def peek : Reader UInt8
  | ⟨p, []⟩ => .error .outOfBounds ⟨p, []⟩
  | ⟨p, b :: bs⟩ => .ok b ⟨p, b :: bs⟩

def byte : Reader UInt8
  | ⟨p, []⟩ => .error .outOfBounds ⟨p, []⟩
  | ⟨p, b :: bs⟩ => .ok b ⟨p + 1, bs⟩

def skip : Reader Unit := do
  let _ ← byte

def malformed {α : Type} (flaw : Flaw) : Reader α := throw (.malformed flaw)

/-- One byte below 0x80; two below 0xc0, with six bits in the first; four below 0xe0, with five bits
in the first. -/
def integer : Reader Nat := do
  let b ← byte
  if b < 0x80 then
    return b.toNat
  else if b < 0xc0 then
    let c ← byte
    return b.toNat % 64 * 256 + c.toNat
  else if b < 0xe0 then
    let c ← byte
    let d ← byte
    let e ← byte
    return b.toNat % 32 * 16777216 + c.toNat * 65536 + d.toNat * 256 + e.toNat
  else
    malformed (.integerLead b)

def tokenTable? (value : Nat) : Option Nat :=
  match value % 4 with
  | 0 => some Table.typeDef
  | 1 => some Table.typeRef
  | 2 => some Table.typeSpec
  | _ => none

def token : Reader Token := do
  let value ← integer
  match tokenTable? value with
  | some table => return Token.ofRow table (value / 4)
  | none => malformed (.tokenTag value)

/-- Every success leaves fewer bytes to read. -/
def Advances {α : Type} (r : Reader α) : Prop :=
  ∀ c a c', r c = .ok a c' → c'.rest.length < c.rest.length

/-- No success leaves more bytes to read. -/
def Keeps {α : Type} (r : Reader α) : Prop :=
  ∀ c a c', r c = .ok a c' → c'.rest.length ≤ c.rest.length

theorem Advances.keeps {α : Type} {r : Reader α} (h : Advances r) : Keeps r :=
  fun c a c' e => Nat.le_of_lt (h c a c' e)

theorem bind_eq_ok {α β : Type} {r : Reader α} {f : α → Reader β} {c c' : Cursor} {b : β} :
    (r >>= f) c = .ok b c' ↔ ∃ a c₁, r c = .ok a c₁ ∧ f a c₁ = .ok b c' := by
  simp only [bind, EStateM.bind]
  cases r c <;> simp [and_assoc]

theorem keeps_pure {α : Type} (a : α) : Keeps (pure a) := by
  intro c x c' h
  cases h
  exact Nat.le_refl _

theorem Keeps.bind {α β : Type} {r : Reader α} {f : α → Reader β} (hr : Keeps r)
    (hf : ∀ a, Keeps (f a)) : Keeps (r >>= f) := by
  intro c b c' h
  obtain ⟨a, c₁, h₁, h₂⟩ := bind_eq_ok.1 h
  exact Nat.le_trans (hf a _ _ _ h₂) (hr _ _ _ h₁)

theorem Advances.bind {α β : Type} {r : Reader α} {f : α → Reader β} (hr : Advances r)
    (hf : ∀ a, Keeps (f a)) : Advances (r >>= f) := by
  intro c b c' h
  obtain ⟨a, c₁, h₁, h₂⟩ := bind_eq_ok.1 h
  exact Nat.lt_of_le_of_lt (hf a _ _ _ h₂) (hr _ _ _ h₁)

theorem keeps_malformed {α : Type} (flaw : Flaw) : Keeps (malformed (α := α) flaw) := by
  intro c a c' h
  cases h

theorem byte_advances : Advances byte := by
  rintro ⟨p, _ | ⟨b, bs⟩⟩ a c' h
  · cases h
  · cases h
    simp

theorem integer_advances : Advances integer := by
  refine byte_advances.bind fun b => ?_
  have hb : Keeps byte := byte_advances.keeps
  split
  · exact keeps_pure _
  split
  · exact hb.bind fun _ => keeps_pure _
  split
  · exact hb.bind fun _ => hb.bind fun _ => hb.bind fun _ => keeps_pure _
  · exact keeps_malformed _

theorem token_advances : Advances token := by
  refine integer_advances.bind fun value => ?_
  split
  · exact keeps_pure _
  · exact keeps_malformed _

end Reader

/-- What can be asked of a cursor, one step at a time. -/
inductive Query where
  | byte
  | peek
  | skip
  | integer
  | token
  | size
  | isEmpty
  | hasMore
  deriving DecidableEq

inductive Answer where
  | number (n : Nat)
  | flag (b : Bool)
  | token (t : Token)
  | done
  deriving DecidableEq

def Query.read : Query → Reader Answer
  | byte => return .number (← Reader.byte).toNat
  | peek => return .number (← Reader.peek).toNat
  | skip => do
    Reader.skip
    return .done
  | integer => return .number (← Reader.integer)
  | token => return .token (← Reader.token)
  | size => return .number (← Reader.size)
  | isEmpty => return .flag (← Reader.isEmpty)
  | hasMore => return .flag (← Reader.hasMore)

/-- A step's answer and the cursor after it. -/
def Query.step (q : Query) (c : Cursor) : Except Fault Answer × Cursor :=
  match q.read c with
  | .ok a c' => (.ok a, c')
  | .error e c' => (.error e, c')

/-- Runs the queries in order; a failing step does not end the run. -/
def Query.run : List Query → Cursor → List (Except Fault Answer × Cursor)
  | [], _ => []
  | q :: qs, c => q.step c :: Query.run qs (q.step c).2

end MethodCapture.Signature
