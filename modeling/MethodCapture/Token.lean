import MethodCapture.Text.Digits

/-!
Metadata tokens. A token names a row of a metadata table: the high byte is the table, the other
three bytes are the row.
-/

namespace MethodCapture

namespace Table

def typeRef : Nat := 0x01

def typeDef : Nat := 0x02

def methodDef : Nat := 0x06

def typeSpec : Nat := 0x1b

end Table

structure Token where
  value : UInt32
  deriving DecidableEq

namespace Token

/-- The number of rows a token can tell apart. -/
def rowBound : Nat := 0x1000000

/-- The token that names nothing. -/
def null : Token := ⟨0⟩

/-- Only the low three bytes of `row` are kept. -/
def ofRow (table row : Nat) : Token :=
  ⟨UInt32.ofNat (table * rowBound + row % rowBound)⟩

def table (t : Token) : Nat := t.value.toNat / rowBound

def row (t : Token) : Nat := t.value.toNat % rowBound

theorem table_ofRow {table : Nat} (h : table < 256) (row : Nat) :
    (ofRow table row).table = table := by
  simp only [ofRow, Token.table, rowBound, UInt32.toNat_ofNat']
  omega

theorem row_ofRow (table row : Nat) : (ofRow table row).row = row % rowBound := by
  simp only [ofRow, Token.row, rowBound, UInt32.toNat_ofNat']
  omega

theorem ofRow_mod (table row : Nat) : ofRow table (row % rowBound) = ofRow table row := by
  rw [ofRow, ofRow, Nat.mod_mod]

@[simp] theorem ofRow_table_row (t : Token) : ofRow t.table t.row = t := by
  have h := t.value.toNat_lt
  cases t
  simp only [ofRow, Token.table, Token.row, rowBound, mk.injEq] at *
  apply UInt32.toNat_inj.1
  simp only [UInt32.toNat_ofNat']
  omega

def text (t : Token) : String :=
  "0x" ++ Digits.paddedHex 8 t.value.toNat

def details (t : Token) : String :=
  "Token(" ++ t.text ++ ", table: 0x" ++ Digits.paddedHex 2 t.table ++ ", row: "
    ++ toString t.row ++ ")"

end Token

end MethodCapture
