import MethodCapture.Text.Digits

/-!
Request ids. An id is sixteen bytes. Its text is grouped 4-2-2-2-6, and the first three groups are
written with their bytes reversed, as numbers stored lowest byte first are.
-/

namespace MethodCapture

/-- The number whose sixteen bytes, the highest first, are the bytes of the id. -/
structure RequestId where
  value : BitVec 128
  deriving DecidableEq

namespace RequestId

def ofNat (n : Nat) : RequestId := ⟨BitVec.ofNat 128 n⟩

def ofBytes (bytes : List UInt8) : RequestId :=
  ofNat (Digits.value 256 (bytes.map UInt8.toNat))

def bytes (id : RequestId) : List UInt8 :=
  (Digits.last 256 16 id.value.toNat).map UInt8.ofNat

/-- Reverses the bytes of the first three groups. -/
def reorder {α : Type} (bs : List α) : List α :=
  (bs.take 4).reverse ++ ((bs.drop 4).take 2).reverse ++ ((bs.drop 6).take 2).reverse ++ bs.drop 8

def text (id : RequestId) : String :=
  let hex (bs : List UInt8) := Digits.bytesHex bs
  let bs := reorder id.bytes
  hex (bs.take 4) ++ "-" ++ hex ((bs.drop 4).take 2) ++ "-" ++ hex ((bs.drop 6).take 2) ++ "-"
    ++ hex ((bs.drop 8).take 2) ++ "-" ++ hex (bs.drop 10)

def details (id : RequestId) : String :=
  "RequestId(" ++ id.text ++ ")"

/-- Where the text has a hyphen. -/
def hyphens : List Nat := [8, 13, 18, 23]

/-- Reads the text of an id; hexadecimal letters may have either case. -/
def ofText? (s : String) : Option RequestId :=
  let cs := s.toList
  if cs.length = 36 ∧ hyphens.all (fun n => cs[n]? == some '-') then
    let digits := cs.take 8 ++ (cs.drop 9).take 4 ++ (cs.drop 14).take 4 ++ (cs.drop 19).take 4
      ++ cs.drop 24
    (Digits.hexBytes? digits).map fun bs => ofBytes (reorder bs)
  else none

end RequestId

end MethodCapture
