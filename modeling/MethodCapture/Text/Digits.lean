/-!
Digits in a fixed base. Numbers are written with a fixed number of digits or, in hexadecimal, with
as many as they need; hexadecimal digits are read in either case. `scaled` writes a decimal fraction
exactly and without trailing zeros.
-/

namespace MethodCapture.Digits

/-- The last `width` digits of `n` in `base`, the most significant first. -/
def last (base : Nat) : (width n : Nat) → List Nat
  | 0, _ => []
  | width + 1, n => last base width (n / base) ++ [n % base]

/-- What is left of `n` without its last `width` digits. -/
def without (base : Nat) : (width n : Nat) → Nat
  | 0, n => n
  | width + 1, n => without base width (n / base)

/-- The number with the given digits, the most significant first. -/
def value (base : Nat) (ds : List Nat) : Nat :=
  ds.foldl (fun n d => n * base + d) 0

def fixed (base width n : Nat) : List Char :=
  (last base width n).map Nat.digitChar

def hex (n : Nat) : String :=
  String.ofList (Nat.toDigits 16 n)

def paddedHex (width n : Nat) : String :=
  String.ofList (fixed 16 width n)

/-- The value of a hexadecimal digit; only the ASCII digits and letters count. -/
def hexValue? (c : Char) : Option Nat :=
  if '0' ≤ c ∧ c ≤ '9' then some (c.toNat - 48)
  else if 'a' ≤ c ∧ c ≤ 'f' then some (c.toNat - 87)
  else if 'A' ≤ c ∧ c ≤ 'F' then some (c.toNat - 55)
  else none

def hexValues? (cs : List Char) : Option (List Nat) :=
  cs.mapM hexValue?

def ofHex? (cs : List Char) : Option Nat :=
  (hexValues? cs).map (value 16)

def bytesHex (bs : List UInt8) : String :=
  String.ofList (bs.flatMap fun b => fixed 16 2 b.toNat)

/-- Two hexadecimal digits for each byte. -/
def hexBytes? : List Char → Option (List UInt8)
  | [] => some []
  | [_] => none
  | hi :: lo :: rest => do
    let h ← hexValue? hi
    let l ← hexValue? lo
    let bs ← hexBytes? rest
    return UInt8.ofNat (16 * h + l) :: bs

/-- The decimal number with the digits of `n`, the last `places` of them behind the point; zeros at
the end are left out. -/
def scaled (places n : Nat) : String :=
  let decimals := ((fixed 10 places n).reverse.dropWhile (· == '0')).reverse
  let whole := toString (without 10 places n)
  if decimals.isEmpty then whole else whole ++ "." ++ String.ofList decimals

end MethodCapture.Digits
