import Skeg.Lib.LittleEndian

/-!
# Text and decimal integers in byte strings

`str::from_utf8`, the decimal integers of `str::parse` and the decimal text of an integer, as the parsers
of commands and stored values use them.
-/

namespace Skeg

def utf8 (s : String) : Bytes := s.toByteArray.data.toList

/-- `str::from_utf8`. -/
def fromUtf8 (b : Bytes) : Option String := String.fromUTF8? ⟨b.toArray⟩

/-- Parse a decimal `i64` as `str::parse` does: an optional sign and at least one digit. -/
def parseI64 (b : Bytes) : Option Int64 :=
  let (neg, digits) := match b with
    | 45 :: ds => (true, ds)
    | 43 :: ds => (false, ds)
    | ds => (false, ds)
  if digits.isEmpty || digits.any (fun d => d < 48 || 57 < d) then none
  else
    let n : Int := digits.foldl (fun n d => 10 * n + (d.toNat - 48)) 0
    let n := if neg then -n else n
    if -2 ^ 63 ≤ n ∧ n < 2 ^ 63 then some (Int64.ofInt n) else none

/-- Parse a decimal of an unsigned type with `bits` bits. -/
def parseUnsigned (bits : Nat) (b : Bytes) : Option Nat :=
  let digits := match b with
    | 43 :: ds => ds
    | ds => ds
  if digits.isEmpty || digits.any (fun d => d < 48 || 57 < d) then none
  else
    let n := digits.foldl (fun n d => 10 * n + (d.toNat - 48)) 0
    if n < 2 ^ bits then some n else none

/-- `str::to_ascii_uppercase`. -/
def toAsciiUppercase (s : String) : String := String.ofList (s.toList.map Char.toUpper)

def formatI64 (n : Int64) : Bytes :=
  let digits := (Nat.toDigits 10 n.toInt.natAbs).map fun c => UInt8.ofNat c.toNat
  if n < 0 then 45 :: digits else digits

def checkedAdd (a b : Int64) : Option Int64 :=
  let n := a.toInt + b.toInt
  if -2 ^ 63 ≤ n ∧ n < 2 ^ 63 then some (Int64.ofInt n) else none

def checkedNeg (a : Int64) : Option Int64 := if a = Int64.minValue then none else some (-a)

/-- `usize::to_string`. -/
def formatNat (n : Nat) : Bytes := (Nat.toDigits 10 n).map fun c => UInt8.ofNat c.toNat

end Skeg
