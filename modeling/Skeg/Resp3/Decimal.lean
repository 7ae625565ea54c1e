import Skeg.Resp3.Frame
import Skeg.Core.Equiv.Text

/-!
# Decimal text of doubles

`decimalFloats` writes and reads doubles as the standard library does: the text is the shortest decimal
that reads back as the same double, the nearest of those of that length, without an exponent; reading
rounds to the nearest double, ties to even.
-/

namespace Skeg.Resp3

namespace F64

/-- The double nearest to `num / den`, which is not zero. -/
def ofRatio (negative : Bool) (num den : Nat) : F64 :=
  let e : Int := num.log2 - den.log2
  -- the exponent of the highest bit of the quotient
  let e := if den * 2 ^ e.toNat ≤ num * 2 ^ (-e).toNat then e else e - 1
  let biased : Nat := max (e + 1023) 1 |>.toNat
  let n := num * 2 ^ (1075 - biased)
  let d := den * 2 ^ (biased - 1075)
  let q := n / d
  let q := if d < 2 * (n % d) ∨ (2 * (n % d) = d ∧ q % 2 = 1) then q + 1 else q
  let (q, biased) := if q = 2 ^ 53 then (2 ^ 52, biased + 1) else (q, biased)
  if 2047 ≤ biased then infinite negative
  else if q < 2 ^ 52 then finite negative 0 (Fin.ofNat _ q)
  else finite negative (Fin.ofNat _ biased) (Fin.ofNat _ (q - 2 ^ 52))

/-- The size of a finite double as a ratio. -/
def toRatio (exponent : Fin 2047) (fraction : Fin (2 ^ 52)) : Nat × Nat :=
  let m := if exponent = 0 then fraction.val else 2 ^ 52 + fraction.val
  let e := max exponent.val 1
  (m * 2 ^ (e - 1075), 2 ^ (1075 - e))

end F64

/-! ### Reading -/

def digitsValue (cs : List Char) : Nat := cs.foldl (fun n c => 10 * n + (c.toNat - 48)) 0

/-- An optional sign. -/
def takeSign : List Char → Bool × List Char
  | '-' :: cs => (true, cs)
  | '+' :: cs => (false, cs)
  | cs => (false, cs)

/-- The exponent behind a number, if what is there is one. -/
def parseExponent : List Char → Option Int
  | [] => some 0
  | c :: cs =>
    let (negative, digits) := takeSign cs
    if (c = 'e' ∨ c = 'E') ∧ digits ≠ [] ∧ digits.all Char.isDigit then
      some (if negative then -digitsValue digits else digitsValue digits)
    else none

def parseDecimal (s : String) : Option F64 :=
  if '\r' ∈ s.toList ∨ '\n' ∈ s.toList then none
  else
    let (negative, cs) := takeSign s.toList
    let name := String.ofList (cs.map Char.toLower)
    if name = "inf" ∨ name = "infinity" then some (.infinite negative)
    else if name = "nan" then some .nan
    else
      let (whole, rest) := cs.span Char.isDigit
      let (part, rest) := match rest with
        | '.' :: rest => rest.span Char.isDigit
        | rest => ([], rest)
      if whole.isEmpty && part.isEmpty then none
      else
        (parseExponent rest).map fun (exponent : Int) =>
          let n := digitsValue (whole ++ part)
          let e : Int := exponent - part.length
          if n = 0 then .finite negative 0 0
          else if 400 < e then .infinite negative
          else if e + (whole ++ part).length < -400 then .finite negative 0 0
          else F64.ofRatio negative (n * 10 ^ e.toNat) (10 ^ (-e).toNat)

/-! ### Writing -/

/-- The power of ten of the first digit of `num / den`. -/
def leadingPower (num den : Nat) : Int :=
  if den ≤ num then (Nat.toDigits 10 (num / den)).length - 1
  else -(((List.range 400).find? fun j => den ≤ num * 10 ^ j).getD 0 : Nat)

/-- The decimal with `n` digits that reads back, as an integer and the digits behind the point. -/
def withDigits (d : F64) (num den n : Nat) : Option (Nat × Int) :=
  let p : Int := n - 1 - leadingPower num den
  let a := num * 10 ^ p.toNat
  let b := den * 10 ^ (-p).toNat
  let low := a / b
  let order := if 2 * (a % b) ≤ b then [low, low + 1] else [low + 1, low]
  (order.find? fun c => F64.ofRatio false (c * 10 ^ (-p).toNat) (10 ^ p.toNat) = d).map (·, p)

/-- An integer and a number of digits behind the point. -/
def layout (n : Nat) (p : Int) : List Char :=
  let digits := Nat.toDigits 10 n
  if p ≤ 0 then digits ++ List.replicate (-p).toNat '0'
  else
    let digits := List.replicate (p.toNat + 1 - digits.length) '0' ++ digits
    let whole := digits.take (digits.length - p.toNat)
    let part := (digits.drop (digits.length - p.toNat)).reverse.dropWhile (· = '0') |>.reverse
    if part.isEmpty then whole else whole ++ '.' :: part

def displayDecimal : F64 → String
  | .finite negative e m =>
    let text :=
      if e = 0 ∧ m = 0 then ['0']
      else
        let (num, den) := F64.toRatio e m
        match (List.range 17).findSome? fun n => withDigits (.finite false e m) num den (n + 1) with
        | some (n, p) => layout n p
        | none => []
    String.ofList (if negative then '-' :: text else text)
  | _ => ""

@[reducible] def decimalFloats : FloatText where
  display := displayDecimal
  parse := parseDecimal
  line_of_parse {s d} h := by
    unfold parseDecimal at h
    split_ifs at h with hbreak
    rw [not_or] at hbreak
    constructor
    · intro hmem
      obtain ⟨c, hc, hval⟩ := mem_utf8_ascii (by decide) hmem
      have hcr : c = '\r' := Char.toNat_inj.mp hval
      exact hbreak.1 (hcr ▸ hc)
    · intro hmem
      obtain ⟨c, hc, hval⟩ := mem_utf8_ascii (by decide) hmem
      have hlf : c = '\n' := Char.toNat_inj.mp hval
      exact hbreak.2 (hlf ▸ hc)

example : displayDecimal (.finite true 1022 0) = "-0.5" := by decide +kernel

example : parseDecimal "0.1" = some (.finite false 1019 0x999999999999a) := by decide +kernel

example : displayDecimal (.finite false 1099 0x52d02c7e14af6) = "100000000000000000000000" := by
  decide +kernel

end Skeg.Resp3
