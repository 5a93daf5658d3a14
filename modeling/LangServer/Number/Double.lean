/-!
# Double precision numbers

A finite double is a sign, a mantissa below `2 ^ 53` and a power of two, so all arithmetic here is on
whole numbers. `ofDecimal` rounds a decimal to the nearest double, ties to the even mantissa.
`shortest` gives the fewest significant digits that read back as the number.
-/

namespace LangServer

/-- A double: `finite neg m e` stands for `m * 2 ^ e`, negated when `neg` holds. -/
inductive Double where
  | finite (neg : Bool) (mantissa : Nat) (exponent : Int)
  | infinite (neg : Bool)
  | nan
  deriving DecidableEq, Repr, Inhabited

namespace Double

/-- The exponent of the smallest positive double. -/
def leastExponent : Int := -1074

/-- The quotient `num / den` rounded to a whole number, a half going to the even neighbour. -/
def roundDiv (num den : Nat) : Nat :=
  let q := num / den
  let r := num % den
  if 2 * r < den then q
  else if den < 2 * r then q + 1
  else if q % 2 = 0 then q else q + 1

/-- A fraction `num * 2 ^ k / den` as numerator and denominator. -/
def scale (num den : Nat) (k : Int) : Nat × Nat :=
  if 0 ≤ k then (num * Nat.pow 2 k.toNat, den) else (num, den * Nat.pow 2 (-k).toNat)

/-- The double nearest to the positive fraction `num / den`. -/
def ofFraction (neg : Bool) (num den : Nat) : Double :=
  if num = 0 then .finite neg 0 0
  else
    let guess : Int := (num.log2 : Int) - (den.log2 : Int)
    let (n, d) := scale num den (-guess)
    -- the binary exponent: `2 ^ top ≤ num / den < 2 ^ (top + 1)`
    let top := if n < d then guess - 1 else guess
    let e := max (top - 52) leastExponent
    let (n, d) := scale num den (-e)
    let m := roundDiv n d
    let (m, e) := if m = Nat.pow 2 53 then (Nat.pow 2 52, e + 1) else (m, e)
    if 971 < e then .infinite neg else .finite neg m e

/-- The double nearest to `digits * 10 ^ power`. -/
def ofDecimal (neg : Bool) (digits : Nat) (power : Int) : Double :=
  if digits = 0 then .finite neg 0 0
  else if 400 < power + ((Nat.toDigits 10 digits).length : Int) then .infinite neg
  else if power + ((Nat.toDigits 10 digits).length : Int) < -400 then .finite neg 0 0
  else if 0 ≤ power then ofFraction neg (digits * Nat.pow 10 power.toNat) 1
  else ofFraction neg digits (Nat.pow 10 (-power).toNat)

/-! ## Shortest digits -/

/-- The decimal exponent of a positive fraction: the least `k` with `num / den < 10 ^ k`, found by
counting down from an upper bound. -/
def decimalPoint (num den : Nat) : Nat → Int → Int
  | 0, k => k
  | fuel + 1, k =>
    let fits : Bool :=
      if 0 ≤ k - 1 then decide (num < den * Nat.pow 10 (k - 1).toNat)
      else decide (num * Nat.pow 10 (1 - k).toNat < den)
    if fits then decimalPoint num den fuel (k - 1) else k

/-- Tries `n` significant digits: of the two neighbours of the value on that decimal grid, the nearer
one that reads back as `x`, as its digits and the power of ten of the last one. -/
def tryDigits (x : Double) (num den : Nat) (point : Int) (n : Nat) : Option (Nat × Int) :=
  let power : Int := point - n
  let (num, den) :=
    if 0 ≤ power then (num, den * Nat.pow 10 power.toNat) else (num * Nat.pow 10 (-power).toNat, den)
  let near := roundDiv num den
  let far := if near = num / den then near + 1 else num / den
  [near, far].findSome? fun digits =>
    if ofDecimal false digits power = x then some (digits, power) else none

/-- The fewest significant digits that read back, with the power of ten of the last one. -/
def shortest (mantissa : Nat) (exponent : Int) : Nat × Int :=
  let (num, den) := scale mantissa 1 exponent
  let bound : Int := ((Nat.toDigits 10 (num / den)).length : Int) + 1
  let point := decimalPoint num den 400 bound
  ((List.range 17).findSome? fun i =>
    tryDigits (.finite false mantissa exponent) num den point (i + 1)).getD (mantissa, 0)

/-- A double that is a whole number, as one. -/
def toInt? : Double → Option Int
  | .finite neg m e =>
    let size : Option Nat :=
      if 0 ≤ e then some (m * Nat.pow 2 e.toNat)
      else if m % Nat.pow 2 (-e).toNat = 0 then some (m / Nat.pow 2 (-e).toNat) else none
    size.map fun n => if neg then -(n : Int) else (n : Int)
  | _ => none

/-- Is the double greater than a whole number? -/
def exceeds (x : Double) (n : Int) : Bool :=
  match x with
  | .finite neg m e =>
    let m : Int := if neg then -m else m
    if 0 ≤ e then decide (n < m * Nat.pow 2 e.toNat) else decide (n * Nat.pow 2 (-e).toNat < m)
  | .infinite neg => !neg
  | .nan => false

/-! ## Text -/

/-- The digits without zeros at the end, and the power of ten of the last one left. -/
def dropZeros (digits : Nat) (power : Int) : Nat → Nat × Int
  | 0 => (digits, power)
  | fuel + 1 =>
    if digits ≠ 0 ∧ digits % 10 = 0 then dropZeros (digits / 10) (power + 1) fuel
    else (digits, power)

/-- Positional when the decimal point lies at most sixteen digits to the right of the first digit
and at most three zeros to the left of it; otherwise with an exponent of at least two digits. -/
def positive (mantissa : Nat) (exponent : Int) : List Char :=
  if mantissa = 0 then "0.0".toList
  else
    let (digits, power) := shortest mantissa exponent
    let (digits, power) := dropZeros digits power 20
    let ds := Nat.toDigits 10 digits
    let point : Int := ds.length + power
    if -4 < point ∧ point ≤ 16 then
      if point ≤ 0 then "0.".toList ++ List.replicate (-point).toNat '0' ++ ds
      else if point < ds.length then
        ds.take point.toNat ++ ['.'] ++ ds.drop point.toNat
      else ds ++ List.replicate (point.toNat - ds.length) '0' ++ ".0".toList
    else
      let exp := point - 1
      let mark := if exp < 0 then ['e', '-'] else ['e', '+']
      let size := Nat.toDigits 10 exp.natAbs
      let size := if size.length < 2 then '0' :: size else size
      let body :=
        match ds with
        | [d] => [d]
        | d :: rest => d :: '.' :: rest
        | [] => []
      body ++ mark ++ size

/-- The text of a double. -/
def text : Double → List Char
  | .finite neg m e => (if neg then ['-'] else []) ++ positive m e
  | .infinite neg => (if neg then ['-'] else []) ++ "inf".toList
  | .nan => "nan".toList

end Double
end LangServer
