import LangServer.Text.Blank

/-!
# Decimal digits of all scripts, and whole numbers

Every script's decimal digits are ten consecutive code points, so the table lists the zeros, of
version 14 of the Unicode character database. `readInt` reads a signed whole number from a text; it
refuses one of too many digits (`digitLimit`).
-/

namespace LangServer.Text

/-- The zeros of the scripts above the ASCII range. -/
def scriptZeros : List Nat := [
  1632, 1776, 1984, 2406, 2534, 2662, 2790, 2918, 3046, 3174, 3302, 3430, 3558, 3664, 3792, 3872,
  4160, 4240, 6112, 6160, 6470, 6608, 6784, 6800, 6992, 7088, 7232, 7248, 42528, 43216, 43264,
  43472, 43504, 43600, 44016, 65296, 66720, 68912, 69734, 69872, 69942, 70096, 70384, 70736, 70864,
  71248, 71360, 71472, 71904, 72016, 72784, 73040, 73120, 92768, 92864, 93008, 120782, 120792,
  120802, 120812, 120822, 123200, 123632, 125264, 130032]

/-- The value of a decimal digit of any script. -/
def digitValue? (c : Char) : Option Nat :=
  if '0' ≤ c ∧ c ≤ '9' then some (c.toNat - 48)
  else
    match scriptZeros.find? fun z => decide (z ≤ c.toNat) && decide (c.toNat < z + 10) with
    | some z => some (c.toNat - z)
    | none => none

/-- Is the character a decimal digit of some script? -/
def isDigit (c : Char) : Bool :=
  (digitValue? c).isSome

/-- The digits of a numeral, most significant first, with single underscores allowed between
them; `fresh` says that a digit has to come next. -/
def readDigits (fresh : Bool) (acc : Nat) : List Char → Option Nat
  | [] => if fresh then none else some acc
  | c :: rest =>
    if c = '_' then if fresh then none else readDigits true acc rest
    else
      match digitValue? c with
      | some d => readDigits false (10 * acc + d) rest
      | none => none

/-- Blanks that may stand around a number: all but the information separators. -/
def isNumberBlank (c : Char) : Bool := isBlank c && !(28 ≤ c.toNat && c.toNat ≤ 31)

/-- How many digits a number may have. -/
def digitLimit : Nat := 4300

/-- A number without blanks around it, as its sign and the rest; `true` is a minus sign. -/
def splitSign (s : List Char) : Bool × List Char :=
  match dropEndWhile isNumberBlank (s.dropWhile isNumberBlank) with
  | '-' :: rest => (true, rest)
  | '+' :: rest => (false, rest)
  | rest => (false, rest)

/-- The number of digits that a text begins with, if they are too many for a number. -/
def overlong? (s : List Char) : Option Nat :=
  let digits := (splitSign s).2.takeWhile fun c => isDigit c || c == '_'
  let count := (digits.filter (· != '_')).length
  if digitLimit < count && (readDigits true 0 digits).isSome then some count else none

/-- A whole number in decimal, with an optional sign, and blanks around it. -/
def readInt (s : List Char) : Option Int :=
  if (overlong? s).isSome then none
  else
    let (neg, digits) := splitSign s
    (readDigits true 0 digits).map fun n => if neg then -(n : Int) else n

end LangServer.Text
