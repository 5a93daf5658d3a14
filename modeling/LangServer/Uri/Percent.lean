import LangServer.Text.Point
import LangServer.Text.Utf8

/-!
# Percent encoding

Every byte of a text's UTF-8 form that is not a letter, a digit, a slash or one of `_ . - ~` is
written as a percent sign and two hexadecimal digits; a text without a UTF-8 form cannot be encoded.
Decoding works on runs of ASCII characters: an escape that has no two hexadecimal digits stays as it
is, and bytes that are no UTF-8 are replaced.
-/

namespace LangServer.Uri

open Text (Point)

/-- The characters that stand for themselves. -/
def isPlain (c : Char) : Bool :=
  c.isAlphanum || c == '_' || c == '.' || c == '-' || c == '~' || c == '/'

/-- A hexadecimal digit in capitals. -/
def hexDigit (n : Nat) : Char := if n < 10 then Char.ofNat (48 + n) else Char.ofNat (55 + n)

/-- One byte as an escape. -/
def escape (b : Nat) : List Char := ['%', hexDigit (b / 16), hexDigit (b % 16)]

/-- The percent encoding of characters. -/
def quoteChars (s : List Char) : List Char :=
  s.flatMap fun c => if isPlain c then [c] else (Text.encodeCode c.toNat).flatMap escape

/-- The percent encoding of a text. -/
def quote (s : List Point) : Except Fault (List Char) := do
  return quoteChars (← Text.characters 0 s)

/-- The value of a hexadecimal digit of either case. -/
def hexValue? (c : Char) : Option Nat :=
  if '0' ≤ c ∧ c ≤ '9' then some (c.toNat - 48)
  else if 'A' ≤ c ∧ c ≤ 'F' then some (c.toNat - 55)
  else if 'a' ≤ c ∧ c ≤ 'f' then some (c.toNat - 87)
  else none

/-- The bytes of a run of ASCII characters, its escapes resolved. -/
def unescape : List Char → List Nat
  | [] => []
  | c :: rest =>
    match c, rest with
    | '%', a :: b :: more =>
      match hexValue? a, hexValue? b with
      | some x, some y => (16 * x + y) :: unescape more
      | _, _ => 37 :: unescape (a :: b :: more)
    | c, rest => c.toNat :: unescape rest

/-- Decodes a text; `run` holds the ASCII characters just passed, in reverse. -/
def unquoteFrom (run : List Char) : List Char → List Char
  | [] => Text.decode (unescape run.reverse)
  | c :: rest =>
    if c.toNat < 128 then unquoteFrom (c :: run) rest
    else Text.decode (unescape run.reverse) ++ c :: unquoteFrom [] rest

/-- The text of a percent encoding. -/
def unquote (s : List Char) : List Char := unquoteFrom [] s

end LangServer.Uri
