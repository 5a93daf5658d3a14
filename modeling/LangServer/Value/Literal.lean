import LangServer.Value.Basic
import LangServer.Text.Printable

/-!
# Literal text of values

How values read in error messages and in generated documents. A quoted text stands between single
quotes, or between double quotes when it holds a single quote and no double one; what is not
printable is written as an escape.
-/

namespace LangServer

namespace Text

/-- The last `width` hexadecimal digits of a number. -/
def hex (width n : Nat) : List Char :=
  let digits := Nat.toDigits 16 n
  List.replicate (width - digits.length) '0' ++ digits

/-- One character of a quoted text. -/
def quoteChar (quote c : Char) : List Char :=
  if c = quote ∨ c = '\\' then ['\\', c]
  else if c = '\n' then ['\\', 'n']
  else if c = '\r' then ['\\', 'r']
  else if c = '\t' then ['\\', 't']
  else if isPrintable c then [c]
  else if c.toNat < 0x100 then ['\\', 'x'] ++ hex 2 c.toNat
  else if c.toNat < 0x10000 then ['\\', 'u'] ++ hex 4 c.toNat
  else ['\\', 'U'] ++ hex 8 c.toNat

/-- The quoted form of a text. -/
def quoted (s : List Char) : List Char :=
  let quote := if s.contains '\'' && !s.contains '"' then '"' else '\''
  quote :: (s.flatMap (quoteChar quote) ++ [quote])

/-- The quoted form of a text, as a text. -/
def quote (s : String) : String := String.ofList (quoted s.toList)

end Text

namespace Value

mutual

/-- The literal of a value. -/
def literal : Value → List Char
  | null => "None".toList
  | bool true => "True".toList
  | bool false => "False".toList
  | int n => (toString n).toList
  | num x => x.text
  | str s => Text.quoted s.toList
  | list items => '[' :: (literalItems items ++ [']'])
  | object members => '{' :: (literalMembers members ++ ['}'])

def literalItems : List Value → List Char
  | [] => []
  | [v] => literal v
  | v :: rest => literal v ++ ", ".toList ++ literalItems rest

def literalMembers : List (String × Value) → List Char
  | [] => []
  | [(k, v)] => Text.quoted k.toList ++ ": ".toList ++ literal v
  | (k, v) :: rest =>
    Text.quoted k.toList ++ ": ".toList ++ literal v ++ ", ".toList ++ literalMembers rest

end

/-- A value set into a sentence: a text as it is, everything else as its literal. -/
def display : Value → String
  | str s => s
  | v => String.ofList (literal v)

end Value
end LangServer
