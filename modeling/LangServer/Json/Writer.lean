import LangServer.Value.Literal

/-!
# Writing JSON

`Layout` holds the decisions that differ between the documents written here: the separators, and
whether characters outside the ASCII range are escaped.
-/

namespace LangServer.Json

/-- How a document is laid out. -/
structure Layout where
  itemMark : String
  keyMark : String
  escapeWide : Bool

/-- One line, a blank after each comma and colon, everything outside ASCII escaped. -/
def Layout.spaced : Layout := ⟨", ", ": ", true⟩

/-- No blanks, every character as it is. -/
def Layout.compact : Layout := ⟨",", ":", false⟩

/-- A code point as one or two escaped units of sixteen bits. -/
def escapeCode (n : Nat) : List Char :=
  if n < 0x10000 then ['\\', 'u'] ++ Text.hex 4 n
  else
    let m := n - 0x10000
    ['\\', 'u'] ++ Text.hex 4 (0xD800 + m / 0x400) ++ ['\\', 'u'] ++ Text.hex 4 (0xDC00 + m % 0x400)

/-- One character of a JSON string. -/
def escapeChar (wide : Bool) (c : Char) : List Char :=
  if c = '"' then ['\\', '"']
  else if c = '\\' then ['\\', '\\']
  else if c = '\n' then ['\\', 'n']
  else if c = '\r' then ['\\', 'r']
  else if c = '\t' then ['\\', 't']
  else if c.toNat = 8 then ['\\', 'b']
  else if c.toNat = 12 then ['\\', 'f']
  else if c.toNat < 32 then escapeCode c.toNat
  else if wide && decide (127 ≤ c.toNat) then escapeCode c.toNat
  else [c]

def writeString (wide : Bool) (s : String) : List Char :=
  '"' :: (s.toList.flatMap (escapeChar wide) ++ ['"'])

/-- The text of a double in a document. -/
def writeDouble : Double → List Char
  | .infinite neg => (if neg then ['-'] else []) ++ "Infinity".toList
  | .nan => "NaN".toList
  | x => x.text

mutual

/-- A value as a JSON document. -/
def write (l : Layout) : Value → List Char
  | .null => "null".toList
  | .bool true => "true".toList
  | .bool false => "false".toList
  | .int n => (toString n).toList
  | .num x => writeDouble x
  | .str s => writeString l.escapeWide s
  | .list items => '[' :: (writeItems l items ++ [']'])
  | .object members => '{' :: (writeMembers l members ++ ['}'])

def writeItems (l : Layout) : List Value → List Char
  | [] => []
  | [v] => write l v
  | v :: rest => write l v ++ l.itemMark.toList ++ writeItems l rest

def writeMembers (l : Layout) : List (String × Value) → List Char
  | [] => []
  | [(k, v)] => writeString l.escapeWide k ++ l.keyMark.toList ++ write l v
  | (k, v) :: rest =>
    writeString l.escapeWide k ++ l.keyMark.toList ++ write l v ++ l.itemMark.toList ++
      writeMembers l rest

end

/-- The document of a value as a text. -/
def render (l : Layout) (v : Value) : String := String.ofList (write l v)

end LangServer.Json
