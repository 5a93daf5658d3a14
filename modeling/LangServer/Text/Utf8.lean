/-!
# UTF-8

`encode` gives the bytes of a text. `decode` reads bytes; a longest run of bytes that begins a
character and cannot be completed becomes one replacement character, and so does every byte that
begins none.
-/

namespace LangServer.Text

/-- The bytes of one code point. -/
def encodeCode (n : Nat) : List Nat :=
  if n < 0x80 then [n]
  else if n < 0x800 then [0xC0 + n / 0x40, 0x80 + n % 0x40]
  else if n < 0x10000 then [0xE0 + n / 0x1000, 0x80 + n / 0x40 % 0x40, 0x80 + n % 0x40]
  else
    [0xF0 + n / 0x40000, 0x80 + n / 0x1000 % 0x40, 0x80 + n / 0x40 % 0x40, 0x80 + n % 0x40]

/-- The bytes of a text. -/
def encode (s : List Char) : List Nat := s.flatMap fun c => encodeCode c.toNat

/-- What stands for bytes that are no character. -/
def replacement : Char := Char.ofNat 0xFFFD

/-- For the first byte of a character of several bytes: its share of the code point, the least and
the greatest second byte, and how many bytes follow. -/
def opening? (b : Nat) : Option (Nat × Nat × Nat × Nat) :=
  if 0xC2 ≤ b ∧ b ≤ 0xDF then some (b - 0xC0, 0x80, 0xBF, 1)
  else if b = 0xE0 then some (0, 0xA0, 0xBF, 2)
  else if b = 0xED then some (0xD, 0x80, 0x9F, 2)
  else if 0xE1 ≤ b ∧ b ≤ 0xEF then some (b - 0xE0, 0x80, 0xBF, 2)
  else if b = 0xF0 then some (0, 0x90, 0xBF, 3)
  else if 0xF1 ≤ b ∧ b ≤ 0xF3 then some (b - 0xF0, 0x80, 0xBF, 3)
  else if b = 0xF4 then some (4, 0x80, 0x8F, 3)
  else none

/-- Where a decoder stands: between characters, or inside one with the code point so far, the bounds
of the next byte and how many bytes are still owed. -/
inductive Decoder where
  | start
  | inside (code low high owed : Nat)
  deriving DecidableEq, Repr, Inhabited

/-- The state after a byte that begins a character, and what the byte gives at once. -/
def begin (b : Nat) : Decoder × List Char :=
  if b < 0x80 then (.start, [Char.ofNat b])
  else
    match opening? b with
    | some (code, low, high, owed) => (.inside code low high owed, [])
    | none => (.start, [replacement])

/-- The state after a byte, and the characters it completes. -/
def Decoder.next (d : Decoder) (b : Nat) : Decoder × List Char :=
  match d with
  | start => begin b
  | inside code low high owed =>
    if low ≤ b ∧ b ≤ high then
      let code := code * 0x40 + (b - 0x80)
      if owed = 1 then (.start, [Char.ofNat code]) else (.inside code 0x80 0xBF (owed - 1), [])
    else
      let (d, out) := begin b
      (d, replacement :: out)

/-- The characters of the remaining bytes; an unfinished character at the end is replaced. -/
def Decoder.run : Decoder → List Nat → List Char
  | start, [] => []
  | inside .., [] => [replacement]
  | d, b :: rest =>
    let (d, out) := d.next b
    out ++ d.run rest

/-- The text of a list of bytes. -/
def decode (bytes : List Nat) : List Char := Decoder.start.run bytes

/-- The text of a list of bytes, if all of them make characters. -/
def decode? (bytes : List Nat) : Option (List Char) :=
  let s := decode bytes
  if encode s = bytes then some s else none

end LangServer.Text
