import LangServer.Text.Basic
import LangServer.Text.Digit
import LangServer.Text.Utf8

/-!
# Framing messages

On the wire every message has header lines, a blank line and a body. The first header line may give
the length of the body in bytes; if it does not, the body is all that follows.
-/

namespace LangServer.Rpc

/-- A list of bytes. -/
abbrev Bytes := List Nat

/-- What the header line with the length begins with. -/
def lengthMark : Bytes := Text.encode "Content-Length: ".toList

/-- A message on the wire. -/
def frame (body : Bytes) : Bytes :=
  lengthMark ++ Text.encode (toString body.length ++ "\r\n\r\n").toList ++ body

/-- The lines of some bytes, each with its line feed. -/
def byteLines : Bytes → List Bytes
  | [] => []
  | b :: rest =>
    if b = 10 then [b] :: byteLines rest
    else
      match byteLines rest with
      | [] => [[b]]
      | line :: more => (b :: line) :: more

/-- Blanks of the ASCII range. -/
def isBlankByte (b : Nat) : Bool := b == 32 || (9 ≤ b && b ≤ 13)

/-- Does one list of bytes occur in another? -/
def occursIn (part : Bytes) : Bytes → Bool
  | [] => part.isEmpty
  | b :: rest => part.isPrefixOf (b :: rest) || occursIn part rest

/-- The length that a header line gives: none if the line is malformed, and `some none` if it gives no
length. -/
def bodyLength? (line : Bytes) : Option (Option Int) :=
  if lengthMark.isPrefixOf line then
    let value := line.drop lengthMark.length
    let body := ((value.dropWhile isBlankByte).reverse.dropWhile isBlankByte).reverse
    if occursIn lengthMark value || body.any fun b => b ≤ 32 || 127 ≤ b then none
    else (Text.readInt (body.map Char.ofNat)).map some
  else some none

/-- What comes next on the wire. -/
inductive Reading where
  /-- Nothing more. -/
  | ended
  /-- A header line with a malformed length. -/
  | badLength (rest : Bytes)
  /-- A length that is too large to be read. -/
  | hugeLength
  | message (body rest : Bytes)
  deriving DecidableEq, Repr, Inhabited

/-- Can a length be read at all?  It has to fit into 64 bits with a sign. -/
def isReadable (length : Int) : Bool :=
  decide (-0x8000000000000000 ≤ length) && decide (length < 0x8000000000000000)

/-- Splits off a body. Without a length, or with a negative one, it is all there is. -/
def cutBody (length : Option Int) (bytes : Bytes) : Reading :=
  match length with
  | some n =>
    if !isReadable n then .hugeLength
    else if n < 0 then .message bytes [] else .message (bytes.take n.toNat) (bytes.drop n.toNat)
  | none => .message bytes []

/-- Reads the next message. -/
def readNext (input : Bytes) : Reading :=
  match byteLines input with
  | [] => .ended
  | line :: rest =>
    match bodyLength? line with
    | none => .badLength rest.flatten
    | some length =>
      match (line :: rest).dropWhile fun l => !l.all isBlankByte with
      | [] => .ended
      | _ :: body => cutBody length body.flatten

end LangServer.Rpc
