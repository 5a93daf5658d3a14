import LangServer.Json.Limits

/-!
# Reading JSON

`parse?` reads one document with blanks around it. A key that is repeated keeps its first place and
its last value. A number with a fraction or an exponent is read as the nearest double, and the three
names for numbers that are not finite are accepted.

`Dialect` holds the decisions that differ between the documents read here. In the strict dialect
whole numbers have no size limit. In the dialect of messages, strings may hold control characters,
numbers may begin with zeros or have no digits after their sign, and the limits of messages hold.
-/

namespace LangServer.Json

/-- How a document is read. -/
structure Dialect where
  /-- May strings hold control characters?  The null character never can be in one. -/
  takesControls : Bool
  /-- May digits be superfluous or missing in numbers, and are whole numbers words of 64 bits? -/
  takesLooseNumbers : Bool
  /-- How many levels a document may be nested, if there is a limit. -/
  deepest : Option Nat
  deriving DecidableEq, Repr, Inhabited

/-- Documents that keep to the standard. -/
def Dialect.strict : Dialect := ⟨false, false, none⟩

/-- Messages of clients, and what other programs report. -/
def Dialect.message : Dialect := ⟨true, true, some Json.deepest⟩

/-- The four blanks of JSON. -/
def isSpace (c : Char) : Bool := c == ' ' || c == '\t' || c == '\n' || c == '\r'

def skipSpace (s : List Char) : List Char := s.dropWhile isSpace

/-- What remains after a literal word. -/
def word? (w : String) (s : List Char) : Option (List Char) :=
  if w.toList.isPrefixOf s then some (s.drop w.length) else none

def hexValue? (c : Char) : Option Nat :=
  if '0' ≤ c ∧ c ≤ '9' then some (c.toNat - 48)
  else if 'a' ≤ c ∧ c ≤ 'f' then some (c.toNat - 87)
  else if 'A' ≤ c ∧ c ≤ 'F' then some (c.toNat - 55)
  else none

/-- Four hexadecimal digits. -/
def unit? : List Char → Option (Nat × List Char)
  | a :: b :: c :: d :: rest => do
    let a ← hexValue? a
    let b ← hexValue? b
    let c ← hexValue? c
    let d ← hexValue? d
    return (((a * 16 + b) * 16 + c) * 16 + d, rest)
  | _ => none

/-- The character of an escaped unit; a high and a low half that follow each other make one. -/
def escaped? (s : List Char) : Option (Char × List Char) := do
  let (high, rest) ← unit? s
  if 0xD800 ≤ high ∧ high < 0xDC00 then
    match rest with
    | '\\' :: 'u' :: more =>
      match unit? more with
      | some (low, more) =>
        if 0xDC00 ≤ low ∧ low < 0xE000 then
          return (Char.ofNat (0x10000 + (high - 0xD800) * 0x400 + (low - 0xDC00)), more)
        else return (Char.ofNat 0xFFFD, rest)
      | none => return (Char.ofNat 0xFFFD, rest)
    | _ => return (Char.ofNat 0xFFFD, rest)
  else if 0xDC00 ≤ high ∧ high < 0xE000 then return (Char.ofNat 0xFFFD, rest)
  else return (Char.ofNat high, rest)

/-- Can a character stand in a string as it is? -/
def Dialect.takes (d : Dialect) (c : Char) : Bool :=
  32 ≤ c.toNat || (d.takesControls && c.toNat != 0)

/-- The rest of a string after its opening quote. -/
def string? (d : Dialect) : Nat → List Char → List Char → Option (String × List Char)
  | 0, _, _ => none
  | _, _, [] => none
  | fuel + 1, acc, c :: rest =>
    if c = '"' then some (String.ofList acc.reverse, rest)
    else if c = '\\' then
      match rest with
      | '"' :: more => string? d fuel ('"' :: acc) more
      | '\\' :: more => string? d fuel ('\\' :: acc) more
      | '/' :: more => string? d fuel ('/' :: acc) more
      | 'b' :: more => string? d fuel (Char.ofNat 8 :: acc) more
      | 'f' :: more => string? d fuel (Char.ofNat 12 :: acc) more
      | 'n' :: more => string? d fuel ('\n' :: acc) more
      | 'r' :: more => string? d fuel ('\r' :: acc) more
      | 't' :: more => string? d fuel ('\t' :: acc) more
      | 'u' :: more =>
        match escaped? more with
        | some (c, more) => string? d fuel (c :: acc) more
        | none => none
      | _ => none
    else if d.takes c then string? d fuel (c :: acc) rest
    else none

/-- The value of a run of ASCII digits. -/
def digitsValue (ds : List Char) : Nat := ds.foldl (fun n c => 10 * n + (c.toNat - 48)) 0

/-- A fraction part: its digits, none if there is no such part. -/
def fraction (s : List Char) : List Char × List Char :=
  match s with
  | '.' :: rest =>
    let ds := rest.takeWhile Char.isDigit
    if ds.isEmpty then ([], s) else (ds, rest.dropWhile Char.isDigit)
  | _ => ([], s)

/-- An exponent part, if there is one. -/
def exponent? (s : List Char) : Option (Int × List Char) :=
  match s with
  | e :: rest =>
    if e = 'e' ∨ e = 'E' then
      let (neg, more) := match rest with
        | '-' :: m => (true, m)
        | '+' :: m => (false, m)
        | m => (false, m)
      let ds := more.takeWhile Char.isDigit
      if ds.isEmpty then none
      else
        let n : Int := digitsValue ds
        some (if neg then -n else n, more.dropWhile Char.isDigit)
    else none
  | [] => none

/-- A number by the rules of the standard, after its sign. -/
def strictNumber? (neg : Bool) (s : List Char) : Option (Value × List Char) :=
  let whole := match s with
    | '0' :: _ => ['0']
    | _ => s.takeWhile Char.isDigit
  if whole.isEmpty then none
  else
    let rest := s.drop whole.length
    let (frac, rest) := fraction rest
    match frac.isEmpty, exponent? rest with
    | true, none =>
      let n : Int := digitsValue whole
      some (.int (if neg then -n else n), rest)
    | _, e =>
      let (exp, rest) := e.getD (0, rest)
      some (.num (.ofDecimal neg (digitsValue (whole ++ frac)) (exp - frac.length)), rest)

/-- The size of a whole number, gathered digit by digit in a word of 64 bits. A digit is refused when
it makes the number smaller, or larger than a negative word can be; a word that overflows in another
way goes on with the bits that are left. -/
def word64? (neg : Bool) (ds : List Char) : Option Nat :=
  ds.foldlM (fun n c =>
    let next := (10 * n + (c.toNat - 48)) % 0x10000000000000000
    if if neg then decide (0x8000000000000000 < next) else decide (next < n) then none
    else some next) 0

/-- A number of which every digit counts, after its sign. After a minus sign no digit need follow,
and after a point none; but a fraction or an exponent needs a digit before it or after the point. -/
def looseNumber? (neg : Bool) (s : List Char) : Option (Value × List Char) :=
  let whole := s.takeWhile Char.isDigit
  let rest := s.dropWhile Char.isDigit
  let double (frac rest : List Char) : Option (Value × List Char) :=
    if whole.isEmpty && frac.isEmpty then none
    else
      let (exp, rest) := (exponent? rest).getD (0, rest)
      some (.num (.ofDecimal neg (digitsValue (whole ++ frac)) (exp - frac.length)), rest)
  if whole.isEmpty && !neg then none
  else
    match word64? neg whole, rest with
    | none, _ => none
    | some _, '.' :: more => double (more.takeWhile Char.isDigit) (more.dropWhile Char.isDigit)
    | some size, _ =>
      if (exponent? rest).isSome then double [] rest
      else some (.int (if neg then -(size : Int) else size), rest)

/-- A number, after its sign. -/
def number? (d : Dialect) (neg : Bool) (s : List Char) : Option (Value × List Char) :=
  if d.takesLooseNumbers then looseNumber? neg s else strictNumber? neg s

mutual

/-- One value at the head of a text, nested at most `room` levels. The fuel bounds the number of
steps. -/
def value? (d : Dialect) : Nat → Nat → List Char → Option (Value × List Char)
  | 0, _, _ => none
  | _, _, [] => none
  | fuel + 1, room, c :: rest =>
    if c = '"' then (string? d (rest.length + 1) [] rest).map fun (s, r) => (.str s, r)
    else if c = '[' then
      if room = 0 then none
      else
        match skipSpace rest with
        | ']' :: more => some (.list [], more)
        | more => items? d fuel (room - 1) [] more
    else if c = '{' then
      if room = 0 then none
      else
        match skipSpace rest with
        | '}' :: more => some (.object [], more)
        | more => members? d fuel (room - 1) [] more
    else if c = 'n' then (word? "ull" rest).map fun r => (.null, r)
    else if c = 't' then (word? "rue" rest).map fun r => (.bool true, r)
    else if c = 'f' then (word? "alse" rest).map fun r => (.bool false, r)
    else if c = 'N' then (word? "aN" rest).map fun r => (.num .nan, r)
    else if c = 'I' then (word? "nfinity" rest).map fun r => (.num (.infinite false), r)
    else if c = '-' then
      match word? "Infinity" rest with
      | some r => some (.num (.infinite true), r)
      | none => number? d true rest
    else number? d false (c :: rest)

/-- The items of a list, after the opening bracket and blanks. -/
def items? (d : Dialect) : Nat → Nat → List Value → List Char → Option (Value × List Char)
  | 0, _, _, _ => none
  | fuel + 1, room, acc, s =>
    match value? d fuel room s with
    | none => none
    | some (v, rest) =>
      match skipSpace rest with
      | ',' :: more => items? d fuel room (v :: acc) (skipSpace more)
      | ']' :: more => some (.list (v :: acc).reverse, more)
      | _ => none

/-- The members of an object, after the opening brace and blanks. -/
def members? (d : Dialect) :
    Nat → Nat → List (String × Value) → List Char → Option (Value × List Char)
  | 0, _, _, _ => none
  | fuel + 1, room, acc, s =>
    match s with
    | '"' :: rest =>
      match string? d (rest.length + 1) [] rest with
      | none => none
      | some (k, rest) =>
        match skipSpace rest with
        | ':' :: rest =>
          match value? d fuel room (skipSpace rest) with
          | none => none
          | some (v, rest) =>
            let acc := Value.insert k v acc
            match skipSpace rest with
            | ',' :: more => members? d fuel room acc (skipSpace more)
            | '}' :: more => some (.object acc, more)
            | _ => none
        | _ => none
    | _ => none

end

/-- A whole document. Without a limit a document is nested less deep than it is long. -/
def parse? (d : Dialect) (s : List Char) : Option Value :=
  match value? d (2 * s.length + 2) (d.deepest.getD s.length) (skipSpace s) with
  | some (v, rest) => if (skipSpace rest).isEmpty then some v else none
  | none => none

end LangServer.Json
