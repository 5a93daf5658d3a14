import LangServer.Text.Basic

/-!
# File name patterns

The settings choose the files to lint by regular expressions. Of their language these are read:
characters, also escaped; `.` for any character; a set of single characters in brackets; any of these
repeated by a star; and a plain text in `(?!` and `)` that must not follow. This is what the default
patterns are made of. Not covered are `+`, `?` and groups, which count as malformed here, nor `|`,
`^`, `$`, braces, ranges in a set and classes such as `\d`, which are read as the characters they are
written with. A pattern has to fit the whole name, up to one line feed at its end.
-/

namespace LangServer.Lint

/-- What stands for one character. -/
inductive Glyph where
  | exactly (c : Char)
  /-- Any character but a line feed. -/
  | any
  | among (negated : Bool) (chars : List Char)
  deriving DecidableEq, Repr, Inhabited

def Glyph.fits (c : Char) : Glyph → Bool
  | exactly d => c == d
  | any => c != '\n'
  | among negated chars => negated != chars.contains c

/-- An element of a pattern. -/
inductive Piece where
  | once (g : Glyph)
  | many (g : Glyph)
  /-- The text does not follow here. -/
  | unless (text : List Char)
  deriving DecidableEq, Repr, Inhabited

/-- The characters of a set up to its closing bracket, and what follows. -/
def readSet : List Char → Option (List Char × List Char)
  | [] => none
  | ']' :: rest => some ([], rest)
  | '\\' :: c :: rest => (readSet rest).map fun (cs, more) => (c :: cs, more)
  | c :: rest => (readSet rest).map fun (cs, more) => (c :: cs, more)

/-- One element that stands for a character, and what follows. -/
def readGlyph : List Char → Option (Glyph × List Char)
  | '.' :: rest => some (.any, rest)
  | '\\' :: c :: rest => some (.exactly c, rest)
  | '[' :: '^' :: rest => (readSet rest).map fun (cs, more) => (.among true cs, more)
  | '[' :: rest => (readSet rest).map fun (cs, more) => (.among false cs, more)
  | '(' :: _ | ')' :: _ | '*' :: _ | '+' :: _ | '?' :: _ | ['\\'] | [] => none
  | c :: rest => some (.exactly c, rest)

/-- The elements of a pattern, none if it is malformed. -/
def readPattern : Nat → List Char → Option (List Piece)
  | 0, _ => none
  | _, [] => some []
  | fuel + 1, '(' :: '?' :: '!' :: rest => do
    let (text, more) ← Text.cutFirst? ')' rest
    return .unless text :: (← readPattern fuel more)
  | fuel + 1, s => do
    let (g, more) ← readGlyph s
    match more with
    | '*' :: more => return .many g :: (← readPattern fuel more)
    | more => return .once g :: (← readPattern fuel more)

mutual

/-- Does a name fit a pattern? -/
def fitsPieces : List Piece → List Char → Bool
  | [], name => name.isEmpty || name == ['\n']
  | .unless text :: rest, name => !text.isPrefixOf name && fitsPieces rest name
  | .once _ :: _, [] => false
  | .once g :: rest, c :: name => g.fits c && fitsPieces rest name
  | .many g :: rest, name => fitsMany g rest name
termination_by ps name => (ps.length, name.length + 1)

/-- Does a name fit a pattern after any number of characters of a kind? -/
def fitsMany (g : Glyph) (rest : List Piece) : List Char → Bool
  | [] => fitsPieces rest []
  | c :: name => fitsPieces rest (c :: name) || (g.fits c && fitsMany g rest name)
termination_by name => (rest.length + 1, name.length)

end

/-- Does a name fit a pattern?  None if the pattern is malformed. -/
def fitsPattern? (pattern name : List Char) : Option Bool :=
  (readPattern (pattern.length + 1) pattern).map fun pieces => fitsPieces pieces name

end LangServer.Lint
