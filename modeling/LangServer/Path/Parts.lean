import LangServer.Path.Basic

/-!
# Parts of a path, and patterns over them

A path is cut into its parts, the leading slash being a part of its own. A pattern is matched part
by part from the right; within a part `*` stands for any text, `?` for any character and a bracketed
set for one of its characters.
-/

namespace LangServer.Path

/-- The parts of a path: an optional root, then the names, without empty ones and dots. -/
def parts (p : List Char) : List (List Char) :=
  let names := (Text.splitOn '/' p).filter fun n => !n.isEmpty && n != ['.']
  if (lead p).isEmpty then names else lead p :: names

/-- The text of a path without doubled slashes, dots and a slash at its end. -/
def tidy (p : List Char) : List Char :=
  let names := (Text.splitOn '/' p).filter fun n => !n.isEmpty && n != ['.']
  let body := lead p ++ List.intercalate ['/'] names
  if body.isEmpty then ['.'] else body

/-! ## Patterns -/

/-- One element of a pattern for a part. -/
inductive Wild where
  | any
  | one
  | exactly (c : Char)
  /-- A set of ranges, or all characters outside of them. -/
  | among (negated : Bool) (ranges : List (Char × Char))
  deriving DecidableEq, Repr, Inhabited

/-- The ranges of a bracketed set. A hyphen between two characters makes a range; a range whose
ends are in the wrong order is empty. -/
def ranges : List Char → List (Char × Char)
  | a :: '-' :: b :: rest => (a, b) :: ranges rest
  | a :: rest => (a, a) :: ranges rest
  | [] => []

/-- The text of a bracketed set after the opening bracket, up to the closing one, and what follows.
A closing bracket that comes first, also after `!`, belongs to the set. -/
def bracketed? (s : List Char) : Option (List Char × List Char) :=
  let (bang, rest) := match s with
    | '!' :: r => (['!'], r)
    | r => ([], r)
  let (first, rest) := match rest with
    | ']' :: r => ([']'], r)
    | r => ([], r)
  (Text.cutFirst? ']' rest).map fun (body, more) => (bang ++ first ++ body, more)

/-- The elements of a pattern for a part. -/
def wilds : Nat → List Char → List Wild
  | 0, _ => []
  | _, [] => []
  | fuel + 1, '*' :: rest => .any :: wilds fuel rest
  | fuel + 1, '?' :: rest => .one :: wilds fuel rest
  | fuel + 1, '[' :: rest =>
    match bracketed? rest with
    | some ('!' :: body, more) =>
      (if body.isEmpty then .one else .among true (ranges body)) :: wilds fuel more
    | some (body, more) => .among false (ranges body) :: wilds fuel more
    | none => .exactly '[' :: wilds fuel rest
  | fuel + 1, c :: rest => .exactly c :: wilds fuel rest

/-- Does one character fit an element that stands for one? -/
def Wild.fits (c : Char) : Wild → Bool
  | any => false
  | one => true
  | exactly d => c == d
  | among negated rs => negated != rs.any fun (a, b) => decide (a ≤ c) && decide (c ≤ b)

/-- Does some tail of a name pass a test? -/
def anyTail (test : List Char → Bool) : List Char → Bool
  | [] => test []
  | c :: name => test (c :: name) || anyTail test name

/-- Does a name fit a pattern? -/
def fits : List Wild → List Char → Bool
  | [], name => name.isEmpty
  | .any :: rest, name => anyTail (fits rest) name
  | _ :: _, [] => false
  | w :: rest, c :: name => w.fits c && fits rest name

/-- Does the path fit the pattern?  Parts are compared from the right, and an absolute pattern has
to fit the whole path. A pattern without parts is refused with `none`. -/
def fits? (pattern p : List Char) : Option Bool :=
  let ps := parts p
  match parts pattern with
  | [] => none
  | pat =>
    let root := lead pattern
    let wild (w : List Char) := wilds (w.length + 1) w
    let pairwise (pat : List (List Char)) : Bool :=
      (pat.reverse.zip ps.reverse).all fun (w, part) => fits (wild w) part
    if !root.isEmpty then
      some (root == lead p && pat.length == ps.length && pairwise (pat.drop 1))
    else some (decide (pat.length ≤ ps.length) && pairwise pat)

end LangServer.Path
