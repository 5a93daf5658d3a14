import LangServer.Diagnostic.Basic
import LangServer.Text.Alphanumeric
import LangServer.Text.Lines

/-!
# Reports of linters

A linter prints one finding a line: the path, the line, the column, a code and a message. The code is
followed by a blank or by a colon and a blank, which is the linter's `mark`. `Finding.parse?` reads
such a line and `Finding.print` writes it.
-/

namespace LangServer.Lint

open Text

/-- One finding as a linter prints it. The numbers are numerals. -/
structure Finding where
  path : List Char
  line : List Char
  column : List Char
  code : List Char
  message : List Char
  deriving DecidableEq, Repr, Inhabited

namespace Finding

/-- The printed line; `mark` follows the code. -/
def print (mark : List Char) (f : Finding) : List Char :=
  f.path ++ ':' :: (f.line ++ ':' :: (f.column ++ ':' :: ' ' :: (f.code ++ mark ++ f.message)))

/-- Reads what follows the path and its colon. -/
def parseAfterPath? (mark : List Char) (s : List Char) : Option Finding :=
  match s.dropWhile isDigit with
  | ':' :: afterLine =>
    match afterLine.dropWhile isDigit with
    | ':' :: ' ' :: afterColumn =>
      (stripHead? mark (afterColumn.dropWhile isWord)).map fun message =>
        { path := [], line := s.takeWhile isDigit, column := afterLine.takeWhile isDigit
          code := afterColumn.takeWhile isWord, message }
    | _ => none
  | _ => none

/-- Reads a printed line. The path is as long as it can be. -/
def parse? (mark : List Char) : List Char → Option Finding
  | [] => none
  | c :: rest =>
    match parse? mark rest with
    | some f => some { f with path := c :: f.path }
    | none => if c = ':' then parseAfterPath? mark rest else none

/-- The findings in what a linter prints. Lines of another form are passed over. -/
def parseAll (mark : List Char) (out : List Char) : List Finding :=
  (lineBodies out).filterMap (parse? mark)

end Finding

/-- The value of a numeral. -/
def numeral (s : List Char) : Except Fault Int :=
  match readInt s with
  | some n => .ok n
  | none => .error (.badNumeral s)

/-- The line with a number, where a negative number counts from the end. -/
def lineAt (lines : List (List Char)) (i : Int) : Except Fault (List Char) :=
  match at? lines i with
  | some line => .ok line
  | none => .error .outOfRange

/-- How long the line with a number is. -/
def widthOf (lines : List (List Char)) (i : Int) : Except Fault Int := do
  return (← lineAt lines i).length

end LangServer.Lint
