import LangServer.Text.Lines
import LangServer.Text.Alphanumeric
import LangServer.Fault

/-!
# Positions in a text

A position is a line and a character, both counted from zero; a negative line counts from the end.
Each function here answers one question about a position in a list of lines: its offset in the text,
the last column of its line, and the word around it.
-/

namespace LangServer.Document

open Text

/-- The offset of a position: the length of the lines before it, and its character as it is. -/
def offset (lines : List (List Char)) (line character : Int) : Int :=
  character + ((before lines line).flatten.length : Int)

/-- A line without line feeds and carriage returns at its end. -/
def unterminated (line : List Char) : List Char := dropEndWhile isEol line

/-- The last column of a line; zero past the last line. -/
def columnLimit (lines : List (List Char)) (line : Int) : Except Fault Int :=
  if line < lines.length then
    match at? lines line with
    | some text => .ok (unterminated text).length
    | none => .error .outOfRange
  else .ok 0

/-- Does the text end here?  One line feed may follow. -/
def endsHere : List Char → Bool
  | [] | ['\n'] => true
  | _ => false

/-- The run of word characters at the start of a text that leads to its end, if there is one. Each
character is first tried as a part of the run, and then as what may follow the end. -/
def runToEnd? : List Char → Option (List Char)
  | [] => some []
  | c :: rest =>
    let longer := if isAsciiWord c then (runToEnd? rest).map (c :: ·) else none
    longer.or (if endsHere (c :: rest) then some [] else none)

/-- The first run of word characters, from the left, that leads to the end of a text. -/
def wordBefore : List Char → List Char
  | [] => []
  | c :: rest => (runToEnd? (c :: rest)).getD (wordBefore rest)

/-- The longest run of word characters that a text begins with. -/
def wordAfter (s : List Char) : List Char := s.takeWhile isAsciiWord

/-- The word around a position; nothing past the last line. -/
def wordAt (lines : List (List Char)) (line character : Int) : Except Fault (List Char) :=
  if (lines.length : Int) ≤ line then .ok []
  else
    match at? lines line with
    | some text => .ok (wordBefore (before text character) ++ wordAfter (after text character))
    | none => .error .outOfRange

end LangServer.Document
