import LangServer.Text.Basic
import LangServer.Value.Access

/-!
# The statement that is being typed

Snippets are not offered inside an import. To find out, the statement up to the cursor is put
together from its lines: a line that ends in a backslash, an opening parenthesis or a comma goes on
in the next one.
-/

namespace LangServer.Completion

open Text

/-- The last character of a line that is not blank. -/
def lastInk? (line : List Char) : Option Char := (trimEnd line).getLast?

/-- Does the statement go on in the next line? -/
def continues (line : List Char) : Bool :=
  match lastInk? line with
  | some c => c == '\\' || c == '(' || c == ','
  | none => false

/-- The lines of the statement above the cursor; `above` has them from the nearest one up. -/
def statementAbove (above : List (List Char)) : List (List Char) :=
  (above.takeWhile continues).reverse

/-- Is a parenthesis open at the end of the statement?  Only openings count. -/
def opensParenthesis (above : List (List Char)) (line : List Char) : Bool :=
  above.any (fun l => lastInk? l == some '(') || (trim line).contains '('

/-- The text after the last semicolon. -/
def afterSemicolon (s : List Char) : List Char :=
  match cutLast? ';' s with
  | some (_, rest) => rest
  | none => s

/-- The statement up to the cursor, from the lines above (nearest last) and its own line. An open
parenthesis is closed. -/
def statement (above : List (List Char)) (line : List Char) : List Char :=
  let above := statementAbove above.reverse
  trim (afterSemicolon (List.intercalate ['\n'] (above ++ [line]))) ++
    if opensParenthesis above line then [')'] else []

/-- Can a text be cut a number of times?  The number has to fit into 64 bits with a sign. -/
def checkCuts (n : Int) : Except Fault Unit :=
  if -0x8000000000000000 ≤ n ∧ n < 0x8000000000000000 then .ok ()
  else .error (.reported "OverflowError" "Python int too large to convert to C ssize_t")

/-- The statement up to a position in a text. The last line that is split off keeps the rest of the
text. -/
def statementAt (source : List Char) (position : Value) : Except Fault (List Char) := do
  let line ← (← position.item "line").number
  checkCuts line
  let lines := if line < 0 then splitOn '\n' source else splitOnAtMost '\n' line.toNat source
  match at? lines line with
  | none => throw .outOfRange
  | some current =>
    let typed ←
      match ← position.item "character" with
      | .null => pure current
      | v => do pure (before current (← v.number))
    return statement (lines.take line.toNat) typed

/-- Are snippets offered in a statement of a kind?  They are not in imports, nor in a broken
statement that mentions one. -/
def allowsSnippets (kind : String) (code : List Char) : Bool :=
  kind != "import_name" && kind != "import_from" &&
    !(kind == "error_node" && contains "import".toList code)

end LangServer.Completion
