import LangServer.Document.Whole
import LangServer.Host

/-!
# Formatting

Two formatters can format a document or some lines of it. Neither knows carriage returns as line
ends, so a document whose first line end is one is formatted with line feeds instead, and gets its
carriage returns back.

While autopep8 works, its own version of one style check stands in for the style checker's.
-/

namespace LangServer.Format

open Text

/-! ## Ranges -/

/-- Sets a member of an object. -/
def setMember (key : String) (x : Value) : Value → Except Fault Value
  | .object members => .ok (.object (Value.insert key x members))
  | _ => .error .mismatch

/-- Sets a member of a member of the range. -/
def setIn (outer inner : String) (x : Value) : EStateM Fault Value Unit := do
  let v ← get
  let part ← liftExcept (setMember inner x (← liftExcept (v.item outer)))
  set (← liftExcept (setMember outer part v))

/-- The number of the line at one end of the range. -/
def lineIn (outer : String) : EStateM Fault Value Int := do
  let v ← get
  liftExcept (do (← (← v.item outer).item "line").number)

/-- Rounds a range to full lines, and gives its first and last line counted from one. The range is
changed in place, up to the first part that is missing. -/
def roundRange : EStateM Fault Value (Int × Int) := do
  setIn "start" "character" (.int 0)
  let line ← lineIn "end"
  setIn "end" "line" (.int (line + 1))
  setIn "end" "character" (.int 0)
  let first ← lineIn "start"
  return (first + 1, line + 2)

/-- The lines of a range. -/
def linesOf (range : Value) : Except Fault (Int × Int) :=
  match roundRange range with
  | .ok lines _ => .ok lines
  | .error f _ => .error f

/-- The range as rounding leaves it. -/
def rounded (range : Value) : Value :=
  match roundRange range with
  | .ok _ v | .error _ v => v

/-! ## Line ends -/

/-- Does the text end its lines with carriage returns?  Its first line end decides. -/
def hasReturns (source : List Char) : Bool := firstEol? source == some ['\r']

/-- The text as a formatter can read it. -/
def prepare (source : List Char) : List Char :=
  if hasReturns source then replace ['\r'] ['\n'] source else source

/-- A formatted text with the line ends of the source. -/
def restore (source new : List Char) : List Char :=
  if hasReturns source then replace ['\n'] ['\r'] new else new

/-- The edits for a formatted text: one that replaces the whole document. -/
def edits (source new : String) : Value :=
  .list [Document.wholeEdit (Document.lineCount source)
    (String.ofList (restore source.toList new.toList))]

/-! ## autopep8 -/

/-- Puts the formatter's check in place of the style checker's. -/
def borrowCheck : Job Unit := do
  let desk ← get
  if desk.host.checks.own then
    set { desk with host := { desk.host with checks := { own := false, formatters := true } } }
  else throw (.missingKey (.str "continued_indentation"))

/-- Puts the style checker's check back. -/
def returnCheck : Job Unit := do
  let desk ← get
  if desk.host.checks.formatters then
    set { desk with host := { desk.host with checks := { own := true, formatters := false } } }
  else throw (.missingKey (.str "continued_indentation"))

/-- The options of the formatter: those in the settings of the style checker that say something. -/
def optionsOf (settings : Value) : Except Fault (List (String × Value)) := do
  let all := [("exclude", ← settings.get "exclude"), ("hang_closing", ← settings.get "hangClosing"),
    ("ignore", ← settings.get "ignore"), ("max_line_length", ← settings.get "maxLineLength"),
    ("select", ← settings.get "select"), ("aggressive", ← settings.get "aggressive")]
  return all.filter fun (_, v) => v.truthy

/-- The options of the formatter for the document. -/
def options (c : Caller) : Job (List (String × Value)) := do
  let path : Value := match (← get).document with
    | some d => .str d.path
    | none => .null
  let settings ← Host.pluginSettings c.config "pycodestyle" path
  liftExcept (optionsOf settings)

/-- Formats the document with autopep8, or only some lines of it. -/
def autopep8 (c : Caller) (lines : Option (Int × Int)) : Job Value := do
  let options ← options c
  let options := options ++ match lines with
    | some (first, last) => [("line_range", .list [.int first, .int last])]
    | none => []
  borrowCheck
  let source ← Job.sourceOr .mismatch
  let prepared := String.ofList (prepare source.toList)
  Job.ask (.mend prepared options)
  let answer ← liftExcept (← Job.engines).mended
  returnCheck
  let new := answer.getD prepared
  return if new = prepared then .list [] else edits source new

/-- Formats the lines of a range with autopep8. -/
def autopep8Range (c : Caller) (range : Value) : Job Value := do
  autopep8 c (some (← liftExcept (linesOf range)))

/-! ## yapf -/

/-- Formats the document with yapf, or only some lines of it. -/
def yapf (lines : Option (Int × Int)) : Job Value := do
  let source ← Job.sourceOr .mismatch
  let d ← Job.document
  let directory := String.ofList (Path.dirname d.path.toList)
  Job.ask (.reformat (String.ofList (prepare source.toList)) lines d.filename directory)
  match ← liftExcept (← Job.engines).reformatted with
  | none => return .list []
  | some new => return edits source new

/-- Formats the lines of a range with yapf. -/
def yapfRange (range : Value) : Job Value := do
  yapf (some (← liftExcept (linesOf range)))

end LangServer.Format
