import LangServer.Fault
import LangServer.Text.Lines

/-!
# Folding by indentation

For a text that does not parse, what can be folded is read off the indentation of its lines. A line
that is indented deeper than the one before opens a level; the level closes before the next line that
is not indented deeper than the line that opened it.
-/

namespace LangServer.Folding

open Text

/-- What has been read so far. Levels are open with the deepest first; `starts` has the line at which
each of them opened. -/
structure Indents where
  levels : List Nat := []
  starts : List (Nat × Nat) := []
  /-- The indentation of the last line. -/
  level : Nat := 0
  /-- The last line that is not blank, counted from one. -/
  line : Nat := 0
  ranges : List (Nat × Nat) := []
  deriving DecidableEq, Repr, Inhabited

namespace Indents

/-- Takes the start of a level out. -/
def takeStart (level : Nat) : List (Nat × Nat) → Option (Nat × List (Nat × Nat))
  | [] => none
  | (l, start) :: rest =>
    if l = level then some (start, rest)
    else (takeStart level rest).map fun (s, more) => (s, (l, start) :: more)

/-- Closes a level at the current line. -/
def close (s : Indents) (level : Nat) : Except Fault Indents :=
  match takeStart level s.starts with
  | some (start, starts) => .ok { s with starts, ranges := s.ranges ++ [(start, s.line)] }
  | none => .error (.missingKey (.int level))

/-- Closes all levels. -/
def closeAll (s : Indents) : List Nat → Except Fault Indents
  | [] => .ok { s with levels := [] }
  | l :: rest => do closeAll (← s.close l) rest

/-- Closes the levels that are not below the given one. -/
def closeTo (level : Nat) (s : Indents) : List Nat → Except Fault Indents
  | [] => .error .outOfRange
  | l :: rest => do
    if level ≤ l then closeTo level (← s.close l) rest else return { s with levels := l :: rest }

/-- Opens a level at the current line, for lines indented as given. -/
def open' (s : Indents) (level : Nat) : Indents :=
  { s with levels := s.level :: s.levels, starts := (s.level, s.line) :: s.starts, level }

end Indents

/-- How deep a line is indented; none for a line that begins with ink, or with one blank and nothing
more. The last of several blanks is not counted when the line has nothing else. -/
def indent? (line : List Char) : Option Nat :=
  let blanks := (line.takeWhile isBlank).length
  let level := if blanks = line.length then blanks - 1 else blanks
  if level = 0 then none else some level

/-- Reads one line, which has the number `i`. -/
def Indents.step (s : Indents) (i : Nat) (line : List Char) : Except Fault Indents := do
  let s ←
    match indent? line with
    | some level =>
      if s.level < level then pure (s.open' level)
      else if level < s.level then do
        let s ← s.closeTo level s.levels
        pure { s with level }
      else pure s
    | none => do
      let s ← s.closeAll s.levels
      pure { s with level := 0 }
  return if (trim line).isEmpty then s else { s with line := i }

/-- Reads lines, the first of which has the number `i`. -/
def Indents.steps (s : Indents) : Nat → List (List Char) → Except Fault Indents
  | _, [] => .ok s
  | i, line :: rest => do steps (← s.step i line) (i + 1) rest

/-- The ranges of a text that can be folded, by its indentation: first and last lines counted from
one. Empty lines at the beginning are passed over; there has to be another one. -/
def byIndentation (text : List Char) : Except Fault (List (Nat × Nat)) := do
  let ls := lineBodies text
  let blank := (ls.takeWhile List.isEmpty).length
  if blank = ls.length then throw .outOfRange
  let s : Indents := { line := blank }
  let s ← s.steps (blank + 1) (ls.drop blank)
  return (← s.closeAll s.levels).ranges

end LangServer.Folding
