import LangServer.Document.Position

/-!
# Editing a text

A change replaces the whole text, or the part of it between two positions. `splice` works line by
line, as the server's documents do; `cut` is the same edit by offsets into the text.
-/

namespace LangServer.Document

open Text

/-- A place between two characters of a text. -/
structure Position where
  line : Int
  character : Int
  deriving DecidableEq, Repr, Inhabited

/-- The part of a text between two positions. -/
structure Range where
  start : Position
  stop : Position
  deriving DecidableEq, Repr, Inhabited

/-- A change: new text for a range, or for the whole. -/
structure Change where
  range : Option Range
  text : List Char
  deriving DecidableEq, Repr, Inhabited

/-- What becomes of the line with number `i`. -/
def spliceLine (r : Range) (text : List Char) (i : Int) (line : List Char) : List Char :=
  if i < r.start.line ∨ r.stop.line < i then line
  else
    (if i = r.start.line then before line r.start.character ++ text else []) ++
      (if i = r.stop.line then after line r.stop.character else [])

/-- The lines from number `i` on, with a range of them replaced. -/
def spliceFrom (r : Range) (text : List Char) : Int → List (List Char) → List Char
  | _, [] => []
  | i, line :: rest => spliceLine r text i line ++ spliceFrom r text (i + 1) rest

/-- Replaces a range of a text. A range that starts right after the last line appends. -/
def splice (r : Range) (text : List Char) (s : List Char) : List Char :=
  let ls := lines s
  if r.start.line = ls.length then s ++ text else spliceFrom r text 0 ls

/-- Applies a change to a text. -/
def Change.apply (c : Change) (s : List Char) : List Char :=
  match c.range with
  | none => c.text
  | some r => splice r c.text s

/-- Replaces what lies between two offsets of a text. -/
def cut (s : List Char) (start stop : Int) (text : List Char) : List Char :=
  before s start ++ text ++ after s stop

end LangServer.Document
