import LangServer.Completion.Resolver
import LangServer.Document.Edit
import LangServer.Files

/-!
# Documents

A document is the text of a file as the editor has it, or, while the editor has sent no text, the
file itself. It keeps the workspace it was made in, and the completions that were offered last so
that one of them can be resolved later.
-/

namespace LangServer

/-- A completion item that was offered, with what it was made from. -/
structure Offer (α : Type) where
  item : List (String × Value)
  made : α
  deriving Inhabited

/-- What a document holds. -/
inductive Content where
  /-- Nothing was sent: the document is its file. -/
  | file
  | text (s : String)
  /-- Something was sent that is no text, and nothing can be read from it. -/
  | other (v : Value)
  deriving Inhabited

namespace Content

/-- The content for what an editor sends as a text; null stands for the file. -/
def ofValue : Value → Content
  | .null => file
  | .str s => text s
  | v => other v

/-- What was sent; null for the file. -/
def toValue : Content → Value
  | file => .null
  | text s => .str s
  | other v => v

end Content

/-- A document. -/
structure Document where
  uri : String
  /-- The version that the editor gave. -/
  version : Value := .null
  path : String
  /-- The dotted name of the module in the file. -/
  dotName : String
  /-- The name of the file. -/
  filename : String
  /-- What the editor sent as the text, if it did. -/
  source : Content := .file
  /-- Directories that are searched for modules, beside those of the engine. -/
  searchPath : List String := []
  /-- The workspace that the document was made in. -/
  home : Nat := 0
  /-- Completions offered last, by label. -/
  offers : Option (List (String × Offer Name)) := none
  proposals : Option (List (String × Offer Proposal)) := none
  deriving Inhabited

namespace Document

/-- The text of a document: what the editor sent, or the file. If there is no text, the given fault. -/
def readOr (fault : Fault) (fs : Files) (d : Document) : Except Fault String :=
  match d.source with
  | .file => fs.read d.path
  | .text s => .ok s
  | .other _ => .error fault

/-- The text of a document that is asked for one of its operations. -/
def read (fs : Files) (d : Document) : Except Fault String := d.readOr .noMember fs

/-- What stands for the text of a document, be it a text or not. -/
def held (fs : Files) (d : Document) : Except Fault Value :=
  match d.source with
  | .file => return .str (← fs.read d.path)
  | c => .ok c.toValue

/-- The lines of a document. -/
def lines (fs : Files) (d : Document) : Except Fault (List (List Char)) := do
  return Text.lines (← d.read fs).toList

/-- A bound of a part of a sequence: null stands for the given end. -/
def bound (absent : Int) : Value → Except Fault Int
  | .null => .ok absent
  | v => v.number

/-- The range of a change as the editor sent it. -/
structure SentRange where
  startLine : Value
  startCharacter : Value
  stopLine : Value
  stopCharacter : Value

/-- The parts of a range. -/
def sentRange (v : Value) : Except Fault SentRange := do
  return {
    startLine := ← (← v.item "start").item "line"
    startCharacter := ← (← v.item "start").item "character"
    stopLine := ← (← v.item "end").item "line"
    stopCharacter := ← (← v.item "end").item "character" }

namespace SentRange

/-- What becomes of the line with number `i`. A part of the range counts only where it is looked at:
its lines as long as they decide, its characters on these lines. Without a character the range starts
at the end of its first line, and stops at the beginning of its last one. -/
def spliceLine (r : SentRange) (text : Value) (i : Int) (line : List Char) :
    Except Fault (List Char) := do
  let start ← r.startLine.number
  if i < start then return line
  let stop ← r.stopLine.number
  if stop < i then return line
  let head ←
    if i = start then do
      let column ← bound line.length r.startCharacter
      pure (Text.before line column ++ (← text.textOr .mismatch).toList)
    else pure []
  let tail ←
    if i = stop then do pure (Text.after line (← bound 0 r.stopCharacter)) else pure []
  return head ++ tail

/-- The lines from number `i` on, with the range replaced. -/
def spliceFrom (r : SentRange) (text : Value) :
    Int → List (List Char) → Except Fault (List Char)
  | _, [] => .ok []
  | i, line :: rest => do
    let line ← r.spliceLine text i line
    return line ++ (← spliceFrom r text (i + 1) rest)

/-- Replaces the range in a text. A range that starts right after the last line appends. -/
def splice (r : SentRange) (text : Value) (s : List Char) : Except Fault (List Char) := do
  let lines := Text.lines s
  if r.startLine.whole? = some (lines.length : Int) then
    return s ++ (← text.textOr .mismatch).toList
  else r.spliceFrom text 0 lines

/-- A range as an editor should send it. -/
def ofRange (r : Range) : SentRange :=
  ⟨.int r.start.line, .int r.start.character, .int r.stop.line, .int r.stop.character⟩

theorem spliceLine_ofRange (r : Range) (text : String) (i : Int) (line : List Char) :
    (ofRange r).spliceLine (.str text) i line = .ok (Document.spliceLine r text.toList i line) := by
  rw [spliceLine, Document.spliceLine]
  by_cases hstart : i < r.start.line
  · rw [if_pos (Or.inl hstart)]
    simp [ofRange, Value.number, hstart, bind, Except.bind, pure, Except.pure]
  · by_cases hstop : r.stop.line < i
    · rw [if_pos (Or.inr hstop)]
      simp [ofRange, Value.number, hstart, hstop, bind, Except.bind, pure, Except.pure]
    · rw [if_neg (not_or.2 ⟨hstart, hstop⟩)]
      simp only [ofRange, Value.number, Value.textOr, bound, bind, Except.bind, pure, Except.pure,
        if_neg hstart, if_neg hstop]
      split <;> split <;> simp

theorem spliceFrom_ofRange (r : Range) (text : String) (i : Int) (lines : List (List Char)) :
    (ofRange r).spliceFrom (.str text) i lines =
      .ok (Document.spliceFrom r text.toList i lines) := by
  induction lines generalizing i with
  | nil => rfl
  | cons line rest ih =>
    rw [spliceFrom, Document.spliceFrom, spliceLine_ofRange, ih]
    rfl

theorem splice_ofRange (r : Range) (text : String) (s : List Char) :
    (ofRange r).splice (.str text) s = .ok (Document.splice r text.toList s) := by
  rw [splice, Document.splice]
  by_cases h : r.start.line = ((Text.lines s).length : Int)
  · simp [ofRange, Value.whole?, Value.textOr, h, bind, Except.bind, pure, Except.pure]
  · simp [ofRange, Value.whole?, h]
    exact spliceFrom_ofRange r text 0 (Text.lines s)

end SentRange

/-- Applies a change that the editor sent. A change without a range replaces the whole text; null
text then means that the file is the text again. -/
def change (fs : Files) (d : Document) (v : Value) : Except Fault Document := do
  let text ← v.item "text"
  let range ← v.get "range"
  if !range.truthy then return { d with source := .ofValue text }
  else
    let sent ← sentRange range
    let s ← d.read fs
    return { d with source := .text (String.ofList (← sent.splice text s.toList)) }

/-- The offset of a position in the text. -/
def offsetAt (fs : Files) (d : Document) (position : Value) : Except Fault Int := do
  let character ← position.item "character"
  let lines ← d.lines fs
  let line ← bound lines.length (← position.item "line")
  return offset lines line (← character.number)

/-- The word at a position. -/
def word (fs : Files) (d : Document) (position : Value) : Except Fault String := do
  let line ← position.item "line"
  let lines ← d.lines fs
  let line ← line.number
  if (lines.length : Int) ≤ line then return ""
  else
    match Text.at? lines line with
    | none => throw .outOfRange
    | some text =>
      match ← position.item "character" with
      | .null => return String.ofList (wordBefore text ++ wordAfter text)
      | v => return String.ofList (← wordAt lines line (← v.number))

/-- A column clipped to the length of its line. One that is not too large stays as it was given. -/
def clipColumn (lines : List (List Char)) (line column : Value) : Except Fault Value := do
  let limit ← columnLimit lines (← line.number)
  return if (← column.number) ≤ limit then column else .int limit

theorem clipColumn_int (lines : List (List Char)) (line column : Int) :
    clipColumn lines (.int line) (.int column) =
      (columnLimit lines line).map fun limit => .int (min column limit) := by
  simp only [clipColumn, Value.number, bind, Except.bind, pure, Except.pure]
  cases columnLimit lines line with
  | error f => rfl
  | ok limit => by_cases h : column ≤ limit <;> simp [Except.map, Int.min_def, h]

/-- A position as the engine counts it: lines from one, and the column clipped to the line. An empty
position means none. -/
def place (lines : Except Fault (List (List Char))) (position : Value) :
    Except Fault (List (String × Value)) := do
  if !position.truthy then return []
  let line ← (← position.item "line").number
  let character ← position.item "character"
  let lines ← lines
  return [("line", .int (line + 1)), ("column", ← clipColumn lines (.int line) character)]

end Document
end LangServer
