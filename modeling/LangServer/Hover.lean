import LangServer.Engine.Script

/-!
# Hover texts

What is known about the name under the cursor: its signature as code, and its documentation.
Documentation keeps its indentation: tabs and pairs of spaces become spaces that do not break.
-/

namespace LangServer

/-- The space that does not break. -/
def Text.hardSpace : Char := Char.ofNat 0xA0

/-- Documentation with its indentation preserved. -/
def Text.keepIndent (s : String) : String :=
  let s := Text.replace ['\t'] (List.replicate 4 Text.hardSpace) s.toList
  String.ofList (Text.replace [' ', ' '] (List.replicate 2 Text.hardSpace) s)

namespace Hover

/-- The definition to show: the only one there is, else the first with the name of the word. -/
def choose (found : List Name) (word : String) : Option Name :=
  match found with
  | [n] => some n
  | _ => found.find? fun n => n.name == word

/-- The contents: the signature, then the documentation, each if it is not empty. -/
def contents (signature doc : String) : Value :=
  let code : List Value :=
    if signature.isEmpty then []
    else [.object [("language", .str "python"), ("value", .str signature)]]
  let text : List Value := if doc.isEmpty then [] else [.str doc]
  match code ++ text with
  | [] => .str ""
  | parts => .list parts

/-- What is known about the name at a position. -/
def hover (position : Value) : Job Value := do
  let place ← Job.place position
  let found ← Engine.query true "infer" place (·.inferred)
  let word ← liftExcept ((← Job.document).word (← Job.files) position)
  match choose found word with
  | none => return .object [("contents", .str "")]
  | some n =>
    let doc := Text.keepIndent (← liftExcept n.rawDoc)
    Job.ask (.signatures n.name)
    let signatures ← liftExcept n.signatures
    let signature := (signatures.find? fun s => s.name == word).elim "" (·.text)
    return .object [("contents", contents signature doc)]

end Hover
end LangServer
