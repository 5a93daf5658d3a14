import LangServer.Hover

/-!
# Signature help

The signature of the call around the cursor, with what its documentation says about each parameter.
Three ways to document a parameter are known: a field `:param name:`, a field `@param name:`, and a
line that begins with the name and has a colon later on.
-/

namespace LangServer.SignatureHelp

open Text

/-- What a parameter description says, after its colon: the text without blanks in front, or the last
blank when there is nothing else. Nothing at all describes nothing. -/
def description? (s : List Char) : Option (List Char) :=
  match trimStart s with
  | [] => s.getLast?.map fun c => [c]
  | text => some text

/-- A field: the mark, blanks, a word, a colon and a description. -/
def field? (mark : List Char) (line : List Char) : Option (List Char × List Char) := do
  let rest ← stripHead? mark (trimStart line)
  let body := trimStart rest
  if body.length = rest.length then none
  else
    let name := body.takeWhile isWord
    match name, body.drop name.length with
    | _ :: _, ':' :: more => (description? more).map fun doc => (name, doc)
    | _, _ => none

/-- A line that begins with a word and has a colon with something after it; the last such colon
counts. -/
def entry? (line : List Char) : Option (List Char × List Char) :=
  let body := trimStart line
  let name := body.takeWhile isWord
  match name with
  | [] => none
  | _ =>
    let rest := body.drop name.length
    -- a colon at the very end has nothing after it
    let front := if rest.getLast? = some ':' then rest.dropLast else rest
    match cutLast? ':' front with
    | none => none
    | some (before, _) => (description? (rest.drop (before.length + 1))).map fun doc => (name, doc)

/-- The description of a parameter on a line, in one of the three ways. -/
def onLine? (param : List Char) (line : List Char) : Option (List Char) :=
  [field? ":param".toList, field? "@param".toList, entry?].findSome? fun read =>
    match read line with
    | some (name, doc) => if name = param then some doc else none
    | none => none

/-- What a documentation says about a parameter, by the first line that does. -/
def paramDoc? (doc param : String) : Option String :=
  ((lineBodies doc.toList).findSome? (onLine? param.toList)).map String.ofList

/-- The signature itself: the lines of the documentation up to the first empty one, on one line. -/
def signatureLine (doc : String) : String :=
  let head := (splitOnText ['\n', '\n'] 0 doc.toList).headD []
  String.intercalate " " ((lineBodies head).map fun l => String.ofList (trim l))

/-- The help for one signature. -/
def describe (s : Signature) : Value :=
  let params : List (String × Value) :=
    if s.params.isEmpty then []
    else
      [("parameters", .list (s.params.map fun p => .object
        [("label", .str p.name), ("documentation", .ofText? (paramDoc? s.doc p.name))]))]
  let signature : Value := .object ([("label", .str (signatureLine s.doc)),
    ("documentation", .str (keepIndent s.rawDoc))] ++ params)
  let active : List (String × Value) :=
    match s.index with
    | some i => if s.params.isEmpty then [] else [("activeParameter", .int i)]
    | none => []
  .object ([("signatures", .list [signature]), ("activeSignature", .int 0)] ++ active)

/-- Help for the call at a position. -/
def signatureHelp (position : Value) : Job Value := do
  let place ← Job.place position
  match ← Engine.query false "get_signatures" place (·.callSignatures) with
  | [] => return .object [("signatures", .list [])]
  | s :: _ => return describe s

end LangServer.SignatureHelp
