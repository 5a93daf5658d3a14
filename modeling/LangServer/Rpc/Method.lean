import LangServer.Text.Basic
import LangServer.Text.Lowercase

/-!
# Methods

The methods that the server offers. A client may spell a method in more than one way: names are
compared in lower case, with an underscore before each word and two for each slash.
-/

namespace LangServer.Rpc

open Text

/-- A method of the server. -/
inductive Method where
  | start
  | started
  | shutdown
  | exit
  | resolveCompletion
  | didOpen
  | didChange
  | didSave
  | didClose
  | codeAction
  | codeLens
  | completion
  | definition
  | documentHighlight
  | hover
  | documentSymbol
  | formatting
  | rangeFormatting
  | rename
  | foldingRange
  | references
  | signatureHelp
  | didChangeConfiguration
  | didChangeWorkspaceFolders
  | didChangeWatchedFiles
  | executeCommand
  deriving DecidableEq, Repr, Inhabited

def isUpper (c : Char) : Bool := 'A' ≤ c && c ≤ 'Z'

def isLower (c : Char) : Bool := 'a' ≤ c && c ≤ 'z'

/-- An underscore before each capitalised word that does not begin the text. `skip` characters are
copied as they are. -/
def splitWords : Nat → List Char → List Char
  | _, [] => []
  | skip + 1, c :: rest => c :: splitWords skip rest
  | 0, c :: rest =>
    match rest with
    | u :: l :: more =>
      if c != '\n' && isUpper u && isLower l then
        c :: '_' :: splitWords (1 + ((l :: more).takeWhile isLower).length) rest
      else c :: splitWords 0 rest
    | _ => c :: splitWords 0 rest

/-- An underscore between a small letter or a digit and the capital after it. -/
def splitCapitals : List Char → List Char
  | [] => []
  | [c] => [c]
  | c :: u :: rest =>
    if (isLower c || c.isDigit) && isUpper u then c :: '_' :: splitCapitals (u :: rest)
    else c :: splitCapitals (u :: rest)

namespace Method

/-- The form in which names of methods are compared. -/
def key (name : String) : String :=
  let s := replace ['$'] [] (replace ['/'] ['_', '_'] name.toList)
  String.ofList (lower (splitCapitals (splitWords 0 s)))

/-- The methods by their keys. -/
def table : List (String × Method) :=
  [("initialize", start), ("initialized", started), ("shutdown", shutdown), ("exit", exit),
    ("completion_item__resolve", resolveCompletion),
    ("text_document__did_open", didOpen), ("text_document__did_change", didChange),
    ("text_document__did_save", didSave), ("text_document__did_close", didClose),
    ("text_document__code_action", codeAction), ("text_document__code_lens", codeLens),
    ("text_document__completion", completion), ("text_document__definition", definition),
    ("text_document__document_highlight", documentHighlight), ("text_document__hover", hover),
    ("text_document__document_symbol", documentSymbol), ("text_document__formatting", formatting),
    ("text_document__range_formatting", rangeFormatting), ("text_document__rename", rename),
    ("text_document__folding_range", foldingRange), ("text_document__references", references),
    ("text_document__signature_help", signatureHelp),
    ("workspace__did_change_configuration", didChangeConfiguration),
    ("workspace__did_change_workspace_folders", didChangeWorkspaceFolders),
    ("workspace__did_change_watched_files", didChangeWatchedFiles),
    ("workspace__execute_command", executeCommand)]

/-- The method with a name, if the server offers it. -/
def ofName? (name : String) : Option Method :=
  (table.find? fun (k, _) => k == key name).map (·.2)

/-- The parameters that a method takes, when it does not take any. -/
def parameters? : Method → Option (List String)
  | didChangeConfiguration => some ["settings"]
  | executeCommand => some ["command", "arguments"]
  | _ => none

end Method
end LangServer.Rpc
