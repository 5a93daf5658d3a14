import LangServer.Settings.Problem
import LangServer.Text.Digit

/-!
# Faults

Why a request could not be answered, by cause. The client sees the name of a cause and its message
(`label`, `message`), so both are part of the protocol.
-/

namespace LangServer

/-- A cause of failure. -/
inductive Fault where
  /-- A value has the wrong type for what is asked of it. -/
  | mismatch
  /-- A value lacks the operation that is asked of it. -/
  | noMember
  /-- A result is read before anything gave it a value. -/
  | unassigned
  /-- A position outside a sequence. -/
  | outOfRange
  /-- A key that is not there. -/
  | missingKey (key : Value)
  /-- A method that the server does not offer now. -/
  | unknownMethod
  /-- A value of the right type that cannot be used. -/
  | invalid (text : String)
  /-- An operation that is left to others. -/
  | notImplemented (text : String)
  /-- A text that is no JSON document. -/
  | badJson
  /-- A pattern that cannot be compiled. -/
  | badPattern
  | noFile (path : String)
  | isDirectory (path : String)
  /-- A settings file that cannot be read. -/
  | badSettings (problem : Settings.Problem)
  /-- A service that an engine does not provide. -/
  | unsupported (text : String)
  /-- A failure that an engine or the system reports under a name of its own. -/
  | reported (label text : String)
  deriving DecidableEq, Repr, Inhabited

namespace Fault

/-- The name of a cause. -/
def label : Fault → String
  | mismatch => "TypeError"
  | noMember => "AttributeError"
  | unassigned => "UnboundLocalError"
  | outOfRange => "IndexError"
  | missingKey _ | unknownMethod => "KeyError"
  | invalid _ => "ValueError"
  | notImplemented _ => "NotImplementedError"
  | badJson => "JSONDecodeError"
  | badPattern => "error"
  | noFile _ => "FileNotFoundError"
  | isDirectory _ => "IsADirectoryError"
  | badSettings (.noHeader ..) => "MissingSectionHeaderError"
  | badSettings (.repeatedSection ..) => "DuplicateSectionError"
  | badSettings (.repeatedOption ..) => "DuplicateOptionError"
  | badSettings (.badLines ..) => "ParsingError"
  | badSettings (.noSection _) => "NoSectionError"
  | unsupported _ => "Exception"
  | reported label _ => label

/-- The wording of a cause; empty when the name says it all. -/
def message : Fault → String
  | missingKey key => String.ofList key.literal
  | invalid text | notImplemented text | unsupported text | reported _ text => text
  | noFile path => s!"[Errno 2] No such file or directory: {Text.quote path}"
  | isDirectory path => s!"[Errno 21] Is a directory: {Text.quote path}"
  | badSettings problem => problem.message
  | _ => ""

/-- Where a cause belongs, when it is not a general one. -/
def origin : Fault → String
  | badSettings _ => "configparser."
  | badJson => "json.decoder."
  | badPattern => "re."
  | _ => ""

/-- Names of causes that are given without a message. -/
def wordless : List String :=
  ["TypeError", "AttributeError", "UnboundLocalError", "IndexError", "RecursionError", "NameError",
    "JSONDecodeError", "AssertionError", "error"]

/-- A failure that is known by its name and text only. -/
def ofReport (label text : String) : Fault :=
  if label = "TypeError" then mismatch
  else if label = "AttributeError" then noMember
  else if label = "IndexError" then outOfRange
  else if label = "KeyError" then missingKey (.str text)
  else if label = "ValueError" then invalid text
  else if label = "NotImplementedError" then notImplemented text
  else if label = "Exception" then unsupported text
  else reported label text

/-- A list that should have a certain number of items has another one. -/
def wrongCount (expected got : Nat) : Fault :=
  if got < expected then invalid s!"not enough values to unpack (expected {expected}, got {got})"
  else invalid s!"too many values to unpack (expected {expected})"

/-- A text that is no number: it is no numeral, of which the message shows a part, or it has too many
digits. -/
def badNumeral (s : List Char) : Fault :=
  match Text.overlong? s with
  | some n =>
    invalid (s!"Exceeds the limit ({Text.digitLimit} digits) for integer string conversion: " ++
      s!"value has {n} digits; use sys.set_int_max_str_digits() to increase the limit")
  | none =>
    let shown := String.ofList ((Text.quoted s).take 200)
    invalid s!"invalid literal for int() with base 10: {shown}"

/-- The summary that a client is sent, without blanks at its end. -/
def summary (f : Fault) : String :=
  let name := f.origin ++ f.label
  if wordless.contains f.label || f.message.isEmpty then name
  else String.ofList (Text.trimEnd s!"{name}: {f.message}".toList)

end Fault
end LangServer
