import LangServer.Fault
import LangServer.Folding.Tree

/-!
# What engines answer

The server itself analyses nothing: it asks engines and shapes what they answer. An engine gives a
result or fails with a reason. `Engines` holds the answers of all engines to what they are asked
next.
-/

namespace LangServer

/-- A result of an engine, or its failure. -/
abbrev Reply (α : Type) := Except Fault α

/-- A parameter of a callable, with the way it is written. -/
structure Param where
  name : String
  description : String
  deriving DecidableEq, Repr, Inhabited

/-- A signature of a callable. -/
structure Signature where
  name : String := ""
  params : List Param := []
  /-- The parameter at the cursor. -/
  index : Option Int := none
  text : String := ""
  doc : String := ""
  rawDoc : String := ""
  deriving DecidableEq, Repr, Inhabited

/-- What encloses a name. -/
inductive Enclosing where
  | mk (name : String) (fullName : Option String) (parent : Except Fault (Option Enclosing))
  deriving Inhabited

namespace Enclosing

def name : Enclosing → String
  | mk n _ _ => n

def fullName : Enclosing → Option String
  | mk _ f _ => f

def parent : Enclosing → Reply (Option Enclosing)
  | mk _ _ p => p

end Enclosing

/-- A name that an engine found: a definition, a reference or a completion. -/
structure Name where
  name : String := ""
  kind : String := "statement"
  /-- The line, counted from one. -/
  line : Option Int := none
  column : Option Int := none
  /-- The file of the name's module, as a tidy path. -/
  modulePath : Option String := none
  fullName : Option String := none
  description : String := ""
  /-- Where the definition of the name starts and ends: lines from one, columns from zero. -/
  span : (Int × Int) × (Int × Int) := ((1, 0), (1, 0))
  isDefinition : Bool := false
  inBuiltinModule : Bool := false
  doc : Except Fault String := .ok ""
  rawDoc : Except Fault String := .ok ""
  lineCode : String := ""
  parent : Except Fault (Option Enclosing) := .ok none
  definedNames : Except Fault (List Name) := .ok []
  signatures : Except Fault (List Signature) := .ok []
  deriving Inhabited

mutual

/-- How many names a name stands for: itself and, below a class, what the class defines. -/
def Name.weight : Name → Nat
  | { definedNames := .ok inner, .. } => 1 + Name.weights inner
  | { definedNames := .error _, .. } => 1

/-- How many names a list of names stands for. -/
def Name.weights : List Name → Nat
  | [] => 0
  | n :: rest => n.weight + Name.weights rest

end

/-- A completion that the refactoring engine proposes. -/
structure Proposal where
  name : String
  kind : Option String := none
  scope : Option String := none
  doc : Reply (Option String) := .ok none
  deriving Inhabited

/-- A report of the checker for unused and undefined names. -/
inductive Flake where
  /-- A finding of a class, with a message template and its arguments. -/
  | finding (kind : String) (line column : Int) (template : String) (args : List Value)
  | syntaxError (message : String) (line offset : Option Int) (text : Option String)
  | unexpected (message : String)
  deriving Inhabited

/-- What a program that was started printed. -/
structure Output where
  out : String := ""
  err : String := ""
  deriving DecidableEq, Repr, Inhabited

/-- A change of a file: its path, its old and its new text. -/
structure FileChange where
  path : String
  old : String
  new : String
  deriving DecidableEq, Repr, Inhabited

/-- The answers of all engines. -/
structure Engines where
  /-- The import path of an environment. -/
  searchPath : List Value := [.str "/py/lib"]
  /-- Why an environment cannot be made. -/
  environment : Option Fault := none
  completions : Reply (List Name) := .ok []
  definitions : Reply (List Name) := .ok []
  inferred : Reply (List Name) := .ok []
  references : Reply (List Name) := .ok []
  names : Reply (List Name) := .ok []
  callSignatures : Reply (List Signature) := .ok []
  /-- Files with their new texts. -/
  renamed : Reply (List (String × String)) := .ok []
  tree : Folding.Tree := default
  /-- The kind of the first statement of a piece of code. -/
  statementKind : String := "expr_stmt"
  /-- The style guide for some options: whether it ignores a code. -/
  styleGuide : List (String × Value) → Reply (String → Reply Bool) := fun _ => .ok fun _ => .ok false
  /-- Style findings: line, offset, text. -/
  style : Reply (List (Int × Int × String)) := .ok []
  styleExpected : List String := []
  flakes : Reply (List Flake) := .ok []
  /-- Complexity, line and column of every function. -/
  complexities : List (Int × Int × Int) := []
  sourceIsBroken : Bool := false
  docstyleCodes : List String := []
  /-- Line, code and message of findings about documentation. -/
  docstyle : List (Int × String × String) := []
  program : Output := {}
  missingPrograms : List String := []
  linter : Output := {}
  /-- Why the linter cannot be run in the server. -/
  linterFault : Option Fault := none
  /-- A text with its formatting mended, none if nothing changes. -/
  mended : Reply (Option String) := .ok none
  reformatted : Reply (Option String) := .ok none
  proposals : Reply (List Proposal) := .ok []
  changes : Reply (List FileChange) := .ok []
  /-- Why a file is no resource of a project. -/
  resource : Option Fault := none
  deriving Inhabited

end LangServer
