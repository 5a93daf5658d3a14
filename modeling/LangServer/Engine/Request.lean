import LangServer.Value.Basic

/-!
# What engines are asked

Every question that the server puts to an engine, to a program it starts or to the editor, in the
order in which they are put.
-/

namespace LangServer

/-- A question to an engine. -/
inductive Request where
  | createEnvironment (path : Value) (vars : Value)
  /-- Loads a source text for questions about it. -/
  | script (code : Value) (path : String) (environment : Value) (project : String) (searchPath : List Value)
  /-- A question about a loaded source text. -/
  | ask (question : String) (args : List (String × Value))
  | signatures (name : String)
  | parse (code : String)
  | styleGuide (options : List (String × Value))
  | flakes (source path : String)
  | docstyle (args : List String)
  /-- Starts a program. -/
  | start (command : List Value)
  | feed (input : String)
  | lint (command : String)
  | mend (source : String) (options : List (String × Value))
  | reformat (source : String) (lines : Option (Int × Int)) (file directory : String)
  | openProject (root : String) (folder : Value)
  | setPreference (key : String) (value : Value)
  | validate
  | assist (source : String) (offset : Int) (path : String)
  | rename (path : String) (offset : Int)
  | computeChanges (newName : Value)
  | preload (modules : List Value)
  | openProcess (access inherit pid : Int)
  | closeHandle (handle : Int)
  /-- A request to the editor. -/
  | editorRequest (method : String) (params : Value)
  /-- A notification to the editor. -/
  | editorNotify (method : String) (params : Value)
  deriving Repr, Inhabited

end LangServer
