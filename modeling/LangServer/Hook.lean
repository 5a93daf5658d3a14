import LangServer.Completion.Offers
import LangServer.Folding.Ranges
import LangServer.Format
import LangServer.Lint.Flake8
import LangServer.Lint.Mccabe
import LangServer.Lint.Pycodestyle
import LangServer.Lint.Pydocstyle
import LangServer.Lint.Pyflakes
import LangServer.Lint.Pylint
import LangServer.Navigation
import LangServer.Refactoring.Rename
import LangServer.SignatureHelp
import LangServer.Symbols

/-!
# Hooks

A hook is a task that plugins can do. All plugins that can do it are called, the last registered
first, and their answers are collected; for some hooks the first answer is enough. If a plugin fails,
the hook as a whole answers with the empty list.
-/

namespace LangServer

/-- A task for plugins, with its arguments. -/
inductive Hook where
  /-- The server has started. -/
  | start
  | completions (position : Value)
  | resolveCompletion (item : Value)
  | definitions (position : Value)
  | highlights (position : Value)
  | hover (position : Value)
  | references (position : Value) (excludeDeclaration : Bool)
  | rename (position newName : Value)
  | signatureHelp (position : Value)
  | symbols
  | folding
  | formatDocument
  | formatRange (range : Value)
  | lint (isSaved : Bool)
  deriving Inhabited

/-- Loads the modules that the settings name, so that the engines find them loaded. -/
def Host.preload (c : Caller) : Act Unit := do
  let settings ← Host.pluginSettings c.config "preload" .null
  let modules ← liftExcept (do (← settings.getD "modules" (.list [])).elements)
  if !modules.isEmpty then Host.ask (.preload modules)

/-- Diagnostics for the editor. -/
def Diagnostic.listValue (ds : List Diagnostic) : Value := .list (ds.map Diagnostic.toValue)

namespace Hook

/-- How a plugin does a task, if it can. Null is no answer. -/
def implementation? (c : Caller) : Plugin → Hook → Option (Job Value)
  | .autopep8, formatDocument => some (Format.autopep8 c none)
  | .autopep8, formatRange range => some (Format.autopep8Range c range)
  | .yapf, formatDocument => some (Format.yapf none)
  | .yapf, formatRange range => some (Format.yapfRange range)
  | .folding, folding => some Folding.foldingRanges
  | .jediCompletion, completions position => some (Completion.completions c position)
  | .jediCompletion, resolveCompletion item => some (Completion.resolveCompletion item)
  | .ropeCompletion, completions position => some (Completion.proposals c position)
  | .ropeCompletion, resolveCompletion item => some (Completion.resolveProposal item)
  | .jediDefinition, definitions position => some (Navigation.definitions c position)
  | .jediHighlight, highlights position => some (Navigation.highlights position)
  | .jediHover, hover position => some (Hover.hover position)
  | .jediReferences, references position exclude => some (Navigation.references position exclude)
  | .jediRename, rename position name => some (Refactoring.renameByAnalysis c position name)
  | .ropeRename, rename position name => some (Refactoring.renameByRefactoring c position name)
  | .jediSignatureHelp, signatureHelp position => some (SignatureHelp.signatureHelp position)
  | .jediSymbols, symbols => some (Symbols.symbols c)
  | .flake8, lint _ => some (return Diagnostic.listValue (← Lint.Flake8.lint c))
  | .mccabe, lint _ => some (do
    match ← Lint.Mccabe.lint c with
    | some ds => return Diagnostic.listValue ds
    | none => return .null)
  | .pycodestyle, lint _ => some (return Diagnostic.listValue (← Lint.Pycodestyle.lint c))
  | .pydocstyle, lint _ => some (return Diagnostic.listValue (← Lint.Pydocstyle.lint c))
  | .pyflakes, lint _ => some (return Diagnostic.listValue (← Lint.Pyflakes.lint))
  | .pylint, lint isSaved => some (return Diagnostic.listValue (← Lint.Pylint.lint c isSaved))
  | .preload, start => some (do Host.preload c; return .null)
  | _, _ => none

/-- Is the first answer enough? -/
def takesFirst : Hook → Bool
  | resolveCompletion _ | formatDocument | formatRange _ | hover _ | rename .. | signatureHelp _ => true
  | _ => false

/-- Is the plugin called before all others for this task? -/
def isPreferred : Plugin → Hook → Bool
  | .autopep8, formatDocument | .autopep8, formatRange _ => true
  | _, _ => false

/-- Plugins in the order in which they are called: preferred ones first, then the last registered. -/
def order (h : Hook) (plugins : List Plugin) : List Plugin :=
  let called := plugins.reverse
  called.filter (isPreferred · h) ++ called.filter fun p => !isPreferred p h

/-- The answers of jobs that are done in turn. -/
def collect : List (Job Value) → Job (List Value)
  | [] => return []
  | job :: rest => do
    let answer ← job
    let answers ← collect rest
    return if answer.isNull then answers else answer :: answers

/-- The first answer of jobs that are done in turn; null if none answers. -/
def first : List (Job Value) → Job Value
  | [] => return .null
  | job :: rest => do
    let answer ← job
    if answer.isNull then first rest else return answer

/-- Has the plugins do the task. -/
def perform (c : Caller) (h : Hook) (plugins : List Plugin) : Job Value :=
  let jobs := (h.order plugins).filterMap fun p => implementation? c p h
  if h.takesFirst then first jobs else return .list (← collect jobs)

/-- Has the plugins do the task; a failure gives the empty list. -/
def call (c : Caller) (h : Hook) (plugins : List Plugin) (desk : Desk) : Value × Desk :=
  match perform c h plugins desk with
  | .ok answer desk => (answer, desk)
  | .error _ desk => (.list [], desk)

end Hook
end LangServer
