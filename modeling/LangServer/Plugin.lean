import LangServer.Settings.Merge

/-!
# Plugins

The server's abilities come from plugins, which the settings can switch off by name. A plugin may
bring default settings. This module fixes the names of the plugins, their order and their defaults.
-/

namespace LangServer

/-- The plugins, in the order in which they are registered. -/
inductive Plugin where
  | autopep8
  | flake8
  | folding
  | jediCompletion
  | jediDefinition
  | jediHighlight
  | jediHover
  | jediReferences
  | jediRename
  | jediSignatureHelp
  | jediSymbols
  | mccabe
  | preload
  | pycodestyle
  | pydocstyle
  | pyflakes
  | pylint
  | ropeCompletion
  | ropeRename
  | yapf
  deriving DecidableEq, Repr, Inhabited

namespace Plugin

def all : List Plugin :=
  [autopep8, flake8, folding, jediCompletion, jediDefinition, jediHighlight, jediHover,
    jediReferences, jediRename, jediSignatureHelp, jediSymbols, mccabe, preload, pycodestyle,
    pydocstyle, pyflakes, pylint, ropeCompletion, ropeRename, yapf]

theorem mem_all (p : Plugin) : p ∈ all := by cases p <;> decide

/-- The name under which the settings know a plugin. -/
def name : Plugin → String
  | autopep8 => "autopep8"
  | flake8 => "flake8"
  | folding => "folding"
  | jediCompletion => "jedi_completion"
  | jediDefinition => "jedi_definition"
  | jediHighlight => "jedi_highlight"
  | jediHover => "jedi_hover"
  | jediReferences => "jedi_references"
  | jediRename => "jedi_rename"
  | jediSignatureHelp => "jedi_signature_help"
  | jediSymbols => "jedi_symbols"
  | mccabe => "mccabe"
  | preload => "preload"
  | pycodestyle => "pycodestyle"
  | pydocstyle => "pydocstyle"
  | pyflakes => "pyflakes"
  | pylint => "pylint"
  | ropeCompletion => "rope_completion"
  | ropeRename => "rope_rename"
  | yapf => "yapf"

/-- The modules that are loaded ahead of time unless the settings say otherwise. -/
def preloadModules : List String :=
  ["OpenGL", "PIL", "array", "audioop", "binascii", "cPickle", "cStringIO", "cmath", "collections",
    "datetime", "errno", "exceptions", "gc", "imageop", "imp", "itertools", "marshal", "math",
    "matplotlib", "mmap", "mpmath", "msvcrt", "networkx", "nose", "nt", "numpy", "operator", "os",
    "os.path", "pandas", "parser", "rgbimg", "scipy", "signal", "skimage", "sklearn", "statsmodels",
    "strop", "sympy", "sys", "thread", "time", "wx", "xxsubtype", "zipimport", "zlib"]

/-- Settings of one plugin. -/
def inSection (name : String) (members : List (String × Value)) : Value :=
  .object [("plugins", .object [(name, .object members)])]

/-- The default settings that a plugin brings. -/
def defaults? : Plugin → Option Value
  | flake8 => some (inSection "flake8" [("enabled", .bool false)])
  | preload =>
    some (.object
      [("plugins", .object [("preload", .object [("modules", .texts preloadModules)])]),
        ("rope", .object [("extensionModules", .texts preloadModules)])])
  | pydocstyle => some (inSection "pydocstyle" [("enabled", .bool false)])
  | pylint =>
    some (inSection "pylint"
      [("enabled", .bool false), ("args", .list []), ("executable", .null)])
  | ropeCompletion =>
    some (inSection "rope_completion" [("enabled", .bool false), ("eager", .bool false)])
  | ropeRename => some (inSection "rope_rename" [("enabled", .bool false)])
  | _ => none

/-- The default settings of some plugins, given in order of registration; the last comes first. -/
def defaults (plugins : List Plugin) : Except Fault Value :=
  (plugins.reverse.filterMap defaults?).foldlM Settings.merge (.object [])

end Plugin
end LangServer
