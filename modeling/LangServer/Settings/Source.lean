import LangServer.Machine
import LangServer.Settings.Options

/-!
# Settings files of users and projects

Two kinds of settings files are read, each with a section of its own name: one in the user's home
directory, and those of the nearest directory of the project that has any.
-/

namespace LangServer.Settings

/-- A kind of settings files. -/
inductive Source where
  | flake8
  | pycodestyle
  deriving DecidableEq, Repr, Inhabited

namespace Source

/-- The name of the kind, which is also the name of its section. -/
def name : Source → String
  | flake8 => "flake8"
  | pycodestyle => "pycodestyle"

/-- The files that a project keeps its options in. -/
def projectFiles : Source → List String
  | flake8 => [".flake8", "setup.cfg", "tox.ini"]
  | pycodestyle => ["pycodestyle.cfg", "setup.cfg", "tox.ini"]

/-- The file that a user keeps their options in. -/
def userFile (platform : String) : Source → String
  | flake8 =>
    if platform = "win32" then String.ofList Path.home ++ "\\.flake8"
    else String.ofList Path.home ++ "/.config/flake8"
  | pycodestyle => String.ofList Path.home ++ "/.config/pycodestyle"

/-- The options about style that both kinds have, for one of the plugins. -/
def styleOptions (plugin : String) : List FileOption :=
  [⟨"exclude", s!"plugins.{plugin}.exclude", .list⟩,
    ⟨"filename", s!"plugins.{plugin}.filename", .list⟩,
    ⟨"hang-closing", s!"plugins.{plugin}.hangClosing", .bool⟩,
    ⟨"ignore", s!"plugins.{plugin}.ignore", .list⟩,
    ⟨"max-line-length", s!"plugins.{plugin}.maxLineLength", .int⟩,
    ⟨"indent-size", s!"plugins.{plugin}.indentSize", .int⟩,
    ⟨"select", s!"plugins.{plugin}.select", .list⟩]

/-- The options that are read. -/
def options : Source → List FileOption
  | flake8 =>
    ⟨"max-complexity", "plugins.mccabe.threshold", .int⟩ ::
      (styleOptions "pycodestyle" ++ styleOptions "flake8" ++
        [⟨"per-file-ignores", "plugins.flake8.perFileIgnores", .list⟩])
  | pycodestyle =>
    styleOptions "pycodestyle" ++ [⟨"aggressive", "plugins.pycodestyle.aggressive", .int⟩]

def listStyle : Source → ListStyle
  | flake8 => .linesOrCommas
  | pycodestyle => .commas

end Source

/-- Reads those of the files that are there, one after the other. -/
def readFiles (fs : Files) (paths : List String) : Except Fault Ini :=
  paths.foldlM (fun ini path => do
    if fs.isFile path.toList && !fs.isDirectory path.toList then
      match ini.read path (← fs.read path) with
      | .ok ini => return ini
      | .error problem => throw (.badSettings problem)
    else return ini) {}

namespace Source

/-- The settings in some files. -/
def settings (s : Source) (fs : Files) (paths : List String) : Except Fault Value := do
  parse s.listStyle (← readFiles fs paths) s.name s.options

/-- The user's settings. -/
def user (s : Source) (m : Machine) : Except Fault Value :=
  s.settings m.files [s.userFile m.platform]

/-- The settings of the project around a path. -/
def project (s : Source) (m : Machine) (root path : String) : Except Fault Value := do
  s.settings m.files (← m.files.nearest root path s.projectFiles)

/-- The kind of a name, if it can be read here. -/
def ofName? (m : Machine) (name : String) : Option Source :=
  if m.missingSources.contains name then none
  else [flake8, pycodestyle].find? fun s => s.name == name

end Source
end LangServer.Settings
