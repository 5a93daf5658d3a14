import LangServer.Text.Basic

/-!
# Paths

Paths are texts whose parts are divided by slashes. Nothing here looks at a file system; relative
paths are read from the root directory.
-/

namespace LangServer.Path

/-- Is the path absolute? -/
def isAbsolute : List Char → Bool
  | '/' :: _ => true
  | _ => false

/-- One path below another; an absolute second path stands alone. -/
def join (a b : List Char) : List Char :=
  if isAbsolute b then b
  else if a.isEmpty || a.getLast? == some '/' then a ++ b
  else a ++ '/' :: b

/-- Several paths, each below the one before. -/
def joinAll : List (List Char) → List Char
  | [] => []
  | p :: rest => rest.foldl join p

/-- The text up to and with the last slash, and the text after it. -/
def splitLast (p : List Char) : List Char × List Char :=
  let tail := (p.reverse.takeWhile (· != '/')).reverse
  (p.take (p.length - tail.length), tail)

/-- The directory of a path, without slashes at its end unless it is made of slashes only. -/
def dirname (p : List Char) : List Char :=
  let head := (splitLast p).1
  if head.all (· == '/') then head else Text.dropEndWhile (· == '/') head

/-- The last part of a path. -/
def basename (p : List Char) : List Char := (splitLast p).2

/-- A file name without its extension. Dots at the start of a name begin no extension. -/
def stem (name : List Char) : List Char :=
  match Text.cutLast? '.' name with
  | some (front, _) => if front.all (· == '.') then name else front
  | none => name

/-- Resolves one part of a path; the parts so far are in reverse. -/
def step (absolute : Bool) (parts : List (List Char)) (part : List Char) : List (List Char) :=
  if part.isEmpty || part == ['.'] then parts
  else if part == ['.', '.'] then
    match parts with
    | [] => if absolute then [] else [part]
    | last :: rest => if last == ['.', '.'] then part :: parts else rest
  else part :: parts

/-- The slashes a path begins with that mean something: none, one, or exactly two. -/
def lead : List Char → List Char
  | '/' :: '/' :: '/' :: _ => ['/']
  | '/' :: '/' :: _ => ['/', '/']
  | '/' :: _ => ['/']
  | _ => []

/-- The path with `.`, `..` and doubled slashes resolved by their text alone. -/
def normalize (p : List Char) : List Char :=
  let slashes := lead p
  let parts := ((Text.splitOn '/' p).foldl (step (!slashes.isEmpty)) []).reverse
  let body := slashes ++ List.intercalate ['/'] parts
  if body.isEmpty then ['.'] else body

/-- The path read from the root directory and resolved. -/
def absolute (p : List Char) : List Char :=
  normalize (if isAbsolute p then p else join ['/'] p)

/-- Where a path leads: read from the root directory and resolved, with one slash at its beginning. -/
def location (p : List Char) : List Char :=
  match absolute p with
  | '/' :: '/' :: rest => '/' :: rest
  | full => full

/-- The nonempty parts of a path read from the root directory. -/
def steps (p : List Char) : List (List Char) :=
  (Text.splitOn '/' (absolute p)).filter (!·.isEmpty)

/-- How many parts two lists begin with in common. -/
def commonLength {α : Type} [BEq α] : List α → List α → Nat
  | a :: as, b :: bs => if a == b then commonLength as bs + 1 else 0
  | _, _ => 0

/-- The way from the directory `start` to `p`, part by part; a dot when they are the same. -/
def relative (p start : List Char) : List (List Char) :=
  let from' := steps start
  let goal := steps p
  let common := commonLength from' goal
  match List.replicate (from'.length - common) ['.', '.'] ++ goal.drop common with
  | [] => [['.']]
  | parts => parts

/-- The user's home directory. -/
def home : List Char := "/home/user".toList

/-- The users that every system has, with their home directories. -/
def systemUsers : List (String × String) :=
  [("root", "/root"), ("daemon", "/usr/sbin"), ("bin", "/bin"), ("sys", "/dev"), ("sync", "/bin"),
    ("games", "/usr/games"), ("man", "/var/cache/man"), ("lp", "/var/spool/lpd"),
    ("mail", "/var/mail"), ("news", "/var/spool/news"), ("uucp", "/var/spool/uucp"),
    ("proxy", "/bin"), ("www-data", "/var/www"), ("backup", "/var/backups"), ("list", "/var/list"),
    ("nobody", "/nonexistent")]

/-- The home directory of a user, if there is such a user; no name means the user of the process. -/
def homeOf? (user : List Char) : Option (List Char) :=
  if user.isEmpty then some home
  else (systemUsers.find? fun (name, _) => name.toList == user).map (·.2.toList)

/-- A leading tilde with the name of a user, or with none, becomes the home directory. -/
def expandHome : List Char → List Char
  | '~' :: rest =>
    match homeOf? (rest.takeWhile (· != '/')) with
    | some dir => dir ++ rest.dropWhile (· != '/')
    | none => '~' :: rest
  | p => p

/-- The variables of the process. -/
def valueOf? (name : List Char) : Option (List Char) :=
  if name = "HOME".toList then some home else none

/-- Every known variable, written `$NAME` or with braces around the name, becomes its value. -/
def expandVariables : Nat → List Char → List Char
  | 0, s => s
  | _, [] => []
  | fuel + 1, '$' :: '{' :: rest =>
    match Text.cutFirst? '}' rest with
    | some (name, more) =>
      match valueOf? name with
      | some value => value ++ expandVariables fuel more
      | none => '$' :: '{' :: (name ++ '}' :: expandVariables fuel more)
    | none => '$' :: '{' :: expandVariables fuel rest
  | fuel + 1, '$' :: rest =>
    let name := rest.takeWhile fun c => c.isAlphanum || c == '_'
    match valueOf? name with
    | some value => value ++ expandVariables fuel (rest.drop name.length)
    | none => '$' :: (name ++ expandVariables fuel (rest.drop name.length))
  | fuel + 1, c :: rest => c :: expandVariables fuel rest

/-- The absolute form of a path a user wrote, with variables and the home directory put in. -/
def resolve (p : List Char) : List Char :=
  absolute (expandHome (expandVariables (p.length + 1) p))

end LangServer.Path
