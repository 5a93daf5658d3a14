import LangServer.Engine.Script

/-!
# Document symbols

The outline of a document: its names with their kinds, places and containers. Classes are entered,
so that their members come right after them; a member that is listed again on its own is told apart
by its place. The settings may leave out names that were imported.
-/

namespace LangServer.Symbols

/-- The kinds that symbols can have, as the engine names them, with the editor's numbers. -/
def kinds : List (String × Int) :=
  [("none", 13), ("type", 5), ("tuple", 5), ("dict", 5), ("dictionary", 5), ("function", 12),
    ("lambda", 12), ("generator", 12), ("class", 5), ("instance", 5), ("method", 6), ("builtin", 5),
    ("builtinfunction", 12), ("module", 2), ("file", 1), ("xrange", 18), ("slice", 5),
    ("traceback", 5), ("frame", 5), ("buffer", 18), ("dictproxy", 5), ("funcdef", 12),
    ("property", 7), ("import", 2), ("keyword", 13), ("constant", 14), ("variable", 13),
    ("value", 13), ("param", 13), ("statement", 13), ("boolean", 17), ("int", 16), ("longlean", 16),
    ("float", 16), ("complex", 16), ("string", 15), ("unicode", 15), ("list", 18), ("field", 8)]

def kindNumber? (kind : String) : Option Int := Value.lookup kind kinds

/-- Where a definition starts and ends. -/
abbrev Span := (Int × Int) × (Int × Int)

/-- A symbol of the outline. -/
structure Symbol where
  name : String
  container : Option String
  span : Span
  kind : Int
  deriving DecidableEq, Repr, Inhabited

/-- What is remembered while the outline is made: the places that are done, the kinds of class
members by place, and the module of the last name that had one. -/
structure Progress where
  done : List Span := []
  members : List (Span × String) := []
  moduleName : Option String := none
  symbols : List Symbol := []
  deriving Inhabited

/-- Parameters, unused variables and names of unknown kinds are left out. -/
def isShown (n : Name) : Bool :=
  n.kind != "param" && n.name != "_" && (kindNumber? n.kind).isSome

/-- The name of what encloses a name, unless that is a whole module. -/
def container (n : Name) : Option String :=
  match n.parent with
  | .ok (some p) =>
    match p.parent with
    | .ok (some _) => some p.name
    | _ => none
  | _ => none

/-- The text before the last point, nothing when there is none. -/
def beforeLastDot (s : String) : List Char :=
  match Text.cutLast? '.' s.toList with
  | some (front, _) => front
  | none => []

/-- Is a module one of the ends of the document's dotted name, or below one? -/
def endsIn (moduleName : List Char) (documentParts : List (List Char)) : Bool :=
  (List.range documentParts.length).any fun i =>
    (List.intercalate ['.'] (documentParts.drop (documentParts.length - (i + 1)))).isPrefixOf
      moduleName

/-- Was a name of this module declared in the document? -/
def isOwn (dotName : String) (moduleName : List Char) : Bool :=
  let document :=
    if "__init__".toList.isSuffixOf dotName.toList then beforeLastDot dotName else dotName.toList
  let documentParts := Text.splitOn '.' document
  document.isPrefixOf moduleName ||
    (documentParts.contains ((Text.splitOn '.' moduleName).headD []) &&
      endsIn moduleName documentParts) ||
    "__main__".toList.isPrefixOf moduleName

/-- Does the code of a line import something? -/
def isImport (code : String) : Bool := Text.contains "import ".toList code.toList

/-- Is the name left out because it was imported?  The module of a name without one is that of the
last name that had one. -/
def isImported (dotName : String) (p : Progress) (n : Name) : Except Fault (Bool × Progress) :=
  if isImport n.lineCode then .ok (true, p)
  else
    match n.fullName with
    | none => .ok (false, p)
    | some full =>
      let p :=
        if full.toList.contains '.' then
          { p with moduleName := some (String.ofList (beforeLastDot full)) }
        else p
      match p.moduleName with
      | none => .error .unassigned
      | some moduleName => .ok (!isOwn dotName moduleName.toList, p)

/-- The kind that a class member has by its place. -/
def memberKind (n : Name) : String :=
  if n.kind = "function" then "method" else if n.kind = "statement" then "field" else n.kind

/-- Remembers the kinds of class members. -/
def addMembers (members : List (Span × String)) : List Name → List (Span × String)
  | [] => members
  | n :: rest => addMembers ((n.span, memberKind n) :: members) rest

/-- What a class defines, which is looked at right after it. -/
def membersOf (n : Name) : List Name :=
  if n.kind = "class" then
    match n.definedNames with
    | .ok inner => inner
    | .error _ => []
  else []

namespace Progress

/-- The kind that a place has as that of a class member. -/
def memberKind? (p : Progress) (span : Span) : Option String :=
  (p.members.find? fun (s, _) => s == span).map (·.2)

/-- The kind of a name in the outline. -/
def kindOf (p : Progress) (n : Name) : String :=
  if n.kind = "statement" ∧ "self".toList.isPrefixOf n.description.toList then "field"
  else (p.memberKind? n.span).getD n.kind

/-- Puts a name into the outline. A class member is done with this. -/
def record (p : Progress) (n : Name) (kind : Int) : Progress :=
  { p with
    done := if (p.memberKind? n.span).isSome then n.span :: p.done else p.done
    members := addMembers p.members (membersOf n)
    symbols := p.symbols ++ [{ name := n.name, container := container n, span := n.span, kind }] }

end Progress

/-- Adds one name to the outline, unless its place is done. The result has the names to be looked at
next. -/
def addSymbol (p : Progress) (n : Name) : Except Fault (List Name × Progress) :=
  if p.done.contains n.span then .ok ([], p)
  else
    match kindNumber? (p.kindOf n) with
    | some kind => .ok (membersOf n, p.record n kind)
    | none => .error (.missingKey (.str (p.kindOf n)))

/-- Is the name defined in the file of the document?  Both files have to be there. -/
def isInFile (fs : Files) (path : String) (n : Name) : Bool :=
  match n.modulePath with
  | some module =>
    fs.isThere path.toList && fs.isThere module.toList &&
      Path.location path.toList == Path.location module.toList
  | none => false

/-- Is the name left out of the outline? -/
def isLeftOut (withImports : Bool) (dotName : String) (isOwnFile : Name → Bool) (p : Progress)
    (n : Name) : Except Fault (Bool × Progress) := do
  if withImports then return (!(isShown n && isOwnFile n), p)
  let (imported, p) ← isImported dotName p n
  return (imported || !(isShown n && isOwnFile n), p)

/-- Looks at one name. The result has the names to be looked at next. -/
def look (withImports : Bool) (dotName : String) (isOwnFile : Name → Bool) (p : Progress)
    (n : Name) : Except Fault (List Name × Progress) :=
  match isLeftOut withImports dotName isOwnFile p n with
  | .ok (true, p) => .ok ([], p)
  | .ok (false, p) => addSymbol p n
  | .error f => .error f

theorem weights_append (ns ms : List Name) :
    Name.weights (ns ++ ms) = Name.weights ns + Name.weights ms := by
  induction ns with
  | nil => simp [Name.weights]
  | cons n ns ih => simp [Name.weights, ih, Nat.add_assoc]

theorem weight_pos (n : Name) : 0 < n.weight := by
  obtain ⟨_, _, _, _, _, _, _, _, _, _, _, _, _, _, definedNames, _⟩ := n
  cases definedNames with
  | error f => simp [Name.weight]
  | ok inner =>
    rw [Name.weight]
    omega

theorem weights_membersOf_lt (n : Name) : Name.weights (membersOf n) < n.weight := by
  have hpos := weight_pos n
  obtain ⟨_, _, _, _, _, _, _, _, _, _, _, _, _, _, definedNames, _⟩ := n
  rw [membersOf]
  split
  · cases definedNames with
    | error f => simpa [Name.weights] using hpos
    | ok inner => simp [Name.weight]
  · simpa [Name.weights] using hpos

/-- What is to be looked at next weighs less than the name. -/
theorem weights_look_lt {withImports : Bool} {dotName : String} {isOwnFile : Name → Bool}
    {p p' : Progress} {n : Name} {next : List Name}
    (h : look withImports dotName isOwnFile p n = .ok (next, p')) :
    Name.weights next < n.weight := by
  have hnil : Name.weights [] < n.weight := by
    rw [Name.weights]
    exact weight_pos n
  rw [look] at h
  split at h
  · cases h
    exact hnil
  · rw [addSymbol] at h
    split at h
    · cases h
      exact hnil
    · split at h
      · cases h
        exact weights_membersOf_lt n
      · cases h
  · cases h

/-- The outline of names, after what is remembered already. -/
def outline (withImports : Bool) (dotName : String) (isOwnFile : Name → Bool) (p : Progress) :
    List Name → Except Fault Progress
  | [] => .ok p
  | n :: rest =>
    match _h : look withImports dotName isOwnFile p n with
    | .ok (next, p) => outline withImports dotName isOwnFile p (next ++ rest)
    | .error f => .error f
termination_by names => Name.weights names
decreasing_by
  rw [weights_append, Name.weights]
  have := weights_look_lt _h
  omega

/-- A symbol for the editor. -/
def Symbol.toValue (uri : String) (s : Symbol) : Value :=
  let ((startLine, startColumn), (endLine, endColumn)) := s.span
  .object [("name", .str s.name), ("containerName", .ofText? s.container),
    ("location", .object [("uri", .str uri),
      ("range", .range (.position (startLine - 1) (.int startColumn))
        (.position (endLine - 1) (.int endColumn)))]),
    ("kind", .int s.kind)]

/-- The symbols of the document. -/
def symbols (c : Caller) : Job Value := do
  let settings ← Host.pluginSettings c.config "jedi_symbols" .null
  let allScopes ← liftExcept (settings.getD "all_scopes" (.bool true))
  let withImports ← liftExcept (settings.getD "include_import_symbols" (.bool true))
  let found ← Engine.names allScopes (.bool true) (.bool false)
  let d ← Job.document
  let fs ← Job.files
  let p ← liftExcept
    (outline withImports.truthy d.dotName (isInFile fs d.path) {} found)
  return .list (p.symbols.map (·.toValue d.uri))

end LangServer.Symbols
