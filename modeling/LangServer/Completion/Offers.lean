import LangServer.Completion.Item
import LangServer.Refactoring.Project

/-!
# Completions

Two engines complete: the analysis engine offers names, the refactoring engine makes proposals. Each
remembers on the document what it offered last, by label, so that an item can be resolved later.
-/

namespace LangServer.Completion

/-- Items with what they were made from, by label; of equal labels the last one stays. -/
def byLabel {α : Type} (offers : List (Item × α)) : List (String × Offer α) :=
  offers.foldl (fun table (item, made) =>
    match Value.lookup "label" item with
    | some (.str label) => Value.insert label { item, made } table
    | _ => table) []

/-- Resolves an item: by the offer with its label, if there is one. -/
def resolveOffer {α : Type} (offers : Option (List (String × Offer α)))
    (complete : Item → α → Except Fault Item) (name : String) (given : Value) :
    Except Fault (Value × Option (List (String × Offer α))) :=
  match offers with
  | none => .error (.missingKey (.str name))
  | some table => do
    let label ← given.item "label"
    if !label.isHashable then throw .mismatch
    match label with
    | .str key =>
      match Value.lookup key table with
      | some offer =>
        let item ← complete offer.item offer.made
        return (.object item, some (Value.insert key { offer with item } table))
      | none => return (given, offers)
    | _ => return (given, offers)

/-- Are snippets offered at a position? -/
def usesSnippets (position : Value) : Job Bool := do
  let _ ← liftExcept (position.item "line")
  let code ← liftExcept (statementAt (← Job.source).toList position)
  Job.ask (.parse (String.ofList code))
  return allowsSnippets (← Job.engines).statementKind code

/-- Does the editor support snippets? -/
def snippetSupport (capabilities : Value) : Except Fault Value := do
  let textDocument ← capabilities.getD "textDocument" (.object [])
  let completion ← textDocument.getD "completion" (.object [])
  (← completion.getD "completionItem" (.object [])).get "snippetSupport"

/-- The name under which the offers of the analysis engine are kept. -/
def offersName : String := "LAST_JEDI_COMPLETIONS"

/-- The name under which the proposals of the refactoring engine are kept. -/
def proposalsName : String := "LAST_ROPE_COMPLETIONS"

/-- An item that knows its document. -/
def withDocument (uri : String) (item : Item) : Item :=
  Value.insert "data" (.object [("doc_uri", .str uri)]) item

/-- The places in a list that are below a limit, which may be any number. -/
def placesBelow : Value → Except Fault (Nat → Bool)
  | .num limit => .ok fun i => limit.exceeds i
  | v => do
    let limit ← v.number
    return fun i => decide ((i : Int) < limit)

/-- The items for names, those at some places with the help of the resolvers. -/
def makeItems (snippet eager : Bool) (within : Nat → Bool) (names : List Name) : Act (List Item) :=
  names.zipIdx.mapM fun (n, i) => makeItem n { snippet, eager, resolvers := within i }

/-- One more item for every class, as an object. -/
def makeObjects (eager : Bool) (within : Nat → Bool) (names : List Name) : Act (List Item) :=
  (names.zipIdx.filter fun (n, _) => n.kind == "class").mapM fun (n, i) => do
    return asObject (← makeItem n { snippet := false, eager, resolvers := within i })

/-- Sets the modules whose completions the resolvers keep, unless they are null. -/
def keepModules (modules : Value) : Job Unit := do
  if !modules.isNull then
    let h := (← get).host
    let labels ← liftExcept (h.labels.setModules modules)
    let snippets ← liftExcept (h.snippets.setModules modules)
    modify fun desk => { desk with host := { desk.host with labels, snippets } }

/-- Are snippets wanted and offered at a position? -/
def wantsSnippets (wanted : Bool) (position : Value) : Job Bool :=
  if wanted then usesSnippets position else return false

/-- Offers names: the items for them, which are kept, and perhaps one more for every class. -/
def offerNames (params objects eager : Bool) (within : Nat → Bool) (names : List Name) :
    Job Value := do
  let items ← makeItems params eager within names
  let extra ← (if objects then makeObjects eager within names else pure [] : Act (List Item))
  let d ← Job.document
  let items := items.map (withDocument d.uri)
  Job.setDocument { d with offers := some (byLabel (items.zip names)) }
  return .list ((items ++ extra.map (withDocument d.uri)).map .object)

/-- Completions by the analysis engine. -/
def completions (c : Caller) (position : Value) : Job Value := do
  let path ← Job.pathValue
  let settings ← Host.pluginSettings c.config "jedi_completion" path
  let eager ← liftExcept (settings.getD "eager" (.bool false))
  let place ← Job.place position
  let fuzzy ← liftExcept (settings.getD "fuzzy" (.bool false))
  let names ← Engine.query true "complete" (place ++ [("fuzzy", fuzzy)]) (·.completions)
  if names.isEmpty then return .null
  let support ← liftExcept (snippetSupport (← Host.config c.config).capabilities)
  let withParams ← liftExcept (settings.get "include_params")
  let withObjects ← liftExcept (settings.getD "include_class_objects" (.bool true))
  let limit ← liftExcept (settings.getD "resolve_at_most" (.int 25))
  keepModules (← liftExcept (settings.get "cache_for"))
  let params ← wantsSnippets (support.truthy && withParams.truthy) position
  let objects ← wantsSnippets (support.truthy && withObjects.truthy) position
  offerNames params objects eager.truthy (← liftExcept (placesBelow limit)) names

/-- Resolves an item of the analysis engine. -/
def resolveCompletion (given : Value) : Job Value := do
  let d ← Job.document
  let (item, offers) ← liftExcept (resolveOffer d.offers resolveItem offersName given)
  Job.setDocument { d with offers }
  return item

/-! ## Proposals of the refactoring engine -/

/-- Kinds of proposals, with the editor's numbers. -/
def proposalKinds : List (String × Int) :=
  [("none", 12), ("type", 7), ("tuple", 7), ("dict", 7), ("dictionary", 7), ("function", 3),
    ("lambda", 3), ("generator", 3), ("class", 7), ("instance", 18), ("method", 2), ("builtin", 7),
    ("builtinfunction", 3), ("module", 9), ("file", 17), ("xrange", 7), ("slice", 7),
    ("traceback", 7), ("frame", 7), ("buffer", 7), ("dictproxy", 7), ("funcdef", 3),
    ("property", 10), ("import", 9), ("keyword", 14), ("constant", 6), ("variable", 6), ("value", 12),
    ("param", 6), ("statement", 14)]

/-- Hidden names come last, and built-in ones before them. -/
def proposalSortText (p : Proposal) : String :=
  (if isHidden p.name then "z" else if p.scope = some "builtin" then "y" else "a") ++ p.name

/-- Adds detail and documentation to the item of a proposal. -/
def resolveProposalItem (item : Item) (p : Proposal) : Item :=
  let doc : Value :=
    match p.doc with
    | .ok doc => .ofText? doc
    | .error _ => .str ""
  Value.insert "documentation" doc
    (Value.insert "detail" (.str (p.scope.getD "" ++ " " ++ p.name)) item)

/-- The item for a proposal. -/
def proposalItem (uri : String) (eager : Bool) (p : Proposal) : Item :=
  let item := withDocument uri [("label", .str p.name),
    ("kind", p.kind.elim .null (kindValue proposalKinds)), ("sortText", .str (proposalSortText p))]
  if eager then resolveProposalItem item p else item

/-- Completions by the refactoring engine; none right after the word `import`. -/
def proposals (c : Caller) (position : Value) : Job Value := do
  let d ← Job.document
  let settings ← Host.pluginSettings c.config "rope_completion" (.str d.path)
  let eager ← liftExcept (settings.getD "eager" (.bool false))
  let line ← liftExcept (position.item "line")
  let character ← liftExcept (do (← position.item "character").number)
  let fs ← Job.files
  let word ← liftExcept (d.word fs
    (.object [("line", line), ("character", .int (max (character - 1) 0))]))
  if word = "import" then return .null
  let offset ← liftExcept (d.offsetAt fs position)
  let projectSettings ← Refactoring.settings c
  Refactoring.ensureProject c.space projectSettings
  Refactoring.ensureProject d.home projectSettings
  Refactoring.checkResource
  Job.ask (.assist (← Job.source) offset d.path)
  match (← Job.engines).proposals with
  | .error _ => return .list []
  | .ok found =>
    let items := found.map (proposalItem d.uri eager.truthy)
    Job.setDocument { d with proposals := some (byLabel (items.zip found)) }
    return if items.isEmpty then .null else .list (items.map .object)

/-- Resolves an item of the refactoring engine. -/
def resolveProposal (given : Value) : Job Value := do
  let d ← Job.document
  let complete := fun item p => Except.ok (resolveProposalItem item p)
  let (item, proposals) ← liftExcept (resolveOffer d.proposals complete proposalsName given)
  Job.setDocument { d with proposals }
  return item

end LangServer.Completion
