import LangServer.Settings.Merge

/-!
# The settings cache

Computed settings are kept for the last thirty-two questions, over all configurations together. A
question is told apart by how it is put: without a path, with a path, or with a path by name.
-/

namespace LangServer.Settings

/-- How the settings are asked for. -/
inductive Query where
  | plain
  | given (path : Value)
  | named (path : Value)
  deriving DecidableEq, Repr, Inhabited

/-- The path that a question names, null if none. -/
def Query.path : Query → Value
  | plain => .null
  | given path | named path => path

/-- Settings as they were computed. `clientsIgnores` says that the list of ignored codes in them is
the client's own list and not a list made while merging. -/
structure Settled where
  value : Value
  clientsIgnores : Bool := false
  deriving DecidableEq, Repr, Inhabited

/-- An answer that is kept, with the configuration it belongs to. -/
structure Entry where
  owner : Nat
  query : Query
  settled : Settled
  deriving DecidableEq, Repr, Inhabited

/-- The answers that are kept, the last used first. -/
structure Cache where
  entries : List Entry := []
  deriving DecidableEq, Repr, Inhabited

namespace Cache

/-- How many answers are kept. -/
def capacity : Nat := 32

/-- Is this the answer to the question? -/
def answers (owner : Nat) (query : Query) (e : Entry) : Bool :=
  e.owner == owner && decide (e.query = query)

def find? (c : Cache) (owner : Nat) (query : Query) : Option Entry :=
  c.entries.find? (answers owner query)

/-- Puts an entry first. -/
def put (c : Cache) (e : Entry) : Cache :=
  ⟨(e :: c.entries.filter fun f => !answers e.owner e.query f).take capacity⟩

/-- The answer to a question, computed if it is not kept. A failure is not kept. -/
def fetch (c : Cache) (owner : Nat) (query : Query) (compute : Except Fault Settled) :
    Except Fault Settled × Cache :=
  match c.find? owner query with
  | some e => (.ok e.settled, c.put e)
  | none =>
    match compute with
    | .ok settled => (.ok settled, c.put ⟨owner, query, settled⟩)
    | .error f => (.error f, c)

end Cache
end LangServer.Settings
