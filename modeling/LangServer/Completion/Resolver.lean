import LangServer.Engine.Answer
import LangServer.Text.Basic
import LangServer.Value.Access

/-!
# Resolving labels and snippets

The label and the snippet of a completion need its signatures, which are slow to get, so both are
kept for completions of some large modules. A completion is told apart by its full name, its place
and the current period of time; keys are kept in one bucket for each period.

A step reads the clock up to four times, and every reading may give another time.
-/

namespace LangServer.Completion

/-- What a kept completion is known by. -/
structure Key where
  fullName : String
  modulePath : Option String
  line : Option Int
  column : Option Int
  period : Int
  deriving DecidableEq, Repr, Inhabited

/-- What is made of a completion and its signatures. -/
inductive Product where
  | label
  | snippet
  deriving DecidableEq, Repr, Inhabited

/-- The table of resolved completions. -/
structure Resolver where
  product : Product
  /-- The result when the signatures cannot be had. -/
  onError : Value
  /-- How many seconds a period lasts. -/
  lifetime : Int := 1800
  /-- The modules whose completions are kept. -/
  modules : List Value := ["pandas", "numpy", "tensorflow", "matplotlib"].map .str
  kept : List (Key × Value) := []
  buckets : List (Int × List Key) := []
  deriving Inhabited

/-- The times that the clock gives in one step: for the key, for the decision to sweep, for the
sweep, and for the bucket. -/
structure Readings where
  key : Int
  decide : Int
  sweep : Int
  bucket : Int
  deriving DecidableEq, Repr, Inhabited

/-- A label: the name, with the parameters of a function or method. -/
def label (n : Name) (signatures : List Signature) : Value :=
  match signatures with
  | s :: _ =>
    if n.kind = "function" ∨ n.kind = "method" then
      .str (n.name ++ "(" ++ String.intercalate ", " (s.params.map (·.name)) ++ ")")
    else .str n.name
  | [] => .str n.name

/-- The parameters that have to be given by position. -/
def positional (s : Signature) : List Param :=
  s.params.filter fun p => !p.description.toList.contains '=' && p.name != "/" && p.name != "*"

/-- The places of a snippet to be filled in, numbered from `i`. -/
def placeholders (i : Nat) : List Param → List String
  | [] => []
  | p :: rest => (r"${" ++ toString i ++ ":" ++ p.name ++ r"}") :: placeholders (i + 1) rest

/-- A snippet that calls the completion, as members of a completion item. -/
def snippet (n : Name) (signatures : List Signature) : Value :=
  match signatures with
  | [] => .object []
  | s :: _ =>
    match positional s with
    | [] => .object [("insertText", .str (n.name ++ "()"))]
    | [_] =>
      .object [("insertTextFormat", .int 2), ("insertText", .str (n.name ++ "($0)"))]
    | params =>
      let call := n.name ++ "(" ++ String.intercalate ", " (placeholders 1 params) ++ ")$0"
      .object [("insertTextFormat", .int 2), ("insertText", .str call)]

namespace Resolver

/-- The result for a completion, computed anew. -/
def resolve (r : Resolver) (n : Name) : Value :=
  match n.signatures, r.product with
  | .ok signatures, .label => label n signatures
  | .ok signatures, .snippet => snippet n signatures
  | .error _, _ => r.onError

/-- The period of a time. Parts of a period are cut off toward zero. -/
def period (r : Resolver) (time : Int) : Except Fault Int :=
  if r.lifetime = 0 then .error (.reported "ZeroDivisionError" "division by zero")
  else .ok (time.tdiv r.lifetime)

/-- Forgets one completion. It is a fault when the completion is not kept. -/
def forget (kept : List (Key × Value)) (k : Key) : Except Fault (List (Key × Value)) :=
  if (kept.map (·.1)).contains k then .ok (kept.filter fun (k', _) => !decide (k' = k))
  else .error (.missingKey .null)

/-- Forgets the completions of all periods before the current one, a key at a time. -/
def sweep (r : Resolver) (now : Int) : Except Fault Resolver := do
  let old := (r.buckets.filter fun (t, _) => decide (t < now)).flatMap (·.2)
  return { r with
    kept := ← old.foldlM forget r.kept
    buckets := r.buckets.filter fun (t, _) => !decide (t < now) }

/-- Files a key in the bucket of a period. -/
def addKey (period : Int) (k : Key) : List (Int × List Key) → List (Int × List Key)
  | [] => [(period, [k])]
  | (t, ks) :: rest =>
    if t = period then (t, if ks.contains k then ks else ks ++ [k]) :: rest
    else (t, ks) :: addKey period k rest

/-- Is the completion of a module whose completions are kept? -/
def isKept (r : Resolver) (fullName : String) : Bool :=
  match Text.splitOn '.' fullName.toList with
  | m :: _ => r.modules.any fun v => decide (v = .str (String.ofList m))
  | [] => false

/-- The key of a completion with a full name. -/
def keyOf (n : Name) (fullName : String) (period : Int) : Key :=
  { fullName, modulePath := n.modulePath, line := n.line, column := n.column, period }

/-- The result for a completion, the resolver afterwards, and whether the signatures were asked
for. -/
def step (r : Resolver) (readings : Readings) (n : Name) :
    Except Fault (Value × Resolver × Bool) :=
  match n.fullName with
  | none => .ok (r.resolve n, r, true)
  | some fullName =>
    if fullName.isEmpty || !r.isKept fullName then .ok (r.resolve n, r, true)
    else do
      let k := keyOf n fullName (← r.period readings.key)
      match r.kept.find? fun (k', _) => decide (k' = k) with
      | some (_, v) => .ok (v, r, false)
      | none =>
        let r ← if (← r.period readings.decide) % 2 = 0 then r.sweep (← r.period readings.sweep)
          else .ok r
        let v := r.resolve n
        .ok (v, { r with
          kept := r.kept ++ [(k, v)]
          buckets := addKey (← r.period readings.bucket) k r.buckets }, true)

/-- A step while the clock stands still. -/
def get (r : Resolver) (time : Int) (n : Name) : Except Fault (Value × Resolver × Bool) :=
  r.step ⟨time, time, time, time⟩ n

/-- Sets the modules whose completions are kept. -/
def setModules (r : Resolver) (v : Value) : Except Fault Resolver := do
  let items ← v.elements
  if items.all Value.isHashable then return { r with modules := Value.distinct [] items }
  else throw .mismatch

end Resolver
end LangServer.Completion
