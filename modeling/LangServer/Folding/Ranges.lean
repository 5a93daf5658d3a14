import LangServer.Folding.Indentation
import LangServer.Host

/-!
# Folding ranges

What can be folded is read off the syntax tree, in document order. A node folds from its first line
to the line before its end; a keyword folds together with the body that follows it. At the first node
that did not parse, the rest is left to the indentation.
-/

namespace LangServer.Folding

/-- A tree to be looked at, and the class of the node it hangs on. -/
structure Visit where
  parent : String
  tree : Tree
  deriving Inhabited

namespace Visit

/-- The children to be looked at. -/
def children (v : Visit) : List Visit := v.tree.children.map fun t => ⟨v.tree.cls, t⟩

/-- How much there is to look at. -/
def total : List Visit → Nat
  | [] => 0
  | v :: rest => v.tree.size + total rest

theorem total_append (a b : List Visit) : total (a ++ b) = total a + total b := by
  induction a with
  | nil => simp [total]
  | cons v rest ih => simp [total, ih]; omega

theorem total_children_lt (v : Visit) : total v.children < v.tree.size := by
  cases v with
  | mk parent tree =>
    cases tree with
    | leaf => simp [children, Tree.children, total, Tree.size]
    | node cls kind cs =>
      have h : ∀ ts : List Tree, total (ts.map fun t => ⟨cls, t⟩) = Tree.sizes ts := by
        intro ts
        induction ts with
        | nil => simp [total, Tree.sizes]
        | cons t rest ih => simp [total, Tree.sizes, ih]
      simp only [children, Tree.children, Tree.cls, Tree.size, h]
      omega

end Visit

/-- Nodes that are passed over, though not what is below them. -/
def isSkipped (t : Tree) : Bool := ["Module", "IfStmt", "TryStmt"].contains t.cls

/-- Functions, with or without a name. -/
def isFunction (cls : String) : Bool := cls == "Function" || cls == "Lambda"

/-- Can the node be folded at all?  Some plain nodes cannot, nor can the body of a function, which
folds with it. -/
def isFoldable (v : Visit) : Bool :=
  if v.tree.cls = "PythonNode" then
    !(["decorated", "parameters", "dictorsetmaker", "testlist_comp"].contains v.tree.kind) &&
      !(v.tree.kind == "suite" && isFunction v.parent)
  else true

/-- How many places after a keyword its body comes. -/
def bodyOffset? (keyword : String) (next : Option Tree) : Option Nat :=
  if ["if", "elif", "with", "while"].contains keyword then some 2
  else if keyword = "except" then
    match next with
    | some t => some (if t.cls = "Operator" then 1 else 2)
    | none => some 0
  else if keyword = "for" then some 4
  else if keyword = "else" then some 1
  else none

/-- The line on which a tree ends. -/
def endLine (t : Tree) : Except Fault Int :=
  match t.endLine? with
  | some l => .ok l
  | none => .error .outOfRange

/-- The line on which a tree starts. -/
def startLine (t : Tree) : Except Fault Int :=
  match t.startLine? with
  | some l => .ok l
  | none => .error .outOfRange

/-- The line on which what folds with a node ends: for most keywords their body, else the node. -/
def foldEnd (t : Tree) (rest : List Visit) : Except Fault Int :=
  if t.cls = "Keyword" then
    match bodyOffset? t.value (rest.head?.map (·.tree)) with
    | some i =>
      match rest[i]? with
      | some body => endLine body.tree
      | none => .error .outOfRange
    | none => endLine t
  else endLine t

/-- Kinds of plain nodes that may fold to their very end. -/
def isBlock (kind : String) : Bool := ["suite", "atom", "atom_expr", "arglist"].contains kind

/-- The range of a node: its first line, and the line before its end. A block in a plain node folds
to its end if what comes next starts there or later. -/
def rangeOf (v : Visit) (rest : List Visit) : Except Fault (Int × Int) := do
  let start ← startLine v.tree
  let _ ← endLine v.tree
  let stop := (← foldEnd v.tree rest) - 1
  if v.parent = "PythonNode" ∧ v.tree.cls ≠ "Keyword" ∧ isBlock v.tree.kind then
    match rest with
    | next :: _ =>
      let line ← startLine next.tree
      return (start, if stop < line then stop + 1 else stop)
    | [] => return (start, stop)
  else return (start, stop)

/-- Ranges by their first line. -/
abbrev Ranges := List (Int × Int)

namespace Ranges

def get? (start : Int) : Ranges → Option Int
  | [] => none
  | (s, e) :: rest => if s = start then some e else get? start rest

def insert (start stop : Int) : Ranges → Ranges
  | [] => [(start, stop)]
  | (s, e) :: rest => if s = start then (s, stop) :: rest else (s, e) :: insert start stop rest

def erase (start : Int) (rs : Ranges) : Ranges := rs.filter fun (s, _) => s != start

/-- Adds a range, if it has more than one line; of two with the same first line the longer stays. -/
def add (rs : Ranges) (range : Int × Int) : Ranges :=
  let (start, stop) := range
  if start < stop then insert start (max ((rs.get? start).getD (-1)) stop) rs else rs

/-- Joins ranges of the tree with those of the indentation. A first line in both keeps the larger of
the indentation's last line and itself. -/
def merge (tree indentation : Ranges) : Ranges :=
  let both := tree.map fun (s, e) =>
    match get? s indentation with
    | some e' => (s, max e' s)
    | none => (s, e)
  both ++ indentation.filter fun (s, _) => (tree.get? s).isNone

/-- Blocks by their first line. Of several with the same first line, the one that was closed last
stays. -/
def ofBlocks (blocks : List (Nat × Nat)) : Ranges :=
  blocks.foldl (fun rs (s, e) => insert (s : Int) (e : Int) rs) []

/-- Ranges in the order of their first lines. -/
def sort (rs : Ranges) : Ranges := rs.mergeSort fun a b => decide (a.1 ≤ b.1)

end Ranges

/-- The ranges of a text by its indentation. -/
def indentationRanges (text : List Char) : Except Fault Ranges := do
  return Ranges.ofBlocks (← byIndentation text)

/-- The text from a line on, with empty lines before it. -/
def textFrom (lines : List (List Char)) (line : Int) : List Char :=
  List.intercalate ['\n'] (List.replicate line.toNat [] ++ Text.after lines line) ++ ['\n']

/-- The ranges by indentation from a line on, counted from zero. -/
def rangesFrom (lines : List (List Char)) (line : Int) : Except Fault Ranges :=
  indentationRanges (textFrom lines line)

/-- Collects the ranges of the trees to be looked at. -/
def collect (lines : List (List Char)) (rs : Ranges) : List Visit → Except Fault Ranges
  | [] => .ok rs
  | v :: rest =>
    if v.tree.cls = "Newline" then collect lines rs rest
    else if v.tree.cls = "PythonErrorNode" then do
      let found ← rangesFrom lines ((← startLine v.tree) - 1)
      return rs.merge found
    else do
      let rs ←
        if !isSkipped v.tree && isFoldable v then do pure (rs.add (← rangeOf v rest))
        else pure rs
      collect lines rs (v.children ++ rest)
termination_by stack => Visit.total stack
decreasing_by
  · simp only [Visit.total]; have := Tree.size_pos v.tree; omega
  · rw [Visit.total_append]; simp only [Visit.total]; have := Visit.total_children_lt v; omega

/-- The ranges of a tree, in order. -/
def ranges (tree : Tree) (lines : List (List Char)) : Except Fault Ranges := do
  return (← collect lines [] [⟨"", tree⟩]).sort

/-- Folding ranges of the document. -/
def foldingRanges : Job Value := do
  let source ← Job.sourceOr .mismatch
  let lines := Text.lineBodies (source.toList ++ ['\n'])
  let found ← liftExcept (ranges (← Job.engines).tree lines)
  return .list (found.map fun (start, stop) =>
    .object [("startLine", .int (start - 1)), ("endLine", .int (stop - 1))])

end LangServer.Folding
