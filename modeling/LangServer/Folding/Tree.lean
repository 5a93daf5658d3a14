/-!
# Syntax trees

A tree as the parser gives it: inner nodes with children, and leaves with their value and place.
Lines count from one.
-/

namespace LangServer.Folding

/-- A syntax tree. The class of a node is coarser than its kind. -/
inductive Tree where
  | node (cls kind : String) (children : List Tree)
  | leaf (cls kind value : String) (startLine startColumn endLine endColumn : Int)
  deriving Repr, Inhabited

namespace Tree

def cls : Tree → String
  | node c .. | leaf c .. => c

def kind : Tree → String
  | node _ k _ => k
  | leaf _ k .. => k

/-- The children of a node; a leaf has none. -/
def children : Tree → List Tree
  | node _ _ cs => cs
  | leaf .. => []

def value : Tree → String
  | node .. => ""
  | leaf _ _ v .. => v

mutual

/-- The first leaf, if the tree has any. -/
def firstLeaf? : Tree → Option Tree
  | node _ _ cs => firstLeafOf? cs
  | leaf a b c d e f g => some (leaf a b c d e f g)

/-- The first leaf of the first tree. -/
def firstLeafOf? : List Tree → Option Tree
  | [] => none
  | t :: _ => firstLeaf? t

end

mutual

/-- The last leaf, if the tree has any. -/
def lastLeaf? : Tree → Option Tree
  | node _ _ cs => lastLeafOf? cs
  | leaf a b c d e f g => some (leaf a b c d e f g)

/-- The last leaf of the last tree. -/
def lastLeafOf? : List Tree → Option Tree
  | [] => none
  | [t] => lastLeaf? t
  | _ :: rest => lastLeafOf? rest

end

/-- The line on which the tree starts. -/
def startLine? (t : Tree) : Option Int :=
  match t.firstLeaf? with
  | some (leaf _ _ _ l _ _ _) => some l
  | _ => none

/-- The line on which the tree ends. -/
def endLine? (t : Tree) : Option Int :=
  match t.lastLeaf? with
  | some (leaf _ _ _ _ _ l _) => some l
  | _ => none

mutual

/-- The number of nodes and leaves. -/
def size : Tree → Nat
  | node _ _ cs => 1 + sizes cs
  | leaf .. => 1

/-- The number of nodes and leaves of some trees. -/
def sizes : List Tree → Nat
  | [] => 0
  | t :: rest => size t + sizes rest

end

theorem size_pos (t : Tree) : 0 < t.size := by
  cases t with
  | node => rw [size]; omega
  | leaf => rw [size]; omega

end Tree
end LangServer.Folding
