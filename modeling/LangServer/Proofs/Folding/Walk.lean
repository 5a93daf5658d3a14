import LangServer.Proofs.Action
import LangServer.Proofs.Folding.Tables

/-!
# The walk over a syntax tree

The walk keeps a stack of the trees that are still to be looked at. When it looks at a node, the
stack holds the frontier of the node: what stands to its right, then what stands to the right of its
parent, and so on up. The range of a node may depend on its frontier.

* `Tree.moments` lists the nodes in document order, each with its frontier, by recursion on the
  tree. Line ends are left out.
* `collect_eq` says that the walk looks at just these, in this order, up to the first node that did
  not parse, and `collectSeen_eq` that it records them so.
* `longest_foldlM_look` says what is kept: for each first line the longest range.
-/

namespace LangServer.Folding

/-- A moment of the walk: the node that is looked at, and what is still to be looked at. -/
structure Moment where
  visit : Visit
  rest : List Visit
  deriving Inhabited

namespace Moment

/-- Did the node not parse? -/
def isError (m : Moment) : Bool := m.visit.tree.cls == "PythonErrorNode"

/-- Is the node one that folds? -/
def folds (m : Moment) : Bool := !isSkipped m.visit.tree && isFoldable m.visit

/-- The range of the node. -/
def range (m : Moment) : Except Fault (Int × Int) := rangeOf m.visit m.rest

/-- The range of the node is added to those found before. -/
def look (rs : Ranges) (m : Moment) : Except Fault Ranges :=
  if m.folds then do return rs.add (← m.range) else return rs

end Moment

/-! ## Document order -/

mutual

/-- The nodes of a tree, in document order. -/
def Tree.nodes : Tree → List Tree
  | .leaf a b c d e f g => [.leaf a b c d e f g]
  | .node cls kind cs => .node cls kind cs :: Tree.nodesOf cs

/-- The nodes of some trees, in document order. -/
def Tree.nodesOf : List Tree → List Tree
  | [] => []
  | t :: ts => t.nodes ++ Tree.nodesOf ts

end

mutual

/-- The nodes of a tree in document order, each with its frontier. The frontier of the tree itself
is `rest`, and it hangs on a node of the class `parent`. -/
def Tree.moments (rest : List Visit) (parent : String) : Tree → List Moment
  | .leaf cls b c d e f g =>
    if cls = "Newline" then [] else [⟨⟨parent, .leaf cls b c d e f g⟩, rest⟩]
  | .node cls kind cs =>
    if cls = "Newline" then []
    else ⟨⟨parent, .node cls kind cs⟩, rest⟩ :: Tree.momentsOf rest cls cs

/-- The nodes of siblings, each with its frontier. -/
def Tree.momentsOf (rest : List Visit) (parent : String) : List Tree → List Moment
  | [] => []
  | t :: ts => t.moments (ts.map (⟨parent, ·⟩) ++ rest) parent ++ Tree.momentsOf rest parent ts

end

/-- The moments at which the trees on a stack are looked at. -/
def Visit.moments : List Visit → List Moment
  | [] => []
  | v :: rest => v.tree.moments rest v.parent ++ moments rest

theorem Visit.moments_map_append (parent : String) (ts : List Tree) (rest : List Visit) :
    moments (ts.map (⟨parent, ·⟩) ++ rest) = Tree.momentsOf rest parent ts ++ moments rest := by
  induction ts with
  | nil => rfl
  | cons t ts ih =>
    rw [List.map_cons, List.cons_append, moments, ih, Tree.momentsOf, List.append_assoc]

theorem Visit.moments_of_newline {v : Visit} (h : v.tree.cls = "Newline") (rest : List Visit) :
    moments (v :: rest) = moments rest := by
  obtain ⟨parent, tree⟩ := v
  rw [moments]
  cases tree <;> simp_all [Tree.moments, Tree.cls]

theorem Visit.moments_cons {v : Visit} (h : v.tree.cls ≠ "Newline") (rest : List Visit) :
    moments (v :: rest) = ⟨v, rest⟩ :: moments (v.children ++ rest) := by
  obtain ⟨parent, tree⟩ := v
  cases tree with
  | leaf => simp_all [moments, Tree.moments, Tree.cls, Visit.children, Tree.children]
  | node cls kind cs =>
    have h : cls ≠ "Newline" := h
    rw [Visit.children, Visit.moments_map_append, moments, Tree.moments, if_neg h]
    rfl

/-! ## The walk -/

/-- The stack gets smaller: a line end is dropped, and any other tree gives way to its children. -/
theorem Visit.stack_induction {motive : List Visit → Prop} (nil : motive [])
    (newline : ∀ v rest, v.tree.cls = "Newline" → motive rest → motive (v :: rest))
    (other : ∀ v rest, v.tree.cls ≠ "Newline" → motive (v.children ++ rest) → motive (v :: rest)) :
    ∀ stack, motive stack
  | [] => nil
  | v :: rest =>
    if h : v.tree.cls = "Newline" then newline v rest h (stack_induction nil newline other rest)
    else other v rest h (stack_induction nil newline other (v.children ++ rest))
termination_by stack => Visit.total stack
decreasing_by
  · simp only [Visit.total]
    have := Tree.size_pos v.tree
    omega
  · rw [Visit.total_append]
    simp only [Visit.total]
    have := Visit.total_children_lt v
    omega

variable {lines : List (List Char)} {rs : Ranges} {v : Visit} {rest : List Visit}

theorem collect_of_newline (h : v.tree.cls = "Newline") :
    collect lines rs (v :: rest) = collect lines rs rest := by
  rw [collect, if_pos h]

theorem collect_of_error (h : v.tree.cls = "PythonErrorNode") :
    collect lines rs (v :: rest) = do
      return rs.merge (← rangesFrom lines ((← startLine v.tree) - 1)) := by
  rw [collect, if_neg (by rw [h]; decide), if_pos h]

theorem collect_of_parsed (hnewline : v.tree.cls ≠ "Newline")
    (herror : v.tree.cls ≠ "PythonErrorNode") :
    collect lines rs (v :: rest) =
      (Moment.look rs ⟨v, rest⟩ >>= fun rs => collect lines rs (v.children ++ rest)) := by
  rw [collect, if_neg hnewline, if_neg herror, Moment.look, Moment.folds, Moment.range]
  split
  · cases rangeOf v rest <;> rfl
  · rfl

/-- **The walk looks at the nodes in document order.** Each is looked at with its frontier, up to
the first that did not parse; from there on the ranges are those of the indentation. -/
theorem collect_eq (lines : List (List Char)) (rs : Ranges) (stack : List Visit) :
    collect lines rs stack = do
      let rs ← ((Visit.moments stack).takeWhile (!·.isError)).foldlM Moment.look rs
      match (Visit.moments stack).find? (·.isError) with
      | none => return rs
      | some m => return rs.merge (← rangesFrom lines ((← startLine m.visit.tree) - 1)) := by
  induction stack using Visit.stack_induction generalizing rs with
  | nil => rw [collect]; rfl
  | newline v rest h ih => rw [collect_of_newline h, Visit.moments_of_newline h, ih]
  | other v rest h ih =>
    rw [Visit.moments_cons h]
    by_cases herror : v.tree.cls = "PythonErrorNode"
    · have hm : Moment.isError ⟨v, rest⟩ = true := beq_iff_eq.2 herror
      rw [collect_of_error herror, List.takeWhile_cons, List.find?_cons, hm]
      rfl
    · have hm : Moment.isError ⟨v, rest⟩ = false := beq_false_of_ne herror
      rw [collect_of_parsed h herror, List.takeWhile_cons, List.find?_cons, hm]
      simp only [ih, Bool.not_false, if_true, List.foldlM_cons, bind_assoc]

theorem Visit.moments_after {stack : List Visit} {before after : List Moment} {m : Moment}
    (h : moments stack = before ++ m :: after) : after = moments (m.visit.children ++ m.rest) := by
  induction stack using Visit.stack_induction generalizing before with
  | nil => simp [moments] at h
  | newline v rest hv ih => exact ih (by rwa [moments_of_newline hv] at h)
  | other v rest hv ih =>
    rw [moments_cons hv] at h
    cases before with
    | nil =>
      obtain ⟨rfl, rfl⟩ := List.cons.inj h
      rfl
    | cons m' before => exact ih (List.cons.inj h).2

theorem Tree.nodesOf_eq_flatMap (ts : List Tree) : Tree.nodesOf ts = ts.flatMap Tree.nodes := by
  induction ts with
  | nil => rfl
  | cons t ts ih => rw [Tree.nodesOf, ih, List.flatMap_cons]

theorem Tree.nodes_eq (t : Tree) : t.nodes = t :: t.children.flatMap Tree.nodes := by
  cases t with
  | leaf => rfl
  | node cls kind cs => rw [Tree.nodes, Tree.nodesOf_eq_flatMap, Tree.children]

/-- The nodes of the trees on a stack, in document order. -/
def Visit.nodes (stack : List Visit) : List Tree := stack.flatMap (·.tree.nodes)

theorem Visit.nodes_cons (v : Visit) (rest : List Visit) :
    nodes (v :: rest) = v.tree :: nodes (v.children ++ rest) := by
  simp only [nodes, List.flatMap_cons, List.flatMap_append, Visit.children, List.flatMap_map]
  rw [Tree.nodes_eq, List.cons_append]

/-- Each node is looked at once, and in document order; line ends are passed over. -/
theorem Visit.map_tree_moments {stack : List Visit}
    (h : ∀ t ∈ nodes stack, t.cls = "Newline" → t.children = []) :
    (moments stack).map (·.visit.tree) = (nodes stack).filter (·.cls ≠ "Newline") := by
  induction stack using Visit.stack_induction with
  | nil => rfl
  | newline v rest hv ih =>
    have hleaf : v.children = [] := by
      rw [Visit.children, h v.tree (by rw [nodes_cons]; exact List.mem_cons_self) hv, List.map_nil]
    rw [nodes_cons, hleaf, List.nil_append] at h ⊢
    rw [moments_of_newline hv, ih fun t ht => h t (List.mem_cons_of_mem _ ht),
      List.filter_cons_of_neg (by simp [hv])]
  | other v rest hv ih =>
    rw [nodes_cons] at h ⊢
    rw [moments_cons hv, List.map_cons, ih fun t ht => h t (List.mem_cons_of_mem _ ht),
      List.filter_cons_of_pos (by simp [hv])]

theorem Visit.forall_moments {P : Tree → Prop} {stack : List Visit} (h : ∀ t ∈ nodes stack, P t) :
    ∀ m ∈ moments stack, P m.visit.tree ∧ ∀ v ∈ m.rest, P v.tree := by
  induction stack using Visit.stack_induction with
  | nil => simp [moments]
  | newline v rest hv ih =>
    rw [moments_of_newline hv]
    refine ih fun t ht => h t ?_
    rw [nodes, List.flatMap_cons]
    exact List.mem_append_right _ ht
  | other v rest hv ih =>
    rw [moments_cons hv, List.forall_mem_cons]
    refine ⟨⟨h _ (by rw [nodes_cons]; exact List.mem_cons_self), fun w hw => h _ ?_⟩,
      ih fun t ht => h t (by rw [nodes_cons]; exact List.mem_cons_of_mem _ ht)⟩
    rw [nodes, List.flatMap_cons]
    refine List.mem_append_right _ (List.mem_flatMap.2 ⟨w, hw, ?_⟩)
    rw [Tree.nodes_eq]
    exact List.mem_cons_self

/-! ## What is kept -/

/-- The range that a node adds, if it folds and has more than one line. -/
def Moment.found (m : Moment) : List (Int × Int) :=
  if m.folds then
    match m.range with
    | .ok (s, e) => if s < e then [(s, e)] else []
    | .error _ => []
  else []

theorem Moment.mem_found_iff {m : Moment} {s e : Int} :
    (s, e) ∈ m.found ↔ s < e ∧ m.folds = true ∧ m.range = .ok (s, e) := by
  rw [found]
  split
  · next hfolds =>
    cases hrange : m.range with
    | error f => simp
    | ok r =>
      obtain ⟨a, b⟩ := r
      dsimp only
      by_cases hlt : a < b
      · rw [if_pos hlt, List.mem_singleton]
        constructor
        · rintro ⟨⟩
          exact ⟨hlt, hfolds, rfl⟩
        · rintro ⟨-, -, ⟨⟩⟩
          rfl
      · rw [if_neg hlt]
        refine ⟨fun h => (List.not_mem_nil h).elim, ?_⟩
        rintro ⟨hse, -, ⟨⟩⟩
        exact absurd hse hlt
  · next hfolds => simp [hfolds]

/-- Does a block in a plain node fold to its very end, a given line?  It does if what comes next
starts on this line or later. -/
def Moment.Reaches (m : Moment) (stop : Int) : Prop :=
  (m.visit.parent = "PythonNode" ∧ m.visit.tree.cls ≠ "Keyword" ∧ isBlock m.visit.tree.kind) ∧
    ∃ next ∈ m.rest.head?, ∃ line ∈ next.tree.startLine?, stop ≤ line

theorem startLine_eq_ok_iff {t : Tree} {l : Int} : startLine t = .ok l ↔ l ∈ t.startLine? := by
  rw [startLine, Option.mem_def]
  cases t.startLine? <;> simp

theorem endLine_eq_ok_iff {t : Tree} {l : Int} : endLine t = .ok l ↔ l ∈ t.endLine? := by
  rw [endLine, Option.mem_def]
  cases t.endLine? <;> simp

/-- **The range of a node.** It starts with the node and goes to the line before the end of what
folds with the node, or to that very line. -/
theorem Moment.of_range_eq_ok {m : Moment} {s e : Int} (h : m.range = .ok (s, e)) :
    s ∈ m.visit.tree.startLine? ∧ ∃ stop, foldEnd m.visit.tree m.rest = .ok stop ∧
      (m.Reaches stop ∧ e = stop ∨ ¬ m.Reaches stop ∧ e = stop - 1) := by
  rw [range, rangeOf] at h
  obtain ⟨start, hstart, h⟩ := exists_of_bind_eq_ok h
  obtain ⟨_, -, h⟩ := exists_of_bind_eq_ok h
  obtain ⟨stop, hstop, h⟩ := exists_of_bind_eq_ok h
  rw [startLine_eq_ok_iff] at hstart
  split at h
  · next hblock =>
    split at h
    · next next tail hrest =>
      obtain ⟨line, hline, h⟩ := exists_of_bind_eq_ok h
      rw [startLine_eq_ok_iff] at hline
      have hreaches : m.Reaches stop ↔ stop - 1 < line := by
        rw [Reaches, hrest, List.head?_cons, and_iff_right hblock]
        simp only [Option.mem_def, Option.some_inj, exists_eq_left', Option.mem_def.1 hline]
        omega
      cases h
      refine ⟨hstart, stop, hstop, ?_⟩
      rw [hreaches]
      split <;> omega
    · next hrest =>
      cases h
      refine ⟨hstart, stop, hstop, .inr ⟨?_, rfl⟩⟩
      simp [Reaches, hrest]
  · next hblock =>
    cases h
    exact ⟨hstart, stop, hstop, .inr ⟨fun hreaches => hblock hreaches.1, rfl⟩⟩

/-- **What the walk keeps.** If no step fails, the table has the longest of the ranges that were
found. -/
theorem longest_foldlM_look {ms : List Moment} {found : List (Int × Int)}
    (hrs : Ranges.Longest found rs) (hstart : ∀ m ∈ ms, ∀ l ∈ m.visit.tree.startLine?, 0 ≤ l)
    (hok : ∀ m ∈ ms, m.folds = true → m.range.isOk = true) :
    ∃ rs', ms.foldlM Moment.look rs = .ok rs' ∧
      Ranges.Longest (found ++ ms.flatMap Moment.found) rs' := by
  induction ms generalizing rs found with
  | nil => exact ⟨rs, rfl, by simpa using hrs⟩
  | cons m ms ih =>
    rw [List.forall_mem_cons] at hstart hok
    have hlook : ∃ rs', m.look rs = .ok rs' ∧ Ranges.Longest (found ++ m.found) rs' := by
      rw [Moment.look, Moment.found]
      split
      · next hfolds =>
        obtain ⟨⟨s, e⟩, hrange⟩ := exists_of_isOk (hok.1 hfolds)
        rw [hrange]
        exact ⟨_, rfl, hrs.add (hstart.1 s (Moment.of_range_eq_ok hrange).1)⟩
      · exact ⟨rs, rfl, by simpa using hrs⟩
    obtain ⟨rs₁, hrs₁, hlongest⟩ := hlook
    obtain ⟨rs₂, hrs₂, hlongest⟩ := ih hlongest hstart.2 hok.2
    refine ⟨rs₂, ?_, ?_⟩
    · rw [List.foldlM_cons, hrs₁]
      exact hrs₂
    · rwa [List.flatMap_cons, ← List.append_assoc]

theorem isOk_of_foldlM_look {ms : List Moment} {rs' : Ranges}
    (h : ms.foldlM Moment.look rs = .ok rs') : ∀ m ∈ ms, m.folds = true → m.range.isOk = true := by
  induction ms generalizing rs with
  | nil => simp
  | cons m ms ih =>
    rw [List.foldlM_cons] at h
    obtain ⟨rs₁, hlook, hrest⟩ := exists_of_bind_eq_ok h
    refine List.forall_mem_cons.2 ⟨fun hfolds => ?_, ih hrest⟩
    rw [Moment.look, if_pos hfolds] at hlook
    obtain ⟨r, hr, -⟩ := exists_of_bind_eq_ok hlook
    exact isOk_of_eq hr

/-! ## The record of a walk -/

/-- The walk, with a record of what it looks at. -/
def collectSeen (lines : List (List Char)) (rs : Ranges) (seen : List Moment) :
    List Visit → Except Fault (Ranges × List Moment)
  | [] => .ok (rs, seen)
  | v :: rest =>
    if v.tree.cls = "Newline" then collectSeen lines rs seen rest
    else if v.tree.cls = "PythonErrorNode" then do
      let found ← rangesFrom lines ((← startLine v.tree) - 1)
      return (rs.merge found, seen ++ [⟨v, rest⟩])
    else do
      let rs ←
        if !isSkipped v.tree && isFoldable v then do pure (rs.add (← rangeOf v rest))
        else pure rs
      collectSeen lines rs (seen ++ [⟨v, rest⟩]) (v.children ++ rest)
termination_by stack => Visit.total stack
decreasing_by
  · simp only [Visit.total]; have := Tree.size_pos v.tree; omega
  · rw [Visit.total_append]; simp only [Visit.total]; have := Visit.total_children_lt v; omega

theorem collectSeen_of_parsed {seen : List Moment} (hnewline : v.tree.cls ≠ "Newline")
    (herror : v.tree.cls ≠ "PythonErrorNode") :
    collectSeen lines rs seen (v :: rest) =
      (Moment.look rs ⟨v, rest⟩ >>= fun rs =>
        collectSeen lines rs (seen ++ [⟨v, rest⟩]) (v.children ++ rest)) := by
  rw [collectSeen, if_neg hnewline, if_neg herror, Moment.look, Moment.folds, Moment.range]
  split
  · cases rangeOf v rest <;> rfl
  · rfl

theorem map_fst_collectSeen (seen : List Moment) (stack : List Visit) :
    Prod.fst <$> collectSeen lines rs seen stack = collect lines rs stack := by
  induction stack using Visit.stack_induction generalizing rs seen with
  | nil => rw [collectSeen, collect]; rfl
  | newline v rest h ih => rw [collectSeen, if_pos h, collect_of_newline h, ih]
  | other v rest h ih =>
    by_cases herror : v.tree.cls = "PythonErrorNode"
    · rw [collectSeen, if_neg h, if_pos herror, collect_of_error herror]
      cases startLine v.tree with
      | error f => rfl
      | ok line => cases hfound : rangesFrom lines (line - 1) <;> simp [ok_bind, hfound]
    · rw [collectSeen_of_parsed h herror, collect_of_parsed h herror, map_bind]
      exact bind_congr fun rs => ih _

/-- **The walk looks at every node once, in document order.** -/
theorem collectSeen_eq {stack : List Visit} (h : ∀ m ∈ Visit.moments stack, m.isError = false)
    (seen : List Moment) :
    collectSeen lines rs seen stack =
      (·, seen ++ Visit.moments stack) <$> (Visit.moments stack).foldlM Moment.look rs := by
  induction stack using Visit.stack_induction generalizing rs seen with
  | nil => simp [collectSeen, Visit.moments]; rfl
  | newline v rest hv ih =>
    rw [Visit.moments_of_newline hv] at h ⊢
    rw [collectSeen, if_pos hv, ih h]
  | other v rest hv ih =>
    rw [Visit.moments_cons hv] at h ⊢
    rw [List.forall_mem_cons] at h
    rw [collectSeen_of_parsed hv (ne_of_beq_false h.1), List.foldlM_cons, map_bind]
    refine bind_congr fun rs => (ih h.2 _).trans ?_
    rw [List.append_assoc]
    rfl

/-! ## The tree as a whole -/

theorem Visit.moments_singleton (tree : Tree) : moments [⟨"", tree⟩] = tree.moments [] "" := by
  rw [moments, moments, List.append_nil]

theorem Visit.nodes_singleton (tree : Tree) : nodes [⟨"", tree⟩] = tree.nodes := by
  rw [nodes, List.flatMap_cons, List.flatMap_nil, List.append_nil]

theorem Tree.forall_moments {P : Tree → Prop} {tree : Tree} (h : ∀ t ∈ tree.nodes, P t) :
    ∀ m ∈ tree.moments [] "", P m.visit.tree ∧ ∀ v ∈ m.rest, P v.tree := by
  rw [← Visit.moments_singleton]
  exact Visit.forall_moments (by rwa [Visit.nodes_singleton])

/-- **Folding by the tree is what its declarative reading says.** For a tree that parsed, in which
lines count from one, and on which no step fails, there is an answer. The walk looks at every node
but the line ends, once and in document order, and what it looks at after a node is what hangs below
the node and then its frontier. The answer goes up strictly by first lines, and has for each first
line the longest of the ranges that nodes have with it, each with its frontier in view. -/
theorem ranges_longest_in_document_order (tree : Tree) (lines : List (List Char))
    (hparsed : ∀ t ∈ tree.nodes, t.cls ≠ "PythonErrorNode")
    (hnewline : ∀ t ∈ tree.nodes, t.cls = "Newline" → t.children = [])
    (hlines : ∀ t ∈ tree.nodes, ∀ l ∈ t.startLine?, 1 ≤ l)
    (hsteps : ∀ m ∈ tree.moments [] "", m.folds = true → m.range.isOk = true) :
    ∃ table rs, collectSeen lines [] [] [⟨"", tree⟩] = .ok (table, tree.moments [] "") ∧
      (tree.moments [] "").map (·.visit.tree) = tree.nodes.filter (·.cls ≠ "Newline") ∧
      (∀ before m after, tree.moments [] "" = before ++ m :: after →
        after = Visit.moments (m.visit.children ++ m.rest)) ∧
      ranges tree lines = .ok rs ∧ rs.Pairwise (·.1 < ·.1) ∧
      ∀ s e, (s, e) ∈ rs ↔ IsGreatest {e | s < e ∧
        ∃ m ∈ tree.moments [] "", m.folds = true ∧ m.range = .ok (s, e)} e := by
  have hmoments := Visit.moments_singleton tree
  have herror : ∀ m ∈ Visit.moments [⟨"", tree⟩], m.isError = false := fun m hm =>
    beq_false_of_ne (Tree.forall_moments hparsed m (hmoments ▸ hm)).1
  obtain ⟨table, htable, hlongest⟩ := longest_foldlM_look Ranges.longest_nil
    (fun m hm l hl => Int.le_of_lt ((Tree.forall_moments hlines m hm).1 l hl)) hsteps
  have hseen : collectSeen lines [] [] [⟨"", tree⟩] = .ok (table, tree.moments [] "") := by
    rw [collectSeen_eq herror, hmoments, htable]
    rfl
  have hnodes :
      (tree.moments [] "").map (·.visit.tree) = tree.nodes.filter (·.cls ≠ "Newline") := by
    rw [← hmoments, ← Visit.nodes_singleton]
    exact Visit.map_tree_moments (by rwa [Visit.nodes_singleton])
  refine ⟨table, table.sort, hseen, hnodes,
    fun before m after h => Visit.moments_after (hmoments.trans h), ?_,
    hlongest.distinct.pairwise_sort, fun s e => ?_⟩
  · rw [ranges, ← map_fst_collectSeen [], hseen]
    rfl
  · rw [Ranges.mem_sort, hlongest.mem_iff, List.nil_append]
    simp only [List.mem_flatMap, Moment.mem_found_iff]
    refine iff_of_eq (congrArg (IsGreatest · e) (Set.ext fun e => ?_))
    constructor
    · rintro ⟨m, hm, hlt, hfolds, hrange⟩
      exact ⟨hlt, m, hm, hfolds, hrange⟩
    · rintro ⟨hlt, m, hm, hfolds, hrange⟩
      exact ⟨m, hm, hlt, hfolds, hrange⟩

/-- A condition with its two branches. -/
def branches : Tree :=
  .node "Module" "file_input" [
    .node "IfStmt" "if_stmt" [
      .leaf "Keyword" "keyword" "if" 1 0 1 2,
      .leaf "Name" "name" "a" 1 3 1 4,
      .leaf "Operator" "operator" ":" 1 4 1 5,
      .node "PythonNode" "suite" [
        .leaf "Newline" "newline" "\n" 1 5 2 0,
        .node "PythonNode" "simple_stmt" [
          .leaf "Name" "name" "b" 2 4 2 5,
          .leaf "Newline" "newline" "\n" 2 5 3 0]],
      .leaf "Keyword" "keyword" "else" 3 0 3 4,
      .leaf "Operator" "operator" ":" 3 4 3 5,
      .node "PythonNode" "suite" [
        .leaf "Newline" "newline" "\n" 3 5 4 0,
        .node "PythonNode" "simple_stmt" [
          .leaf "Name" "name" "c" 4 4 4 5,
          .leaf "Newline" "newline" "\n" 4 5 5 0]]],
    .leaf "EndMarker" "endmarker" "" 5 0 5 0]

/-- Both keywords fold with the bodies that follow them, and what was looked at ahead is still
looked at in its place. -/
theorem branches_fold_with_keywords :
    (∃ table, collectSeen [] [] [] [⟨"", branches⟩] = .ok (table, branches.moments [] "")) ∧
      (branches.moments [] "").map (·.visit.tree.kind) =
        ["file_input", "if_stmt", "keyword", "name", "operator", "suite", "simple_stmt", "name",
          "keyword", "operator", "suite", "simple_stmt", "name", "endmarker"] ∧
      ∃ rs, ranges branches [] = .ok rs ∧ (1, 2) ∈ rs ∧ (3, 4) ∈ rs := by
  obtain ⟨table, rs, hseen, -, -, hrs, -, hmem⟩ := ranges_longest_in_document_order branches []
    (by decide) (by decide) (by decide) (by decide)
  have hlongest : ∀ s e, s < e →
      (∃ m ∈ branches.moments [] "", m.folds = true ∧ m.range.toOption = some (s, e)) →
      (∀ m ∈ branches.moments [] "", m.folds = true →
        ∀ r ∈ m.range.toOption, r.1 = s → r.2 ≤ e) → (s, e) ∈ rs := by
    rintro s e hlt ⟨m, hm, hfolds, hrange⟩ hle
    refine (hmem s e).2 ⟨⟨hlt, m, hm, hfolds, eq_ok_of_toOption hrange⟩, ?_⟩
    rintro e' ⟨-, m', hm', hfolds', hrange'⟩
    exact hle m' hm' hfolds' (s, e') (by rw [hrange']; rfl) rfl
  exact ⟨⟨table, hseen⟩, by decide, rs, hrs, hlongest 1 2 (by decide) (by decide) (by decide),
    hlongest 3 4 (by decide) (by decide) (by decide)⟩

end LangServer.Folding
