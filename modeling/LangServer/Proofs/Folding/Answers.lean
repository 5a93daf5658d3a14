import LangServer.Proofs.Folding.Blocks
import LangServer.Proofs.Folding.Walk

/-!
# Folding answers

An answer goes up strictly by first lines, and its ranges lie within the lines of the program
(`folding_answer_within_iff`), except in two cases:

* a range starts one line above the first, if the first node that did not parse starts on line one
  and the indentation begins before any ink (`LeadsIn`);
* a range ends one line below the last, if a block in a plain node ends at the very end of the text
  (`Moment.Overhangs`).

What is folded by indentation is read from a text whose beginning has been emptied; the first
sections say which lines that text has (`lineBodies_textFrom`) and where its blocks start
(`exists_zero_mem_blocks_iff`).
-/

namespace LangServer.Folding

open Text

/-! ## The text from a line on -/

theorem lineBodies_intercalate {ls : List (List Char)} (hne : ls ≠ [])
    (h : ∀ line ∈ ls, ∀ c ∈ line, isBoundary c = false) :
    lineBodies (List.intercalate ['\n'] ls ++ ['\n']) = ls := by
  induction ls with
  | nil => exact absurd rfl hne
  | cons line ls ih =>
    rw [List.forall_mem_cons] at h
    cases ls with
    | nil =>
      rw [List.intercalate_singleton, lineBodies, lines_append_newline h.1, List.map_cons,
        lineBody_append_newline h.1]
      rfl
    | cons line' ls =>
      have ih := ih (by simp) h.2
      rw [List.intercalate_cons_cons, List.append_assoc, List.append_assoc, List.singleton_append,
        lineBodies, lines_append_newline h.1, List.map_cons, lineBody_append_newline h.1]
      exact congrArg (line :: ·) ih

theorem isBoundary_of_mem_lineBodies {s line : List Char} (h : line ∈ lineBodies s) :
    ∀ c ∈ line, isBoundary c = false := by
  obtain ⟨full, -, rfl⟩ := List.mem_map.1 h
  intro c hc
  simpa using List.mem_takeWhile_imp hc

/-- The lines, with those before the line `k` emptied. -/
def emptied (lines : List (List Char)) (k : Nat) : List (List Char) :=
  List.replicate k [] ++ lines.drop k

section

variable {lines : List (List Char)} (hne : lines ≠ [])
  (hbodies : ∀ line ∈ lines, ∀ c ∈ line, isBoundary c = false)

include hne hbodies in
theorem lineBodies_textFrom (k : Nat) : lineBodies (textFrom lines k) = emptied lines k := by
  rw [textFrom, after_natCast, Int.toNat_natCast]
  refine lineBodies_intercalate ?_ fun line hline => ?_
  · cases k with
    | zero => simpa using hne
    | succ k => simp [List.replicate_succ]
  · rcases List.mem_append.1 hline with hline | hline
    · simp [List.eq_of_mem_replicate hline]
    · exact hbodies line (List.mem_of_mem_drop hline)

end

/-! ## Where blocks start -/

/-- The indentation begins before any ink, and not after an empty line. -/
def LeadsIn (lines : List (List Char)) : Prop :=
  lines.head? ≠ some [] ∧ ∃ above line below, lines = above ++ line :: below ∧
    (∀ l ∈ above, hasInk l = false) ∧ 0 < depth line

theorem le_fst_of_mem_blocksFrom {before ink i : Nat} {lines : List (List Char)} {b : Nat × Nat}
    (hink : ink ≤ i) (h : b ∈ blocksFrom before ink i lines) : ink ≤ b.1 := by
  induction lines generalizing before ink i with
  | nil => cases h
  | cons line rest ih =>
    have hrest : b ∈ blocksFrom (depth line) (inkAfter ink i line) (i + 1) rest → ink ≤ b.1 :=
      fun hb => (Indents.le_inkAfter hink line).trans
        (ih ((Indents.inkAfter_le hink line).trans (Nat.le_succ i)) hb)
    rw [blocksFrom] at h
    split at h
    · rcases List.mem_cons.1 h with rfl | h
      · exact Nat.le_refl _
      · exact hrest h
    · exact hrest h

theorem exists_zero_mem_blocksFrom_iff {i : Nat} (hi : 0 < i) (lines : List (List Char)) :
    (∃ b ∈ blocksFrom 0 0 i lines, b.1 = 0) ↔
      ∃ above line below, lines = above ++ line :: below ∧ (∀ l ∈ above, hasInk l = false) ∧
        0 < depth line := by
  induction lines generalizing i with
  | nil => simp [blocksFrom]
  | cons line rest ih =>
    rw [blocksFrom]
    by_cases hdepth : 0 < depth line
    · rw [if_pos hdepth]
      exact iff_of_true ⟨_, List.mem_cons_self, rfl⟩ ⟨[], line, rest, rfl, by simp, hdepth⟩
    · rw [if_neg hdepth, Nat.eq_zero_of_not_pos hdepth]
      by_cases hink : hasInk line = true
      · rw [inkAfter, if_pos hink]
        refine iff_of_false ?_ ?_
        · rintro ⟨b, hb, hzero⟩
          have := le_fst_of_mem_blocksFrom (Nat.le_succ i) hb
          omega
        · rintro ⟨above, line', below, heq, habove, hdepth'⟩
          cases above with
          | nil =>
            cases heq
            exact hdepth hdepth'
          | cons l above =>
            cases heq
            rw [habove line List.mem_cons_self] at hink
            cases hink
      · rw [inkAfter, if_neg hink, ih (Nat.succ_pos i)]
        constructor
        · rintro ⟨above, line', below, rfl, habove, hdepth'⟩
          refine ⟨line :: above, line', below, rfl, ?_, hdepth'⟩
          exact List.forall_mem_cons.2 ⟨Bool.eq_false_iff.2 hink, habove⟩
        · rintro ⟨above, line', below, heq, habove, hdepth'⟩
          cases above with
          | nil =>
            cases heq
            exact absurd hdepth' hdepth
          | cons l above =>
            cases heq
            exact ⟨above, line', below, rfl, (List.forall_mem_cons.1 habove).2, hdepth'⟩

theorem exists_zero_mem_blocks_iff {lines : List (List Char)} :
    (∃ b ∈ blocks lines, b.1 = 0) ↔ LeadsIn lines := by
  rw [blocks, LeadsIn]
  cases lines with
  | nil => simp [leading, blocksFrom]
  | cons line rest =>
    rw [leading, List.takeWhile_cons]
    cases line with
    | nil =>
      refine iff_of_false ?_ fun h => h.1 rfl
      rintro ⟨b, hb, hzero⟩
      have := le_fst_of_mem_blocksFrom (Nat.le_succ _) hb
      simp only [List.isEmpty_nil, if_true, List.length_cons] at this
      omega
    | cons c line =>
      simp only [List.isEmpty_cons, Bool.false_eq_true, if_false, List.length_nil, List.drop_zero]
      rw [exists_zero_mem_blocksFrom_iff Nat.one_pos]
      exact (and_iff_right (by simp)).symm

theorem leadsIn_emptied_iff {lines : List (List Char)} {k : Nat} :
    LeadsIn (emptied lines k) ↔ k = 0 ∧ LeadsIn lines := by
  cases k with
  | zero => simp [emptied]
  | succ k =>
    refine iff_of_false (fun h => h.1 ?_) (by simp)
    rw [emptied, List.replicate_succ, List.cons_append, List.head?_cons]

/-! ## Ranges by indentation, from a line on -/

theorem exists_of_byIndentation_eq_ok {text : List Char} {found : List (Nat × Nat)}
    (h : byIndentation text = .ok found) : ∃ line ∈ lineBodies text, line ≠ [] := by
  by_contra hall
  have hempty : ∀ line ∈ lineBodies text, line.isEmpty = true := fun line hline =>
    List.isEmpty_iff.2 (by_contra fun hne => hall ⟨line, hline, hne⟩)
  have hthrow : byIndentation text = .error .outOfRange :=
    if_pos (congrArg List.length (List.takeWhile_eq_self_iff.2 hempty))
  cases hthrow.symm.trans h

/-- What the ranges by indentation are, from a line on: they start where blocks start, and lie
within the lines. -/
theorem of_rangesFrom_eq_ok {lines : List (List Char)} (hne : lines ≠ [])
    (hbodies : ∀ line ∈ lines, ∀ c ∈ line, isBoundary c = false) {k : Nat} {found : Ranges}
    (h : rangesFrom lines k = .ok found) :
    found.Distinct ∧
      (∀ s, s ∈ found.map Prod.fst ↔ ∃ b ∈ blocks (emptied lines k), (b.1 : Int) = s) ∧
      ∀ s e, (s, e) ∈ found → 0 ≤ s ∧ s ≤ e ∧ e ≤ lines.length := by
  rw [rangesFrom, indentationRanges] at h
  obtain ⟨closed, hclosed, h⟩ := exists_of_bind_eq_ok h
  cases h
  have hline := exists_of_byIndentation_eq_ok hclosed
  obtain ⟨t, ht, hnested, hlast, hperm⟩ := byIndentation_spec hline
  rw [lineBodies_textFrom hne hbodies] at hline hlast hperm
  cases hclosed.symm.trans ht
  have hlength : (emptied lines k).length = lines.length := by
    obtain ⟨line, hmem, hne⟩ := hline
    have hdrop : line ∈ lines.drop k := (List.mem_append.1 hmem).resolve_left fun hrep =>
      hne (List.eq_of_mem_replicate hrep)
    have hlt := List.length_pos_of_mem hdrop
    rw [emptied, List.length_append, List.length_replicate]
    rw [List.length_drop] at hlt ⊢
    omega
  have hlongest := Ranges.longest_ofBlocks hnested.ends
  refine ⟨hlongest.distinct, fun s => ?_, fun s e hse => ?_⟩
  · constructor
    · intro hs
      obtain ⟨r, hr, rfl⟩ := List.mem_map.1 hs
      obtain ⟨b, hb, rfl⟩ := List.mem_map.1 (hlongest.subset hr)
      exact ⟨b, hperm.mem_iff.1 hb, rfl⟩
    · rintro ⟨b, hb, rfl⟩
      obtain ⟨e, he, -⟩ := hlongest.covers b.1 b.2
        (List.mem_map.2 ⟨b, hperm.mem_iff.2 hb, rfl⟩)
      exact List.mem_map_of_mem he
  · obtain ⟨b, hb, heq⟩ := List.mem_map.1 (hlongest.subset hse)
    cases heq
    have := hnested.closed b hb
    omega

/-! ## Ranges by the tree -/

/-- The nodes that are looked at before one that did not parse. -/
def Tree.parsed (tree : Tree) : List Moment := (tree.moments [] "").takeWhile (!·.isError)

/-- The first node that did not parse. -/
def Tree.firstError? (tree : Tree) : Option Moment := (tree.moments [] "").find? (·.isError)

/-- The nodes of a tree lie in `n` lines, counted from one. The end of the last line counts as the
beginning of a further line. -/
def Tree.Within (tree : Tree) (n : Nat) : Prop :=
  ∀ t ∈ tree.nodes, (∀ l ∈ t.startLine?, 1 ≤ l) ∧ ∀ l ∈ t.endLine?, l ≤ n + 1

/-- A block in a plain node that ends where the text of `n` lines ends, where also starts what comes
next. -/
def Moment.Overhangs (m : Moment) (n : Nat) : Prop :=
  m.folds = true ∧ (∃ s ∈ m.visit.tree.startLine?, s ≤ n) ∧
    (n + 1 : Int) ∈ m.visit.tree.endLine? ∧ m.Reaches (n + 1)

theorem foldEnd_of_ne_keyword {t : Tree} (h : t.cls ≠ "Keyword") (rest : List Visit) :
    foldEnd t rest = endLine t := by
  rw [foldEnd, if_neg h]

theorem exists_of_foldEnd_eq_ok {t : Tree} {rest : List Visit} {stop : Int}
    (h : foldEnd t rest = .ok stop) :
    stop ∈ t.endLine? ∨ ∃ v ∈ rest, stop ∈ v.tree.endLine? := by
  rw [foldEnd] at h
  split at h
  · split at h
    · split at h
      · next body hbody =>
        exact .inr ⟨body, List.mem_of_getElem? hbody, endLine_eq_ok_iff.1 h⟩
      · cases h
    · exact .inl (endLine_eq_ok_iff.1 h)
  · exact .inl (endLine_eq_ok_iff.1 h)

section

variable {tree : Tree} {n : Nat} {m : Moment} {s e : Int}

theorem Tree.Within.foldEnd_le (hwithin : tree.Within n) (hm : m ∈ tree.moments [] "") {stop : Int}
    (hstop : foldEnd m.visit.tree m.rest = .ok stop) : stop ≤ n + 1 := by
  obtain ⟨hnode, hrest⟩ := Tree.forall_moments hwithin m hm
  rcases exists_of_foldEnd_eq_ok hstop with h | ⟨v, hv, h⟩
  · exact hnode.2 stop h
  · exact (hrest v hv).2 stop h

theorem Tree.Within.range_le (hwithin : tree.Within n) (hm : m ∈ tree.moments [] "")
    (hrange : m.range = .ok (s, e)) : e ≤ n + 1 := by
  obtain ⟨-, stop, hstop, hend⟩ := Moment.of_range_eq_ok hrange
  have := hwithin.foldEnd_le hm hstop
  rcases hend with ⟨-, rfl⟩ | ⟨-, rfl⟩ <;> omega

theorem Tree.Within.range_past_iff (hwithin : tree.Within n) (hm : m ∈ tree.moments [] "")
    (hrange : m.range = .ok (s, e)) :
    (m.folds = true ∧ s < e ∧ e = n + 1) ↔ m.Overhangs n := by
  obtain ⟨hstart, stop, hstop, hend⟩ := Moment.of_range_eq_ok hrange
  have hle := hwithin.foldEnd_le hm hstop
  constructor
  · rintro ⟨hfolds, hlt, hpast⟩
    obtain ⟨hreaches, rfl⟩ : m.Reaches stop ∧ e = stop := hend.resolve_right (by omega)
    obtain rfl : e = n + 1 := by omega
    rw [foldEnd_of_ne_keyword hreaches.1.2.1, endLine_eq_ok_iff] at hstop
    exact ⟨hfolds, ⟨s, hstart, by omega⟩, hstop, hreaches⟩
  · rintro ⟨hfolds, ⟨s', hs', hle'⟩, hend', hreaches⟩
    rw [foldEnd_of_ne_keyword hreaches.1.2.1, endLine_eq_ok_iff] at hstop
    obtain rfl := Option.mem_unique hs' hstart
    obtain rfl := Option.mem_unique hend' hstop
    obtain ⟨-, rfl⟩ := hend.resolve_right fun h => h.1 hreaches
    exact ⟨hfolds, by omega, rfl⟩

theorem Tree.Within.of_parsed_eq_ok (hwithin : tree.Within n) {table : Ranges}
    (h : tree.parsed.foldlM Moment.look [] = .ok table) :
    table.Distinct ∧ (∀ s e, (s, e) ∈ table → 1 ≤ s ∧ s ≤ e ∧ e ≤ n + 1) ∧
      ∀ s, (s, (n + 1 : Int)) ∈ table ↔
        ∃ m ∈ tree.parsed, m.Overhangs n ∧ s ∈ m.visit.tree.startLine? := by
  have hmem : ∀ m ∈ tree.parsed, m ∈ tree.moments [] "" := (List.takeWhile_sublist _).subset
  have hpos : ∀ m ∈ tree.parsed, ∀ l ∈ m.visit.tree.startLine?, 1 ≤ l := fun m hm =>
    (Tree.forall_moments hwithin m (hmem m hm)).1.1
  have hok := isOk_of_foldlM_look h
  obtain ⟨table', htable', hlongest⟩ := longest_foldlM_look Ranges.longest_nil
    (fun m hm l hl => Int.le_of_lt (hpos m hm l hl)) hok
  cases h.symm.trans htable'
  have hfound : ∀ s e, (s, e) ∈ table → ∃ m ∈ tree.parsed, (s, e) ∈ m.found := fun s e hse =>
    List.mem_flatMap.1 (hlongest.subset hse)
  have hbounds : ∀ s e, (s, e) ∈ table → 1 ≤ s ∧ s ≤ e ∧ e ≤ n + 1 := by
    intro s e hse
    obtain ⟨m, hm, hse⟩ := hfound s e hse
    obtain ⟨hlt, -, hrange⟩ := Moment.mem_found_iff.1 hse
    exact ⟨hpos m hm s (Moment.of_range_eq_ok hrange).1, Int.le_of_lt hlt,
      hwithin.range_le (hmem m hm) hrange⟩
  refine ⟨hlongest.distinct, hbounds, fun s => ?_⟩
  constructor
  · intro hse
    obtain ⟨m, hm, hse⟩ := hfound s _ hse
    obtain ⟨hlt, hfolds, hrange⟩ := Moment.mem_found_iff.1 hse
    exact ⟨m, hm, (hwithin.range_past_iff (hmem m hm) hrange).1 ⟨hfolds, hlt, rfl⟩,
      (Moment.of_range_eq_ok hrange).1⟩
  · rintro ⟨m, hm, hover, hs⟩
    obtain ⟨⟨s', e⟩, hrange⟩ := exists_of_isOk (hok m hm hover.1)
    obtain ⟨hfolds, hlt, rfl⟩ := (hwithin.range_past_iff (hmem m hm) hrange).2 hover
    cases Option.mem_unique hs (Moment.of_range_eq_ok hrange).1
    obtain ⟨e, he, hle⟩ := hlongest.covers s (n + 1)
      (List.mem_flatMap.2 ⟨m, hm, Moment.mem_found_iff.2 ⟨hlt, hfolds, hrange⟩⟩)
    obtain rfl : e = n + 1 := by
      have := (hbounds s e he).2.2
      omega
    exact he

end

/-! ## Both together -/

/-- The ranges by indentation, for the part that did not parse if there is one. -/
def Tree.restRanges (tree : Tree) (lines : List (List Char)) : Except Fault Ranges :=
  match tree.firstError? with
  | none => .ok []
  | some m => do rangesFrom lines ((← startLine m.visit.tree) - 1)

/-- **What an answer is made of**: the ranges of the nodes before one that did not parse, and the
ranges by indentation from there on. -/
theorem ranges_eq (tree : Tree) (lines : List (List Char)) :
    ranges tree lines = do
      let table ← tree.parsed.foldlM Moment.look []
      let rest ← tree.restRanges lines
      return (table.merge rest).sort := by
  rw [ranges, collect_eq, Visit.moments_singleton, Tree.parsed, Tree.restRanges, Tree.firstError?,
    bind_assoc]
  congr 1
  funext table
  cases (tree.moments [] "").find? (·.isError) with
  | none => exact congrArg (fun rs : Ranges => Except.ok rs.sort) (Ranges.merge_nil table).symm
  | some m => simp only [bind_assoc, pure_bind]

/-- A block of the part that did not parse starts on the line, counted from one. -/
def Tree.RestStartsAt (tree : Tree) (lines : List (List Char)) (s : Int) : Prop :=
  ∃ m ∈ tree.firstError?, ∃ l ∈ m.visit.tree.startLine?,
    ∃ b ∈ blocks (emptied lines (l - 1).toNat), (b.1 : Int) = s

section

variable {tree : Tree} {lines : List (List Char)} {rest rs : Ranges} (hne : lines ≠ [])
  (hbodies : ∀ line ∈ lines, ∀ c ∈ line, isBoundary c = false) (hwithin : tree.Within lines.length)

include hne hbodies hwithin

theorem of_restRanges_eq_ok (h : tree.restRanges lines = .ok rest) :
    rest.Distinct ∧ (∀ s, s ∈ rest.map Prod.fst ↔ tree.RestStartsAt lines s) ∧
      ∀ s e, (s, e) ∈ rest → 0 ≤ s ∧ s ≤ e ∧ e ≤ lines.length := by
  simp only [Tree.RestStartsAt]
  rw [Tree.restRanges] at h
  cases herror : tree.firstError? with
  | none =>
    rw [herror] at h
    cases h
    exact ⟨Ranges.distinct_nil, by simp, by simp⟩
  | some m =>
    rw [herror] at h
    obtain ⟨l, hl, h⟩ := exists_of_bind_eq_ok h
    rw [startLine_eq_ok_iff] at hl
    have hpos := (Tree.forall_moments hwithin m (List.mem_of_find?_eq_some herror)).1.1 l hl
    rw [← Int.toNat_of_nonneg (Int.sub_nonneg_of_le hpos)] at h
    obtain ⟨hdistinct, hstarts, hbounds⟩ := of_rangesFrom_eq_ok hne hbodies h
    refine ⟨hdistinct, fun s => ?_, hbounds⟩
    rw [hstarts s]
    constructor
    · intro hb
      exact ⟨m, rfl, l, hl, hb⟩
    · rintro ⟨m', hm', l', hl', hb⟩
      cases hm'
      cases Option.mem_unique hl hl'
      exact hb

omit hne hbodies in
theorem restStartsAt_zero_iff : tree.RestStartsAt lines 0 ↔
    ∃ m ∈ tree.firstError?, 1 ∈ m.visit.tree.startLine? ∧ LeadsIn lines := by
  refine exists_congr fun m => and_congr_right fun hm => ?_
  have hpos := (Tree.forall_moments hwithin m (List.mem_of_find?_eq_some hm)).1.1
  simp only [Int.natCast_eq_zero, exists_zero_mem_blocks_iff, leadsIn_emptied_iff]
  constructor
  · rintro ⟨l, hl, hzero, hleads⟩
    obtain rfl : l = 1 := by
      have := hpos l hl
      omega
    exact ⟨hl, hleads⟩
  · rintro ⟨hl, hleads⟩
    exact ⟨1, hl, rfl, hleads⟩

/-- Ranges go up strictly. They may start one line above the first, or end one line below the
last. -/
theorem of_ranges_eq_ok (h : ranges tree lines = .ok rs) :
    rs.Pairwise (·.1 < ·.1) ∧ (∀ r ∈ rs, 0 ≤ r.1 ∧ r.1 ≤ r.2 ∧ r.2 ≤ lines.length + 1) ∧
      ((∃ r ∈ rs, r.1 = 0) ↔ tree.RestStartsAt lines 0) ∧
      ((∃ r ∈ rs, r.2 = lines.length + 1) ↔ ∃ m ∈ tree.parsed, m.Overhangs lines.length ∧
        ∀ s ∈ m.visit.tree.startLine?, ¬ tree.RestStartsAt lines s) := by
  rw [ranges_eq] at h
  obtain ⟨table, htable, h⟩ := exists_of_bind_eq_ok h
  obtain ⟨rest, hrest, h⟩ := exists_of_bind_eq_ok h
  cases h
  obtain ⟨hdistinct, hbounds, hpast⟩ := hwithin.of_parsed_eq_ok htable
  obtain ⟨hdistinct', hstarts, hbounds'⟩ := of_restRanges_eq_ok hne hbodies hwithin hrest
  have hiff : ∀ {s e}, (s, e) ∈ (table.merge rest).sort ↔ _ := fun {s e} =>
    Ranges.mem_sort.trans (Ranges.mem_merge_iff hdistinct')
  refine ⟨(hdistinct.merge hdistinct').pairwise_sort, ?_, ?_, ?_⟩
  · rintro ⟨s, e⟩ hse
    rcases hiff.1 hse with ⟨hse, -⟩ | ⟨e', he', rfl⟩
    · have := hbounds s e hse
      exact ⟨by omega, this.2⟩
    · have := hbounds' s e' he'
      refine ⟨this.1, ?_, ?_⟩ <;> split <;> omega
  · rw [← hstarts]
    constructor
    · rintro ⟨⟨s, e⟩, hse, rfl⟩
      rcases hiff.1 hse with ⟨hse, -⟩ | ⟨e', hse, -⟩
      · exact absurd (hbounds 0 e hse).1 (by decide)
      · exact List.mem_map_of_mem hse
    · intro h
      obtain ⟨⟨s, e⟩, hse, rfl⟩ := List.mem_map.1 h
      exact ⟨_, hiff.2 (.inr ⟨e, hse, rfl⟩), rfl⟩
  · simp only [← hstarts]
    constructor
    · rintro ⟨⟨s, e⟩, hse, rfl⟩
      rcases hiff.1 hse with ⟨hse, hnot⟩ | ⟨e', hse, heq⟩
      · obtain ⟨m, hm, hover, hs⟩ := (hpast s).1 hse
        exact ⟨m, hm, hover, fun s' hs' => Option.mem_unique hs hs' ▸ hnot⟩
      · have := hbounds' s e' hse
        split at heq <;> omega
    · rintro ⟨m, hm, hover, hnot⟩
      obtain ⟨s, hs, -⟩ := hover.2.1
      exact ⟨_, hiff.2 (.inl ⟨(hpast s).2 ⟨m, hm, hover, hs⟩, hnot s hs⟩), rfl⟩

end

/-! ## The answer -/

/-- The lines of the program that is folded: the text, ended. -/
def programLines (source : String) : List (List Char) := lineBodies (source.toList ++ ['\n'])

theorem programLines_ne_nil (source : String) : programLines source ≠ [] := by
  intro h
  have hflat := flatten_linesBy isBoundary (source.toList ++ ['\n'])
  rw [show linesBy isBoundary (source.toList ++ ['\n']) = [] from List.map_eq_nil_iff.1 h] at hflat
  simp at hflat

/-- Ranges as the editor is told, counted from zero. -/
def answerOf (rs : List (Int × Int)) : Value :=
  .list (rs.map fun r => .object [("startLine", .int r.1), ("endLine", .int r.2)])

theorem ensures_foldingRanges {desk : Desk} {d : Document} {source : String}
    (hdocument : desk.document = some d)
    (hsource : d.readOr .mismatch desk.host.machine.files = .ok source)
    (good : Value → Desk → Prop) (bad : Fault → Desk → Prop) :
    Ensures foldingRanges desk good bad ↔
      (∀ rs, ranges desk.host.engines.tree (programLines source) = .ok rs →
        good (answerOf (rs.map fun r => (r.1 - 1, r.2 - 1))) desk) ∧
      ∀ f, ranges desk.host.engines.tree (programLines source) = .error f → bad f desk := by
  simp only [foldingRanges, Job.sourceOr, Job.document, Job.files, Job.engines, ensures_bind,
    ensures_get, ensures_pure, hdocument, hsource, ensures_liftExcept_ok]
  rw [ensures_liftExcept]
  simp only [answerOf, List.map_map]
  rfl

/-- **Folding ranges go up strictly, and they are within the lines but for two cases.** A range
starts above the first line, by one, just if the first node that did not parse is on that line and
the lines lead in. A range ends below the last line, by one, just if a node overhangs, and the
indentation of the part that did not parse does not put another range in its place. -/
theorem folding_answer_within_iff {desk desk' : Desk} {d : Document} {source : String}
    {answer : Value} (hdocument : desk.document = some d)
    (hsource : d.readOr .mismatch desk.host.machine.files = .ok source)
    (hwithin : desk.host.engines.tree.Within (programLines source).length)
    (h : foldingRanges desk = .ok answer desk') :
    ∃ rs : List (Int × Int), answer = answerOf rs ∧ rs.Pairwise (·.1 < ·.1) ∧
      (∀ r ∈ rs, -1 ≤ r.1 ∧ r.1 ≤ r.2 ∧ r.2 ≤ (programLines source).length) ∧
      ((∀ r ∈ rs, 0 ≤ r.1) ↔
        ∀ m ∈ desk.host.engines.tree.firstError?, 1 ∈ m.visit.tree.startLine? →
          ¬ LeadsIn (programLines source)) ∧
      ((∀ r ∈ rs, r.2 < (programLines source).length) ↔
        ∀ m ∈ desk.host.engines.tree.parsed, m.Overhangs (programLines source).length →
          ∃ s ∈ m.visit.tree.startLine?,
            desk.host.engines.tree.RestStartsAt (programLines source) s) := by
  have hrun : Ensures foldingRanges desk (fun answer _ =>
      ∃ rs, ranges desk.host.engines.tree (programLines source) = .ok rs ∧
        answer = answerOf (rs.map fun r => (r.1 - 1, r.2 - 1))) fun _ _ => True :=
    (ensures_foldingRanges hdocument hsource _ _).2
      ⟨fun rs hrs => ⟨rs, hrs, rfl⟩, fun _ _ => trivial⟩
  obtain ⟨rs, hrs, rfl⟩ := hrun.ok h
  obtain ⟨hsorted, hbounds, habove, hbelow⟩ := of_ranges_eq_ok (programLines_ne_nil source)
    (fun _ => isBoundary_of_mem_lineBodies) hwithin hrs
  rw [restStartsAt_zero_iff hwithin] at habove
  have hstart : (∀ r ∈ rs, 0 ≤ r.1 - 1) ↔ ¬ ∃ r ∈ rs, r.1 = 0 := by
    simp only [not_exists, not_and]
    refine forall₂_congr fun r hr => ?_
    have := hbounds r hr
    omega
  have hstop : (∀ r ∈ rs, r.2 - 1 < (programLines source).length) ↔
      ¬ ∃ r ∈ rs, r.2 = (programLines source).length + 1 := by
    simp only [not_exists, not_and]
    refine forall₂_congr fun r hr => ?_
    have := hbounds r hr
    omega
  refine ⟨_, rfl, ?_, ?_, ?_, ?_⟩
  · rw [List.pairwise_map]
    exact hsorted.imp fun h => by omega
  · rw [List.forall_mem_map]
    intro r hr
    have := hbounds r hr
    omega
  · rw [List.forall_mem_map, hstart, habove]
    simp only [not_exists, not_and]
  · rw [List.forall_mem_map, hstop, hbelow]
    push Not
    rfl

/-- An indented line that did not parse, and no other. -/
def leadIn : Desk where
  host := {
    engines := {
      tree := .node "Module" "file_input" [
        .node "PythonErrorNode" "error_node" [
          .leaf "Name" "name" "x" 1 2 1 3,
          .leaf "Operator" "operator" "=" 1 4 1 5,
          .leaf "Operator" "operator" "(" 1 6 1 7],
        .leaf "EndMarker" "endmarker" "" 2 0 2 0] } }
  document := some {
    uri := "file:///w/a.py", path := "/w/a.py", dotName := "a", filename := "a.py"
    source := .text "  x = (" }

theorem programLines_leadIn : programLines "  x = (" = ["  x = (".toList] := by
  decide

theorem ranges_leadIn :
    ranges leadIn.host.engines.tree (programLines "  x = (") = .ok [(0, 1)] := by
  rw [ranges_eq, programLines_leadIn,
    show leadIn.host.engines.tree.parsed.foldlM Moment.look [] = .ok [] from rfl,
    show leadIn.host.engines.tree.restRanges ["  x = (".toList] = .ok [(0, 1)] by rfl]
  exact congrArg Except.ok (List.mergeSort_singleton _)

/-- The line that did not parse is folded with the line above it, which does not exist. -/
theorem leadIn_folds_above_first_line :
    foldingRanges leadIn = .ok (answerOf [(-1, 0)]) leadIn ∧
      ∃ rs, answerOf [(-1, 0)] = answerOf rs ∧ (¬ ∀ r ∈ rs, 0 ≤ r.1) ∧ ∀ r ∈ rs, r.2 < 1 := by
  have hanswer : Ensures foldingRanges leadIn
      (fun answer desk => answer = answerOf [(-1, 0)] ∧ desk = leadIn) fun _ _ => False := by
    rw [ensures_foldingRanges rfl rfl, ranges_leadIn]
    simp
  obtain ⟨_, _, hrun, rfl, rfl⟩ := hanswer.exists_ok
  have hlength : (programLines "  x = (").length = 1 := by rw [programLines_leadIn]; rfl
  have hleads : LeadsIn (programLines "  x = (") := by
    rw [programLines_leadIn]
    exact ⟨by decide, [], _, [], rfl, by decide, by decide⟩
  obtain ⟨rs, hrs, -, -, habove, hbelow⟩ := folding_answer_within_iff rfl rfl
    (by rw [hlength, Tree.Within]; decide) hrun
  rw [hlength] at hbelow
  refine ⟨hrun, rs, hrs, fun hall => ?_, hbelow.2 fun m hm hover => ?_⟩
  · exact habove.1 hall _ rfl (by decide) hleads
  · have hnone : ∀ m ∈ leadIn.host.engines.tree.parsed, m.folds = false := by decide
    exact absurd hover.1 (by rw [hnone m hm]; decide)

end LangServer.Folding
