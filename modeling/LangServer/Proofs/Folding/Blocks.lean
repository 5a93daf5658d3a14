import LangServer.Proofs.Folding.Tables
import Mathlib.Data.List.TakeWhile

/-!
# Blocks by indentation

A line that is indented deeper than the line before it opens a block. The block goes from the last
line with ink before it to the last line with ink before the indentation falls back (`blocksFrom`).
The scan finds the same blocks with a stack of levels, and cannot fail:

* the levels on the stack go down to zero, each with the line at which it was opened
  (`Indents.InStep`), so that one line of the scan is a plain function (`Indents.step_eq_ok_read`);
* what has been closed and what is still open are nested in each other (`Indents.Nested`);
* when all levels are closed, the blocks that were found are those of the text
  (`Indents.ranges_readAll_perm`).
-/

namespace LangServer.Folding

open Text

/-! ## The blocks of a text -/

/-- How deep a line is indented; a line that begins with ink is not. -/
def depth (line : List Char) : Nat := (indent? line).getD 0

/-- Does anything but blanks stand on a line? -/
def hasInk (line : List Char) : Bool := !(trim line).isEmpty

/-- The last line with ink, after a line with the number `i`. -/
def inkAfter (ink i : Nat) (line : List Char) : Nat := if hasInk line then i else ink

/-- The last line with ink, after lines the first of which has the number `i`. -/
def lastInk : Nat → Nat → List (List Char) → Nat
  | ink, _, [] => ink
  | ink, i, line :: rest => lastInk (inkAfter ink i line) (i + 1) rest

/-- The blocks that lines open, the first of which has the number `i`. Before it, the last line has
the depth `before` and the last line with ink is `ink`. -/
def blocksFrom : Nat → Nat → Nat → List (List Char) → List (Nat × Nat)
  | _, _, _, [] => []
  | before, ink, i, line :: rest =>
    let ink' := inkAfter ink i line
    let others := blocksFrom (depth line) ink' (i + 1) rest
    if before < depth line then
      (ink, lastInk ink' (i + 1) (rest.takeWhile (before < depth ·))) :: others
    else others

/-- The number of empty lines at the beginning. -/
def leading (lines : List (List Char)) : Nat := (lines.takeWhile List.isEmpty).length

/-- The blocks of lines. The empty ones at the beginning are passed over. -/
def blocks (lines : List (List Char)) : List (Nat × Nat) :=
  blocksFrom 0 (leading lines) (leading lines + 1) (lines.drop (leading lines))

theorem indent?_eq_some {line : List Char} {d : Nat} (h : indent? line = some d) :
    depth line = d ∧ 0 < d := by
  refine ⟨by rw [depth, h, Option.getD_some], ?_⟩
  obtain ⟨hd, hsome⟩ := Option.ite_none_left_eq_some.1 h
  exact Nat.pos_of_ne_zero (Option.some_inj.1 hsome ▸ hd)

theorem depth_of_indent?_eq_none {line : List Char} (h : indent? line = none) : depth line = 0 := by
  rw [depth, h, Option.getD_none]

namespace Indents

variable {s : Indents} {d i : Nat} {line : List Char} {lines : List (List Char)}

/-! ## One line of the scan -/

/-- Closes the levels that are at least as deep as given. -/
def closeFrom (s : Indents) (d : Nat) : Indents :=
  { s with
    levels := s.levels.dropWhile (d ≤ ·)
    starts := s.starts.dropWhile (d ≤ ·.1)
    ranges := s.ranges ++ (s.starts.takeWhile (d ≤ ·.1)).map fun o => (o.2, s.line) }

/-- Reads a line: opens a level, or closes those that the line does not reach. -/
def read (s : Indents) (i : Nat) (line : List Char) : Indents :=
  let s' :=
    if s.level < depth line then s.open' (depth line)
    else { s.closeFrom (depth line) with level := depth line }
  { s' with line := inkAfter s.line i line }

/-- The levels on the stack go down to zero, below the level of the last line, and each of them
has a start. -/
structure InStep (s : Indents) : Prop where
  starts : s.starts.map Prod.fst = s.levels
  descending : (s.level :: s.levels).Pairwise (· > ·)
  ground : 0 ∈ s.level :: s.levels

theorem close_of_starts {l x : Nat} {rest : List (Nat × Nat)} (h : s.starts = (l, x) :: rest) :
    s.close l = .ok { s with starts := rest, ranges := s.ranges ++ [(x, s.line)] } := by
  rw [close, h, takeStart, if_pos rfl]

theorem closeAll_eq_ok {ls : List Nat} (h : s.starts.map Prod.fst = ls) :
    s.closeAll ls = .ok
      { s with
        levels := []
        starts := []
        ranges := s.ranges ++ s.starts.map fun o => (o.2, s.line) } := by
  induction ls generalizing s with
  | nil =>
    rw [closeAll, List.map_eq_nil_iff.1 h]
    simp
  | cons l ls ih =>
    obtain ⟨⟨_, x⟩, rest, hstarts, rfl, hrest⟩ := List.map_eq_cons_iff.1 h
    rw [closeAll, close_of_starts hstarts]
    refine (ih hrest).trans ?_
    simp [hstarts]

theorem closeTo_eq_ok {ls : List Nat} (h : s.starts.map Prod.fst = ls) (hlow : ∃ l ∈ ls, l < d) :
    s.closeTo d ls = .ok { s.closeFrom d with levels := ls.dropWhile (d ≤ ·) } := by
  induction ls generalizing s with
  | nil => simp at hlow
  | cons l ls ih =>
    obtain ⟨⟨_, x⟩, rest, hstarts, rfl, hrest⟩ := List.map_eq_cons_iff.1 h
    rw [closeTo]
    split
    · next hle =>
      have hlow : ∃ l ∈ ls, l < d := by
        obtain ⟨l, hl, hlt⟩ := hlow
        rcases List.mem_cons.1 hl with rfl | hl
        · exact absurd hlt (Nat.not_lt.2 hle)
        · exact ⟨l, hl, hlt⟩
      rw [close_of_starts hstarts]
      refine (ih hrest hlow).trans ?_
      simp [closeFrom, hstarts, hle]
    · next hle => simp [closeFrom, hstarts, hle, pure, Except.pure]

theorem closeFrom_zero (s : Indents) :
    s.closeFrom 0 =
      { s with
        levels := []
        starts := []
        ranges := s.ranges ++ s.starts.map fun o => (o.2, s.line) } := by
  have hall : s.starts.takeWhile (0 ≤ ·.1) = s.starts :=
    List.takeWhile_eq_self_iff.2 fun _ _ => decide_eq_true (Nat.zero_le _)
  have hnone : s.starts.dropWhile (0 ≤ ·.1) = [] :=
    List.dropWhile_eq_nil_iff.2 fun _ _ => decide_eq_true (Nat.zero_le _)
  have hlevels : s.levels.dropWhile (0 ≤ ·) = [] :=
    List.dropWhile_eq_nil_iff.2 fun _ _ => decide_eq_true (Nat.zero_le _)
  rw [closeFrom, hall, hnone, hlevels]

theorem InStep.closeAll (h : s.InStep) : s.closeAll s.levels = .ok (s.closeFrom 0) := by
  rw [closeAll_eq_ok h.starts, closeFrom_zero]

theorem InStep.lt_level (h : s.InStep) {l : Nat} (hl : l ∈ s.levels) : l < s.level :=
  (List.pairwise_cons.1 h.descending).1 l hl

theorem InStep.fst_mem (h : s.InStep) {o : Nat × Nat} (ho : o ∈ s.starts) : o.1 ∈ s.levels :=
  h.starts ▸ List.mem_map_of_mem ho

theorem InStep.closeFrom_level (h : s.InStep) : s.closeFrom s.level = s := by
  have hlevels : s.levels.dropWhile (s.level ≤ ·) = s.levels :=
    List.dropWhile_eq_self_iff.2 fun hpos hle =>
      absurd (of_decide_eq_true hle) (Nat.not_le.2 (h.lt_level (List.getElem_mem hpos)))
  have hdrop : s.starts.dropWhile (s.level ≤ ·.1) = s.starts :=
    List.dropWhile_eq_self_iff.2 fun hpos hle =>
      absurd (of_decide_eq_true hle) (Nat.not_le.2 (h.lt_level (h.fst_mem (List.getElem_mem hpos))))
  have htake : s.starts.takeWhile (s.level ≤ ·.1) = [] :=
    List.takeWhile_eq_nil_iff.2 fun hpos hle =>
      absurd (of_decide_eq_true hle) (Nat.not_le.2 (h.lt_level (h.fst_mem (List.getElem_mem hpos))))
  rw [closeFrom, hlevels, hdrop, htake, List.map_nil, List.append_nil]

/-- **A line is read without a fault.** -/
theorem step_eq_ok_read (h : s.InStep) (i : Nat) (line : List Char) :
    s.step i line = .ok (s.read i line) := by
  have hline : ∀ t : Indents, t.line = s.line →
      (if (trim line).isEmpty then t else { t with line := i }) =
        { t with line := inkAfter s.line i line } := by
    intro t ht
    rw [inkAfter, hasInk]
    cases (trim line).isEmpty <;> simp [← ht]
  rw [step, read]
  cases hindent : indent? line with
  | none =>
    rw [h.closeAll, depth_of_indent?_eq_none hindent]
    exact congrArg Except.ok (hline _ rfl)
  | some d =>
    obtain ⟨hd, hpos⟩ := indent?_eq_some hindent
    rw [hd]
    dsimp only
    split
    · exact congrArg Except.ok (hline _ rfl)
    · split
      · next hlt =>
        have hground : 0 ∈ s.levels := by
          rcases List.mem_cons.1 h.ground with h0 | h0
          · omega
          · exact h0
        rw [closeTo_eq_ok h.starts ⟨0, hground, hpos⟩]
        exact congrArg Except.ok (hline _ rfl)
      · have hd : d = s.level := by omega
        subst hd
        rw [h.closeFrom_level]
        exact congrArg Except.ok (hline _ rfl)

/-! ## What a line keeps in step -/

section Descending

variable {α : Type} {f : α → Nat} {as : List α}

theorem takeWhile_le_eq_filter (h : as.Pairwise (f · > f ·)) (d : Nat) :
    as.takeWhile (d ≤ f ·) = as.filter (d ≤ f ·) := by
  induction as with
  | nil => rfl
  | cons a as ih =>
    obtain ⟨ha, has⟩ := List.pairwise_cons.1 h
    rw [List.takeWhile_cons, List.filter_cons, ih has]
    split
    · rfl
    · next hd =>
      refine (List.filter_eq_nil_iff.2 fun b hb hdb => hd ?_).symm
      exact decide_eq_true (Nat.le_trans (of_decide_eq_true hdb) (Nat.le_of_lt (ha b hb)))

theorem dropWhile_le_eq_filter (h : as.Pairwise (f · > f ·)) (d : Nat) :
    as.dropWhile (d ≤ f ·) = as.filter (f · < d) := by
  induction as with
  | nil => rfl
  | cons a as ih =>
    obtain ⟨ha, has⟩ := List.pairwise_cons.1 h
    rw [List.dropWhile_cons, List.filter_cons, ih has]
    by_cases hd : d ≤ f a
    · rw [if_pos (decide_eq_true hd), if_neg (by simpa using hd)]
    · rw [if_neg (by simpa using hd), if_pos (by simpa using hd)]
      refine congrArg _ (List.filter_eq_self.2 fun b hb => ?_).symm
      exact decide_eq_true (Nat.lt_trans (ha b hb) (Nat.lt_of_not_le hd))

end Descending

theorem read_of_lt (h : s.level < depth line) (i : Nat) :
    s.read i line =
      { levels := s.level :: s.levels
        starts := (s.level, s.line) :: s.starts
        level := depth line
        line := inkAfter s.line i line
        ranges := s.ranges } := by
  rw [Indents.read, if_pos h, open']

theorem InStep.read_of_le (h : s.InStep) (hle : depth line ≤ s.level) (i : Nat) :
    s.read i line =
      { levels := s.levels.filter (· < depth line)
        starts := s.starts.filter (·.1 < depth line)
        level := depth line
        line := inkAfter s.line i line
        ranges := s.ranges ++
          (s.starts.filter (depth line ≤ ·.1)).map fun o => (o.2, s.line) } := by
  have hlevels : s.levels.Pairwise (· > ·) := (List.pairwise_cons.1 h.descending).2
  have hstarts : s.starts.Pairwise (·.1 > ·.1) := List.pairwise_map.1 (h.starts ▸ hlevels)
  have hdrop : s.levels.dropWhile (depth line ≤ ·) = s.levels.filter (· < depth line) :=
    dropWhile_le_eq_filter hlevels _
  rw [Indents.read, if_neg (Nat.not_lt.2 hle), closeFrom, hdrop, dropWhile_le_eq_filter hstarts,
    takeWhile_le_eq_filter hstarts]

theorem InStep.read (h : s.InStep) (i : Nat) (line : List Char) : (s.read i line).InStep := by
  rcases Nat.lt_or_ge s.level (depth line) with hlt | hle
  · rw [read_of_lt hlt]
    refine ⟨congrArg (s.level :: ·) h.starts, List.pairwise_cons.2 ⟨fun l hl => ?_, h.descending⟩,
      List.mem_cons_of_mem _ h.ground⟩
    rcases List.mem_cons.1 hl with rfl | hl
    · exact hlt
    · exact Nat.lt_trans (h.lt_level hl) hlt
  · rw [h.read_of_le hle]
    refine ⟨?_, List.pairwise_cons.2 ⟨fun l hl => ?_, ?_⟩, ?_⟩
    · rw [← h.starts, List.filter_map]
      rfl
    · exact of_decide_eq_true (List.mem_filter.1 hl).2
    · exact (List.pairwise_cons.1 h.descending).2.filter _
    · rcases Nat.eq_zero_or_pos (depth line) with h0 | hpos
      · rw [h0]
        exact List.mem_cons_self
      · refine List.mem_cons_of_mem _ (List.mem_filter.2 ⟨?_, decide_eq_true hpos⟩)
        exact (List.mem_cons.1 h.ground).resolve_left (by omega)

/-- Reads lines, the first of which has the number `i`. -/
def readAll : Indents → Nat → List (List Char) → Indents
  | s, _, [] => s
  | s, i, line :: rest => (s.read i line).readAll (i + 1) rest

theorem InStep.readAll (h : s.InStep) (i : Nat) (lines : List (List Char)) :
    (s.readAll i lines).InStep := by
  induction lines generalizing s i with
  | nil => exact h
  | cons line rest ih => exact ih (h.read i line) (i + 1)

/-- **The scan goes through.** -/
theorem steps_eq_ok_readAll (h : s.InStep) (i : Nat) (lines : List (List Char)) :
    s.steps i lines = .ok (s.readAll i lines) := by
  induction lines generalizing s i with
  | nil => rfl
  | cons line rest ih =>
    rw [steps, step_eq_ok_read h]
    exact ih (h.read i line) (i + 1)

/-! ## What was found -/

/-- The range of an open level, closed where the lines fall back to it. -/
def closing (ink i : Nat) (lines : List (List Char)) (o : Nat × Nat) : Nat × Nat :=
  (o.2, lastInk ink i (lines.takeWhile (o.1 < depth ·)))

theorem closing_of_lt {o : Nat × Nat} (h : o.1 < depth line) (ink i : Nat)
    (rest : List (List Char)) :
    closing ink i (line :: rest) o = closing (inkAfter ink i line) (i + 1) rest o := by
  rw [closing, closing, List.takeWhile_cons, if_pos (decide_eq_true h), lastInk]

theorem closing_of_le {o : Nat × Nat} (h : depth line ≤ o.1) (ink i : Nat)
    (rest : List (List Char)) : closing ink i (line :: rest) o = (o.2, ink) := by
  rw [closing, List.takeWhile_cons, if_neg (by simpa using h), lastInk]

/-- **The blocks that are found.** When lines have been read and all levels are closed, the further
ranges are those of the levels that were open before, and the blocks that the lines open. -/
theorem ranges_readAll_perm (h : s.InStep) (i : Nat) (lines : List (List Char)) :
    ((s.readAll i lines).closeFrom 0).ranges.Perm
      (s.ranges ++ (s.starts.map (closing s.line i lines) ++
        blocksFrom s.level s.line i lines)) := by
  induction lines generalizing s i with
  | nil =>
    rw [readAll, closeFrom_zero, blocksFrom, List.append_nil]
    exact List.Perm.refl _
  | cons line rest ih =>
    have ih := ih (h.read i line) (i + 1)
    refine List.Perm.trans ih ?_
    rcases Nat.lt_or_ge s.level (depth line) with hlt | hle
    · -- the line opens a level, and its block is the first of those that the lines open
      have hopen : s.starts.map (closing s.line i (line :: rest)) =
          s.starts.map (closing (inkAfter s.line i line) (i + 1) rest) :=
        List.map_congr_left fun o ho =>
          closing_of_lt (Nat.lt_trans (h.lt_level (h.fst_mem ho)) hlt) _ _ rest
      rw [read_of_lt hlt, hopen, blocksFrom, if_pos hlt]
      exact List.Perm.append_left _ List.perm_middle.symm
    · -- the line closes the levels that are as deep as it is
      have hclosed : (s.starts.filter (depth line ≤ ·.1)).map (closing s.line i (line :: rest)) =
          (s.starts.filter (depth line ≤ ·.1)).map fun o => (o.2, s.line) :=
        List.map_congr_left fun o ho =>
          closing_of_le (of_decide_eq_true (List.mem_filter.1 ho).2) _ _ rest
      have hopen : (s.starts.filter (·.1 < depth line)).map (closing s.line i (line :: rest)) =
          (s.starts.filter (·.1 < depth line)).map
            (closing (inkAfter s.line i line) (i + 1) rest) :=
        List.map_congr_left fun o ho =>
          closing_of_lt (of_decide_eq_true (List.mem_filter.1 ho).2) _ _ rest
      have hperm : (s.starts.filter (depth line ≤ ·.1) ++
          s.starts.filter (·.1 < depth line)).Perm s.starts := by
        simpa only [← decide_not, Nat.not_le] using
          List.filter_append_perm (depth line ≤ ·.1) s.starts
      rw [h.read_of_le hle, blocksFrom, if_neg (Nat.not_lt.2 hle), List.append_assoc,
        ← hclosed, ← hopen, ← List.append_assoc (List.map _ _), ← List.map_append]
      exact List.Perm.append_left _ (List.Perm.append_right _ (hperm.map _))

/-! ## Nesting -/

/-- What has been closed and what is open are nested in each other. A level was opened no earlier
than those below it; a range that was closed lies after the start of an open level or ends before
it. -/
structure Nested (s : Indents) : Prop where
  opened : ∀ o ∈ s.starts, o.2 ≤ s.line
  stacked : ∀ o ∈ s.starts, ∀ o' ∈ s.starts, o'.1 ≤ o.1 → o'.2 ≤ o.2
  closed : ∀ r ∈ s.ranges, r.1 ≤ r.2 ∧ r.2 ≤ s.line
  apart : ∀ o ∈ s.starts, ∀ r ∈ s.ranges, o.2 ≤ r.1 ∨ r.2 ≤ o.2
  nested : ∀ r ∈ s.ranges, ∀ r' ∈ s.ranges, r.1 < r'.1 → r.2 ≤ r'.1 ∨ r'.2 ≤ r.2
  /-- Ranges are closed one after the other. -/
  ends : s.ranges.Pairwise (·.2 ≤ ·.2)

theorem Nested.open_level (h : s.Nested) (hs : s.InStep) (d : Nat) : (s.open' d).Nested := by
  refine ⟨fun o ho => ?_, fun o ho o' ho' hle => ?_, h.closed, fun o ho r hr => ?_, h.nested,
    h.ends⟩
  · rcases List.mem_cons.1 ho with rfl | ho
    · exact Nat.le_refl _
    · exact h.opened o ho
  · rcases List.mem_cons.1 ho with rfl | ho <;> rcases List.mem_cons.1 ho' with rfl | ho'
    · exact Nat.le_refl _
    · exact h.opened o' ho'
    · exact absurd (hs.lt_level (hs.fst_mem ho)) (Nat.not_lt.2 hle)
    · exact h.stacked o ho o' ho' hle
  · rcases List.mem_cons.1 ho with rfl | ho
    · exact .inr (h.closed r hr).2
    · exact h.apart o ho r hr

/-- Levels that are closed together, from the top of the stack. -/
theorem Nested.close (h : s.Nested) {gone left : List (Nat × Nat)} (hgone : gone ⊆ s.starts)
    (hleft : left ⊆ s.starts) (habove : ∀ o ∈ gone, ∀ o' ∈ left, o'.1 ≤ o.1) (levels : List Nat)
    (level : Nat) :
    Nested
      { levels, level
        starts := left
        line := s.line
        ranges := s.ranges ++ gone.map fun o => (o.2, s.line) } := by
  have hnew : ∀ r ∈ gone.map fun o => (o.2, s.line), ∃ o ∈ gone, r = (o.2, s.line) :=
    fun r hr => (List.mem_map.1 hr).imp fun o ho => ⟨ho.1, ho.2.symm⟩
  refine ⟨fun o ho => h.opened o (hleft ho),
    fun o ho o' ho' => h.stacked o (hleft ho) o' (hleft ho'),
    fun r hr => ?_, fun o ho r hr => ?_, fun r hr r' hr' hlt => ?_, ?_⟩
  · rcases List.mem_append.1 hr with hr | hr
    · exact h.closed r hr
    · obtain ⟨o, ho, rfl⟩ := hnew r hr
      exact ⟨h.opened o (hgone ho), Nat.le_refl _⟩
  · rcases List.mem_append.1 hr with hr | hr
    · exact h.apart o (hleft ho) r hr
    · obtain ⟨o', ho', rfl⟩ := hnew r hr
      exact .inl (h.stacked o' (hgone ho') o (hleft ho) (habove o' ho' o ho))
  · rcases List.mem_append.1 hr with hr | hr <;> rcases List.mem_append.1 hr' with hr' | hr'
    · exact h.nested r hr r' hr' hlt
    · obtain ⟨o, ho, rfl⟩ := hnew r' hr'
      exact .inl ((h.apart o (hgone ho) r hr).resolve_left (Nat.not_le.2 hlt))
    · obtain ⟨o, -, rfl⟩ := hnew r hr
      exact .inr (h.closed r' hr').2
    · obtain ⟨o, -, rfl⟩ := hnew r hr
      obtain ⟨o', -, rfl⟩ := hnew r' hr'
      exact .inr (Nat.le_refl _)
  · refine List.pairwise_append.2 ⟨h.ends, ?_, fun r hr r' hr' => ?_⟩
    · exact List.pairwise_map.2 (List.pairwise_of_forall fun _ _ => Nat.le_refl _)
    · obtain ⟨o, -, rfl⟩ := hnew r' hr'
      exact (h.closed r hr).2

theorem Nested.later (h : s.Nested) {line : Nat} (hle : s.line ≤ line) :
    Nested { s with line } where
  opened o ho := (h.opened o ho).trans hle
  stacked := h.stacked
  closed r hr := ⟨(h.closed r hr).1, (h.closed r hr).2.trans hle⟩
  apart := h.apart
  nested := h.nested
  ends := h.ends

theorem le_inkAfter {ink : Nat} (h : ink ≤ i) (line : List Char) : ink ≤ inkAfter ink i line := by
  rw [inkAfter]
  split
  · exact h
  · exact Nat.le_refl _

theorem inkAfter_le {ink : Nat} (h : ink ≤ i) (line : List Char) : inkAfter ink i line ≤ i := by
  rw [inkAfter]
  split
  · exact Nat.le_refl _
  · exact h

theorem Nested.read (h : s.Nested) (hs : s.InStep) (hline : s.line ≤ i) (line : List Char) :
    (s.read i line).Nested := by
  rcases Nat.lt_or_ge s.level (depth line) with hlt | hle
  · rw [read_of_lt hlt]
    exact (h.open_level hs (depth line)).later (le_inkAfter hline line)
  · rw [hs.read_of_le hle]
    refine Nested.later (h.close (List.filter_subset_self _) (List.filter_subset_self _) ?_ _ _)
      (le_inkAfter hline line)
    intro o ho o' ho'
    have ho := of_decide_eq_true (List.mem_filter.1 ho).2
    have ho' := of_decide_eq_true (List.mem_filter.1 ho').2
    omega

theorem Nested.readAll (h : s.Nested) (hs : s.InStep) (hline : s.line < i)
    (lines : List (List Char)) :
    (s.readAll i lines).Nested ∧ (s.readAll i lines).line < i + lines.length := by
  induction lines generalizing s i with
  | nil => exact ⟨h, hline⟩
  | cons line rest ih =>
    have hnext : (s.read i line).line < i + 1 :=
      Nat.lt_succ_of_le (inkAfter_le (Nat.le_of_lt hline) line)
    have ih := ih (h.read hs (Nat.le_of_lt hline) line) (hs.read i line) hnext
    refine ⟨ih.1, ?_⟩
    have := ih.2
    rw [List.length_cons, Indents.readAll]
    omega

theorem Nested.closeFrom_zero (h : s.Nested) : (s.closeFrom 0).Nested := by
  rw [Indents.closeFrom_zero]
  exact h.close (List.Subset.refl _) (List.nil_subset _) (by simp) _ _

end Indents

/-! ## The whole text -/

theorem leading_lt_of_exists {lines : List (List Char)} (h : ∃ line ∈ lines, line ≠ []) :
    leading lines < lines.length := by
  obtain ⟨line, hmem, hne⟩ := h
  refine Nat.lt_of_le_of_ne (List.takeWhile_sublist _).length_le fun heq => hne ?_
  have hall := List.takeWhile_eq_self_iff.1 ((List.takeWhile_sublist _).eq_of_length heq)
  exact List.isEmpty_iff.1 (hall line hmem)

theorem byIndentation_spec {text : List Char} (h : ∃ line ∈ lineBodies text, line ≠ []) :
    ∃ s : Indents, byIndentation text = .ok s.ranges ∧ s.Nested ∧
      s.line ≤ (lineBodies text).length ∧ s.ranges.Perm (blocks (lineBodies text)) := by
  have hlt := leading_lt_of_exists h
  let n := leading (lineBodies text)
  let rest := (lineBodies text).drop n
  let start : Indents := { line := n }
  have hstep : start.InStep := ⟨rfl, List.pairwise_singleton .., List.mem_cons_self⟩
  have hstart : start.Nested := ⟨by simp [start], by simp [start], by simp [start], by simp [start],
    by simp [start], List.Pairwise.nil⟩
  have hlast : start.line < n + 1 := Nat.lt_succ_self n
  obtain ⟨hnested, hline⟩ := hstart.readAll hstep hlast rest
  refine ⟨(start.readAll (n + 1) rest).closeFrom 0, ?_, hnested.closeFrom_zero, ?_, ?_⟩
  · have hrun : start.steps (n + 1) rest = .ok (start.readAll (n + 1) rest) :=
      Indents.steps_eq_ok_readAll hstep _ _
    have hthrough : byIndentation text =
        (start.steps (n + 1) rest >>= fun s => do return (← s.closeAll s.levels).ranges) :=
      if_neg (Nat.ne_of_lt hlt)
    rw [hthrough, hrun]
    exact congrArg (· >>= fun s => .ok s.ranges) (hstep.readAll (n + 1) rest).closeAll
  · rw [List.length_drop] at hline
    rw [Indents.closeFrom_zero]
    dsimp only
    omega
  · exact Indents.ranges_readAll_perm hstep (n + 1) rest

/-- **Folding by indentation is total and properly nested.** In a text with a line that is not
empty the scan fails nowhere and closes just the blocks of the text. The table it gives has every
first line once, with the last of the blocks that start there, which is the longest; its ranges
lie within the lines of the text, and of two of them one ends where the other starts, or before,
or they are nested. -/
theorem indentation_total_and_nested (text : List Char) (h : ∃ line ∈ lineBodies text, line ≠ []) :
    ∃ (found : List (Nat × Nat)) (table : Ranges),
      byIndentation text = .ok found ∧ found.Perm (blocks (lineBodies text)) ∧
      indentationRanges text = .ok table ∧ table.Distinct ∧
      (∀ s e, (s, e) ∈ table ↔ IsGreatest {e | ∃ b ∈ found, (b.1 : Int) = s ∧ (b.2 : Int) = e} e) ∧
      (∀ s e, (s, e) ∈ table → 0 ≤ s ∧ s ≤ e ∧ e ≤ (lineBodies text).length) ∧
      ∀ s e s' e', (s, e) ∈ table → (s', e') ∈ table → s < s' → e ≤ s' ∨ e' ≤ e := by
  obtain ⟨t, hfound, hnested, hline, hblocks⟩ := byIndentation_spec h
  have hlongest := Ranges.longest_ofBlocks hnested.ends
  have hmem : ∀ s e, (s, e) ∈ Ranges.ofBlocks t.ranges →
      ∃ b ∈ t.ranges, (b.1 : Int) = s ∧ (b.2 : Int) = e := fun s e hse =>
    (List.mem_map.1 (hlongest.subset hse)).imp fun b hb =>
      ⟨hb.1, congrArg Prod.fst hb.2, congrArg Prod.snd hb.2⟩
  refine ⟨t.ranges, Ranges.ofBlocks t.ranges, hfound, hblocks, ?_, hlongest.distinct,
    fun s e => ?_, fun s e hse => ?_, fun s e s' e' hse hse' hlt => ?_⟩
  · rw [indentationRanges, hfound]
    rfl
  · rw [hlongest.mem_iff]
    simp only [List.mem_map, Prod.mk.injEq]
  · obtain ⟨b, hb, rfl, rfl⟩ := hmem s e hse
    have := hnested.closed b hb
    omega
  · obtain ⟨b, hb, rfl, rfl⟩ := hmem s e hse
    obtain ⟨b', hb', rfl, rfl⟩ := hmem s' e' hse'
    have := hnested.nested b hb b' hb' (Int.ofNat_lt.1 hlt)
    omega

/-- A blank line can open a block as well: then two blocks start at the line before it, and the
longer one stays. -/
theorem blank_line_opens_second_block :
    let text := "a\n   \n      b\n  c\nd\n".toList
    (∃ line ∈ lineBodies text, line ≠ []) ∧ byIndentation text = .ok [(1, 3), (1, 4)] ∧
      ∃ table : Ranges, indentationRanges text = .ok table ∧ (1, 4) ∈ table ∧ (1, 3) ∉ table := by
  intro text
  have h : ∃ line ∈ lineBodies text, line ≠ [] := ⟨['a'], by decide +kernel, by decide⟩
  have hfound : byIndentation text = .ok [(1, 3), (1, 4)] := by rfl
  obtain ⟨found, table, hfound', -, htable, -, hmem, -⟩ := indentation_total_and_nested text h
  cases hfound.symm.trans hfound'
  refine ⟨h, hfound, table, htable, (hmem 1 4).2 ⟨by simp, fun e he => ?_⟩, fun h3 => ?_⟩
  · obtain ⟨b, hb, -, rfl⟩ := he
    simp only [List.mem_cons, List.not_mem_nil, or_false] at hb
    rcases hb with rfl | rfl <;> decide
  · have := ((hmem 1 3).1 h3).2 (show (4 : Int) ∈ _ by simp)
    omega

end LangServer.Folding
