import LangServer.Proofs.Positions

/-!
# The word at a position

A word is put together from two halves: the first run of word characters that leads up to the
cursor, found by a search from the left, and the run that begins at the cursor. The two make one
run (`IsRun`), and no run that touches the cursor goes beyond it on either side
(`exists_longestRun`).

So the word depends on the run only and not on the place of the cursor in it
(`word_eq_longest_run`).
-/

namespace LangServer.Document

open Text

/-! ## Runs -/

/-- The characters of a line between two columns. -/
def between (line : List Char) (start stop : Nat) : List Char := (line.take stop).drop start

/-- A run of word characters in a line. -/
structure IsRun (line : List Char) (start stop : Nat) : Prop where
  le : start ≤ stop
  le_length : stop ≤ line.length
  isWord : ∀ x ∈ between line start stop, isAsciiWord x = true

/-- The columns end at a place, start there or contain it. -/
def Touch (start stop column : Nat) : Prop := start ≤ column ∧ column ≤ stop

/-- The longest run that touches a column: every other one lies in it. -/
structure LongestRun (line : List Char) (column start stop : Nat) : Prop where
  run : IsRun line start stop
  touch : Touch start stop column
  longest : ∀ start' stop', IsRun line start' stop' → Touch start' stop' column →
    start ≤ start' ∧ stop' ≤ stop

/-- The characters beside a column. -/
def neighbours (line : List Char) (column : Nat) : List Char :=
  (line.take column).getLast?.toList ++ (line.drop column).head?.toList

section

variable {line front before after back : List Char} {column start stop i : Nat} {x : Char}

theorem mem_between {s : List Char} (hx : s[i]? = some x) (hstart : start ≤ i) (hstop : i < stop) :
    x ∈ between s start stop := by
  refine List.mem_iff_getElem?.mpr ⟨i - start, ?_⟩
  rw [between, List.getElem?_drop, List.getElem?_take_of_lt (by omega),
    show start + (i - start) = i by omega, hx]

theorem between_append : between (front ++ before ++ back) front.length
    (front.length + before.length) = before := by
  rw [between, ← List.length_append, List.take_left, List.drop_left]

theorem longestRun_append (hbefore : ∀ x ∈ before, isAsciiWord x = true)
    (hafter : ∀ x ∈ after, isAsciiWord x = true)
    (hfront : ∀ x ∈ front.getLast?, isAsciiWord x = false)
    (hback : ∀ x ∈ back.head?, isAsciiWord x = false) :
    LongestRun (front ++ (before ++ after) ++ back) (front.length + before.length) front.length
      (front.length + (before ++ after).length) := by
  refine ⟨⟨Nat.le_add_right _ _, ?_, ?_⟩, ⟨Nat.le_add_right _ _, ?_⟩, ?_⟩
  · simp only [List.length_append]
    omega
  · rw [between_append]
    exact fun x hx => (List.mem_append.mp hx).elim (hbefore x) (hafter x)
  · rw [List.length_append]
    omega
  · intro start' stop' hrun ⟨hstart, hstop⟩
    constructor
    · -- the last character in front would be in the run
      by_contra hlt
      rcases List.eq_nil_or_concat front with rfl | ⟨front, x, rfl⟩
      · exact hlt (Nat.zero_le _)
      · rw [List.concat_eq_append] at *
        have hlast : (front ++ [x] ++ (before ++ after) ++ back)[front.length]? = some x := by
          simp
        rw [List.length_append, List.length_singleton] at hlt hstop
        have hword := hrun.isWord x (mem_between hlast (by omega) (by omega))
        rw [hfront x (by simp)] at hword
        cases hword
    · -- the first character behind would be in the run
      by_contra hlt
      rcases back with _ | ⟨x, back⟩
      · have := hrun.le_length
        simp only [List.length_append, List.length_nil] at this hlt
        omega
      · have hfirst : (front ++ (before ++ after) ++ x :: back)[front.length +
            (before ++ after).length]? = some x := by
          rw [← List.length_append, List.getElem?_append_right (Nat.le_refl _)]
          simp
        have hword := hrun.isWord x (mem_between hfirst
          (by rw [List.length_append]; omega) (by omega))
        rw [hback x rfl] at hword
        cases hword

/-- A line around a column: two halves of a word, and what is in front of them and behind. -/
theorem exists_halves (h : column ≤ line.length) :
    ∃ front before after back, line = front ++ (before ++ after) ++ back ∧
      front.length + before.length = column ∧ wordAround line column = before ++ after ∧
      (∀ x ∈ before, isAsciiWord x = true) ∧ (∀ x ∈ after, isAsciiWord x = true) ∧
      (∀ x ∈ front.getLast?, isAsciiWord x = false) ∧
      ∀ x ∈ back.head?, isAsciiWord x = false := by
  have hfront := List.rdropWhile_append_rtakeWhile (p := isAsciiWord) (l := line.take column)
  have hback := List.takeWhile_append_dropWhile (p := isAsciiWord) (l := line.drop column)
  refine ⟨(line.take column).rdropWhile isAsciiWord, (line.take column).rtakeWhile isAsciiWord,
    (line.drop column).takeWhile isAsciiWord, (line.drop column).dropWhile isAsciiWord,
    ?_, ?_, rfl, fun x hx => List.mem_rtakeWhile_imp hx,
    fun x hx => List.all_eq_true.mp List.all_takeWhile x hx, fun x hx => ?_, fun x hx => ?_⟩
  · rw [← List.append_assoc, hfront, List.append_assoc, hback, List.take_append_drop]
  · rw [← List.length_append, hfront, List.length_take, Nat.min_eq_left h]
  · obtain ⟨hne, rfl⟩ := List.mem_getLast?_eq_getLast hx
    exact Bool.eq_false_iff.mpr (List.rdropWhile_last_not isAsciiWord _ hne)
  · have hnot := List.head?_dropWhile_not isAsciiWord (line.drop column)
    rw [hx] at hnot
    exact hnot

/-- **The two halves of a word make the longest run.** -/
theorem exists_longestRun (h : column ≤ line.length) :
    ∃ start stop, LongestRun line column start stop ∧
      wordAround line column = between line start stop := by
  obtain ⟨front, before, after, back, rfl, rfl, hword, hbefore, hafter, hfront, hback⟩ :=
    exists_halves h
  exact ⟨_, _, longestRun_append hbefore hafter hfront hback, hword.trans between_append.symm⟩

theorem wordAround_eq_nil_iff :
    wordAround line column = [] ↔ ∀ x ∈ neighbours line column, isAsciiWord x = false := by
  rw [wordAround, List.append_eq_nil_iff, neighbours, List.forall_mem_append]
  refine and_congr ?_ ?_
  · rcases List.eq_nil_or_concat (line.take column) with hnil | ⟨front, x, hconcat⟩
    · simp [hnil]
    · rw [hconcat, List.concat_eq_append, List.rtakeWhile_concat]
      simp
  · rcases line.drop column with _ | ⟨x, back⟩
    · simp
    · rw [List.takeWhile_cons]
      simp

theorem LongestRun.congr {column' start' stop' start'' stop'' : Nat}
    (h : LongestRun line column start stop) (h' : LongestRun line column' start' stop')
    (hrun : IsRun line start'' stop'') (htouch : Touch start'' stop'' column)
    (htouch' : Touch start'' stop'' column') : start = start' ∧ stop = stop' := by
  obtain ⟨hstart, hstop⟩ := h.longest _ _ hrun htouch
  obtain ⟨hstart', hstop'⟩ := h'.longest _ _ hrun htouch'
  obtain ⟨hle, hge⟩ := htouch
  obtain ⟨hle', hge'⟩ := htouch'
  obtain ⟨h₁, h₂⟩ := h.longest _ _ h'.run ⟨by omega, by omega⟩
  obtain ⟨h₃, h₄⟩ := h'.longest _ _ h.run ⟨by omega, by omega⟩
  omega

end

/-! ## Words of documents -/

section

variable {fs : Files} {d : Document} {s : String} {v : Value} {n c : Nat} {line : List Char}

theorem word_eq_wordAround (hread : d.read fs = .ok s)
    (hline : (Text.lines s.toList)[n]? = some line) (hv : HoldsPosition v n c)
    (hc : c ≤ (unterminated line).length) :
    d.word fs v = .ok (String.ofList (wordAround line c)) := by
  rw [word_of_holds hread hline hv,
    wordBefore_append_wordAfter (List.mem_of_getElem? hline) (.inl hc), Nat.min_eq_left hc]

/-- **The word at a position is the longest run of word characters that touches it.** Up to the
end of its line, the terminator left out, a position has a word, which is empty just if no word
character is beside the position. Any two positions that touch the same run have the same word. -/
theorem word_eq_longest_run (hread : d.read fs = .ok s)
    (hline : (Text.lines s.toList)[n]? = some line) :
    (∀ v c, HoldsPosition v n c → c ≤ (unterminated line).length →
      ∃ start stop, LongestRun line c start stop ∧
        d.word fs v = .ok (String.ofList (between line start stop)) ∧
        (d.word fs v = .ok "" ↔ ∀ x ∈ neighbours line c, isAsciiWord x = false)) ∧
    ∀ v v' c c' start stop, HoldsPosition v n c → HoldsPosition v' n c' →
      c ≤ (unterminated line).length → c' ≤ (unterminated line).length →
      IsRun line start stop → Touch start stop c → Touch start stop c' →
      d.word fs v = d.word fs v' := by
  have hle : (unterminated line).length ≤ line.length :=
    (List.rdropWhile_prefix isEol line).length_le
  constructor
  · intro v c hv hc
    obtain ⟨start, stop, hlongest, hword⟩ := exists_longestRun (hc.trans hle)
    refine ⟨start, stop, hlongest, ?_, ?_⟩
    · rw [word_eq_wordAround hread hline hv hc, hword]
    · rw [word_eq_wordAround hread hline hv hc, ← wordAround_eq_nil_iff, Except.ok.injEq,
        String.ofList_eq_empty_iff]
  · intro v v' c c' start stop hv hv' hc hc' hrun htouch htouch'
    obtain ⟨start₁, stop₁, hlongest, hword⟩ := exists_longestRun (hc.trans hle)
    obtain ⟨start₂, stop₂, hlongest', hword'⟩ := exists_longestRun (hc'.trans hle)
    obtain ⟨rfl, rfl⟩ := hlongest.congr hlongest' hrun htouch htouch'
    rw [word_eq_wordAround hread hline hv hc, word_eq_wordAround hread hline hv' hc', hword, hword']

end

/-- A document whose second line has a letter that is no word character inside a name. -/
def accented : Document where
  uri := "file:///w/a.py"
  path := "/w/a.py"
  dotName := "a"
  filename := "a.py"
  source := .text "f1 = 0\r\n  na\u00efve_2 = f1\r\n"

/-- The word at both ends of a run, and between two blanks. -/
theorem word_beside_accent :
    accented.word {} (.position 1 (.int 5)) = .ok "ve_2" ∧
    accented.word {} (.position 1 (.int 9)) = .ok "ve_2" ∧
    accented.word {} (.position 1 (.int 1)) = .ok "" := by
  have hline : (Text.lines "f1 = 0\r\n  na\u00efve_2 = f1\r\n".toList)[1]? =
      some "  na\u00efve_2 = f1\r\n".toList := by decide +kernel
  have hread : accented.read {} = .ok "f1 = 0\r\n  na\u00efve_2 = f1\r\n" := rfl
  obtain ⟨hlongest, hsame⟩ := word_eq_longest_run hread hline
  have hrun : IsRun "  na\u00efve_2 = f1\r\n".toList 5 9 :=
    ⟨by decide, by decide +kernel, by decide +kernel⟩
  have hequal := hsame (.position 1 (.int 5)) (.position 1 (.int 9)) 5 9 5 9 ⟨rfl, rfl⟩ ⟨rfl, rfl⟩
    (by decide +kernel) (by decide +kernel) hrun ⟨by decide, by decide⟩ ⟨by decide, by decide⟩
  obtain ⟨-, -, -, -, hnone⟩ := hlongest (.position 1 (.int 1)) 1 ⟨rfl, rfl⟩ (by decide +kernel)
  have hfirst : accented.word {} (.position 1 (.int 5)) = .ok "ve_2" := by
    rw [word_eq_wordAround hread hline ⟨rfl, rfl⟩ (by decide +kernel : 5 ≤ _)]
    exact congrArg Except.ok (by decide +kernel)
  exact ⟨hfirst, hequal ▸ hfirst, hnone.mpr (by decide +kernel)⟩

end LangServer.Document
