import LangServer.Proofs.Action
import LangServer.Proofs.Edit.LineEnds
import Mathlib.Data.List.DropRight

/-!
# What a position means

Five operations take a position, and each reads it in its own way: the engine's place clips the
column to the line without its end, the offset adds the character as it is, the word and the edit
cut the line, and the statement for snippets cuts the text at line feeds.

Up to the end of its line, the terminator left out, a position means one place to all of them
(`positions_agree_in_line`). Past that point the offset goes on counting (`offset_not_clipped`).
-/

namespace LangServer

open Text

/-! ## Lines and their ends -/

namespace Text

theorem mem_consFirst {c : Char} {ls : List (List Char)} {line : List Char}
    (h : line ∈ consFirst c ls) : line = [c] ∨ line ∈ ls ∨ ∃ tail ∈ ls, line = c :: tail := by
  cases ls with
  | nil => exact .inl (by simpa [consFirst] using h)
  | cons first rest =>
    rcases List.mem_cons.mp h with rfl | h
    · exact .inr (.inr ⟨first, by simp, rfl⟩)
    · exact .inr (.inl (by simp [h]))

/-- Nothing but the end of a line ends a line. -/
theorem exists_body_of_mem_lines {s line : List Char} (h : line ∈ lines s) :
    ∃ body ending, line = body ++ ending ∧ (∀ c ∈ body, isBoundary c = false) ∧
      (ending = ['\r', '\n'] ∨ ending.length ≤ 1) := by
  rw [lines] at h
  revert line
  fun_induction linesBy isBoundary s with
  | case1 => simp
  | case2 more _ ih =>
    intro line h
    rcases List.mem_cons.mp h with rfl | h
    · exact ⟨[], _, rfl, by simp, .inl rfl⟩
    · exact ih h
  | case3 more h _ => exact absurd (by decide) h
  | case4 c rest _ _ ih =>
    intro line h
    rcases List.mem_cons.mp h with rfl | h
    · exact ⟨[], _, rfl, by simp, .inr (by simp)⟩
    · exact ih h
  | case5 c rest _ hc ih =>
    intro line h
    rcases mem_consFirst h with rfl | h | ⟨tail, htail, rfl⟩
    · exact ⟨[c], [], by simp, by simpa using hc, .inr (by simp)⟩
    · exact ih h
    · obtain ⟨body, ending, rfl, hbody, hending⟩ := ih htail
      exact ⟨c :: body, ending, rfl, by simpa using ⟨by simpa using hc, hbody⟩, hending⟩

theorem length_lines_le (s : List Char) : (lines s).length ≤ s.length := by
  have hpos (ls : List (List Char)) (hls : ∀ l ∈ ls, 0 < l.length) :
      ls.length ≤ ls.flatten.length := by
    induction ls with
    | nil => simp
    | cons l ls ih =>
      have hl := hls l (by simp)
      have := ih fun m hm => hls m (by simp [hm])
      rw [List.flatten_cons, List.length_append, List.length_cons]
      omega
  simpa using hpos (lines s) fun l hl => length_pos_of_mem_linesBy hl

end Text

namespace Document

theorem exists_terminator {s line : List Char} (h : line ∈ Text.lines s) :
    (∀ c ∈ unterminated line, isEol c = false) ∧
      ∃ e ∈ [[], ['\n'], ['\r'], ['\r', '\n']], line = unterminated line ++ e := by
  obtain ⟨body, ending, rfl, hbody, hending⟩ := exists_body_of_mem_lines h
  have heol : ∀ c ∈ body, isEol c = false := fun c hc =>
    Bool.eq_false_iff.mpr fun he => absurd (isBoundary_of_isEol he) (by simp [hbody c hc])
  have hself : unterminated body = body :=
    List.rdropWhile_eq_self_iff.mpr fun hne => by simp [heol _ (List.getLast_mem hne)]
  have hpos : ∀ (front : List Char) (c : Char), isEol c = true →
      unterminated (front ++ [c]) = unterminated front :=
    fun front c hc => List.rdropWhile_concat_pos isEol front c hc
  rcases hending with rfl | hlength
  · have hcut : unterminated (body ++ ['\r', '\n']) = body := by
      rw [← List.singleton_append, ← List.append_assoc, hpos _ '\n' rfl, hpos _ '\r' rfl, hself]
    rw [hcut]
    exact ⟨heol, ['\r', '\n'], by simp, rfl⟩
  · rcases ending with _ | ⟨c, _ | _⟩
    · rw [List.append_nil, hself]
      exact ⟨heol, [], by simp, by simp⟩
    · cases hc : isEol c with
      | true =>
        rw [hpos _ c hc, hself]
        refine ⟨heol, [c], ?_, rfl⟩
        simpa [isEol] using hc
      | false =>
        have hcut : unterminated (body ++ [c]) = body ++ [c] :=
          List.rdropWhile_concat_neg isEol body c (by simp [hc])
        rw [hcut]
        refine ⟨fun x hx => ?_, [], by simp, by simp⟩
        rcases List.mem_append.mp hx with hx | hx
        · exact heol x hx
        · rwa [List.mem_singleton.mp hx]
    · simp at hlength

/-! ## The operations one by one -/

/-- The value holds a line and a character, whatever else it holds. -/
structure HoldsPosition (v : Value) (n c : Nat) : Prop where
  line : v.item "line" = .ok (.int n)
  character : v.item "character" = .ok (.int c)

theorem HoldsPosition.truthy {v : Value} {n c : Nat} (h : HoldsPosition v n c) :
    v.truthy = true := by
  have hline := h.line
  unfold Value.item at hline
  split at hline
  · next members =>
    cases members with
    | nil => simp [Value.lookup] at hline
    | cons _ _ => rfl
  · contradiction

/-- Where a line begins in the text. -/
def lineStart (s : List Char) (n : Nat) : Nat := ((Text.lines s).take n).flatten.length

/-- The word around a column of a line. -/
def wordAround (line : List Char) (column : Nat) : List Char :=
  (line.take column).rtakeWhile isAsciiWord ++ (line.drop column).takeWhile isAsciiWord

section

variable {fs : Files} {d : Document} {s : String} {v : Value} {n c : Nat} {line : List Char}

theorem lines_of_read (hread : d.read fs = .ok s) : d.lines fs = .ok (Text.lines s.toList) := by
  rw [Document.lines, hread]
  rfl

theorem place_of_holds (hread : d.read fs = .ok s) (hline : (Text.lines s.toList)[n]? = some line)
    (hv : HoldsPosition v n c) : place (d.lines fs) v =
      .ok [("line", .int (n + 1)), ("column", .int (min c (unterminated line).length : Nat))] := by
  have hlt : (n : Int) < (Text.lines s.toList).length := by
    have := (List.getElem?_eq_some_iff.mp hline).1
    omega
  have hlimit : columnLimit (Text.lines s.toList) n = .ok (unterminated line).length := by
    rw [columnLimit, if_pos hlt, at?_natCast, hline]
  have hmin : min (c : Int) ((unterminated line).length : Int) =
      (min c (unterminated line).length : Nat) := by omega
  simp only [place, hv.truthy, hv.line, hv.character, lines_of_read hread, Value.number,
    clipColumn_int, hlimit, hmin, Bool.not_true, Bool.false_eq_true, if_false, bind, Except.bind,
    pure, Except.pure, Except.map]

theorem offsetAt_of_holds (hread : d.read fs = .ok s) (hv : HoldsPosition v n c) :
    d.offsetAt fs v = .ok (lineStart s.toList n + c : Nat) := by
  simp only [offsetAt, hv.line, hv.character, lines_of_read hread, bound, Value.number, offset,
    before_natCast, bind, Except.bind, pure, Except.pure, lineStart]
  rw [Int.add_comm, Int.natCast_add]

theorem word_of_holds (hread : d.read fs = .ok s) (hline : (Text.lines s.toList)[n]? = some line)
    (hv : HoldsPosition v n c) :
    d.word fs v = .ok (String.ofList (wordBefore (line.take c) ++ wordAfter (line.drop c))) := by
  have hlt : ¬((Text.lines s.toList).length : Int) ≤ n := by
    have := (List.getElem?_eq_some_iff.mp hline).1
    omega
  simp only [word, wordAt, hv.line, hv.character, lines_of_read hread, Value.number, if_neg hlt,
    at?_natCast, hline, before_natCast, after_natCast, bind, Except.bind, pure, Except.pure]

/-- What may follow the end of a text: nothing, or one line feed that the text does not have. -/
def Closes (t e : List Char) : Prop := e = [] ∧ t.getLast? ≠ some '\n' ∨ e = ['\n']

theorem Closes.tail {x : Char} {t e : List Char} (h : Closes (x :: t) e) : Closes t e := by
  refine h.imp_left (And.imp_right fun hlast hfeed => hlast ?_)
  rw [List.getLast?_cons, hfeed]
  rfl

theorem runToEnd?_append {t e : List Char} (h : Closes t e) :
    runToEnd? (t ++ e) = if t.all isAsciiWord then some t else none := by
  induction t with
  | nil => rcases h with ⟨rfl, -⟩ | rfl <;> rfl
  | cons x t ih =>
    have hmore : endsHere (x :: (t ++ e)) = false := by
      rcases h with ⟨rfl, hlast⟩ | rfl
      · rcases t with _ | ⟨y, t⟩
        · have hx : x ≠ '\n' := fun hx => hlast (congrArg some hx)
          simp [endsHere, hx]
        · simp [endsHere]
      · rcases t with _ | ⟨y, t⟩ <;> simp [endsHere]
    rw [List.cons_append, runToEnd?, ih h.tail, hmore, List.all_cons]
    cases isAsciiWord x with
    | false => rfl
    | true => cases t.all isAsciiWord <;> rfl

theorem rtakeWhile_cons {x : Char} {t : List Char} (h : ¬ (x :: t).all isAsciiWord = true) :
    (x :: t).rtakeWhile isAsciiWord = t.rtakeWhile isAsciiWord := by
  rw [List.rtakeWhile, List.rtakeWhile, List.reverse_cons, List.takeWhile_append]
  split
  · next hlength =>
    have hwhole := (List.takeWhile_prefix isAsciiWord).eq_of_length hlength
    have htail : t.all isAsciiWord = true := by
      rw [← List.all_reverse, ← hwhole]
      exact List.all_takeWhile
    have hx : ¬ isAsciiWord x = true := fun hx => h (by rw [List.all_cons, hx, htail]; rfl)
    rw [List.takeWhile_cons_of_neg hx, List.append_nil, hwhole]
  · rfl

/-- **The first run that leads to the end of a text is the longest.** -/
theorem wordBefore_append {t e : List Char} (h : Closes t e) :
    wordBefore (t ++ e) = t.rtakeWhile isAsciiWord := by
  induction t with
  | nil => rcases h with ⟨rfl, -⟩ | rfl <;> rfl
  | cons x t ih =>
    have hrun := runToEnd?_append h
    rw [List.cons_append] at hrun ⊢
    rw [wordBefore, hrun, ih h.tail]
    split
    · next hall =>
      exact (List.rtakeWhile_eq_self_iff.mpr (List.all_eq_true.mp hall)).symm
    · next hall => exact (rtakeWhile_cons hall).symm

theorem wordBefore_of_not_isEol {t : List Char} (h : ∀ x ∈ t, isEol x = false) :
    wordBefore t = t.rtakeWhile isAsciiWord := by
  have hlast : t.getLast? ≠ some '\n' := fun hlast =>
    absurd (h '\n' (List.mem_of_getLast? hlast)) (by decide)
  rw [← wordBefore_append (.inl ⟨rfl, hlast⟩), List.append_nil]

theorem wordBefore_feed (t : List Char) :
    wordBefore (t ++ ['\n']) = t.rtakeWhile isAsciiWord :=
  wordBefore_append (.inr rfl)

/-- Before the end of its line, and also past it when no carriage return is there, the word at a
position is the word around the clipped column. -/
theorem wordBefore_append_wordAfter (hmem : line ∈ Text.lines s.toList)
    (h : c ≤ (unterminated line).length ∨ '\r' ∉ line) :
    wordBefore (line.take c) ++ wordAfter (line.drop c) =
      wordAround line (min c (unterminated line).length) := by
  obtain ⟨heol, e, he, hsplit⟩ := exists_terminator hmem
  by_cases hc : c ≤ (unterminated line).length
  · rw [Nat.min_eq_left hc, wordAround, wordAfter, wordBefore_of_not_isEol]
    intro x hx
    rw [hsplit, List.take_append_of_le_length hc] at hx
    exact heol x (List.mem_of_mem_take hx)
  · -- All of the line is before the column; of its end there is at most one line feed.
    have hr := h.resolve_left hc
    clear hmem h
    generalize unterminated line = body at heol hsplit hc ⊢
    subst hsplit
    rw [Nat.min_eq_right (by omega), wordAround, List.take_left, List.drop_left]
    simp only [List.mem_cons, List.not_mem_nil, or_false] at he
    rcases he with rfl | rfl | rfl | rfl
    · rw [List.append_nil, List.take_of_length_le (by omega), List.drop_of_length_le (by omega),
        wordBefore_of_not_isEol heol]
      rfl
    · have hle : (body ++ ['\n']).length ≤ c := by
        rw [List.length_append, List.length_singleton]
        omega
      rw [List.take_of_length_le hle, List.drop_of_length_le hle, wordBefore_feed]
      rfl
    · simp at hr
    · simp at hr

theorem change_of_insertion {w : Value} {text : List Char} (hread : d.read fs = .ok s)
    (hline : (Text.lines s.toList)[n]? = some line)
    (h : c ≤ (unterminated line).length ∨ (unterminated line).length = line.length)
    (hw : Change.SentAs ⟨some ⟨⟨n, c⟩, ⟨n, c⟩⟩, text⟩ w) :
    d.change fs w = .ok { d with source := .text (String.ofList
      (s.toList.take (lineStart s.toList n + min c (unterminated line).length) ++ text ++
        s.toList.drop (lineStart s.toList n + min c (unterminated line).length))) } := by
  have hlt := (List.getElem?_eq_some_iff.mp hline).1
  have hmin : min c line.length = min c (unterminated line).length := by
    have hle : (unterminated line).length ≤ line.length :=
      (List.rdropWhile_prefix isEol line).length_le
    omega
  rw [change_of_sentAs hread hw, Change.apply]
  simp only
  rw [splice_eq_spots (by simp) (by simp) (by simp; omega) (by simp) (by simp)]
  simp only [Position.spot, Int.toNat_natCast, spot_of_getElem? hline, hmin, lineStart]

theorem take_lineStart (s : List Char) (n : Nat) :
    s.take (lineStart s n) = ((Text.lines s).take n).flatten := by
  have hs : ((Text.lines s).take n).flatten ++ ((Text.lines s).drop n).flatten = s := by
    rw [← List.flatten_append, List.take_append_drop, flatten_lines]
  exact (List.prefix_iff_eq_take.mp ⟨_, hs⟩).symm

theorem drop_lineStart {s : List Char} (hline : (Text.lines s)[n]? = some line) :
    s.drop (lineStart s n) = line ++ ((Text.lines s).drop (n + 1)).flatten := by
  obtain ⟨hlt, hget⟩ := List.getElem?_eq_some_iff.mp hline
  have hs : s.take (lineStart s n) ++ ((Text.lines s).drop n).flatten = s := by
    rw [take_lineStart, ← List.flatten_append, List.take_append_drop, flatten_lines]
  rw [← List.flatten_cons, ← hget, ← List.drop_eq_getElem_cons hlt]
  exact List.append_cancel_left ((List.take_append_drop _ s).trans hs.symm)

/-- What stands before a position on its line is cut out of the line without its terminator. -/
theorem take_drop_lineStart {s : List Char} (hline : (Text.lines s)[n]? = some line)
    (h : c ≤ (unterminated line).length ∨
      lineStart s n + (unterminated line).length = s.length) :
    (s.drop (lineStart s n)).take c = (unterminated line).take c := by
  obtain ⟨-, e, -, hsplit⟩ := exists_terminator (List.mem_of_getElem? hline)
  have hdrop := drop_lineStart hline
  rw [hsplit, List.append_assoc] at hdrop
  rcases h with h | h
  · rw [hdrop, List.take_append_of_le_length h]
  · -- Nothing comes after the line, its terminator included.
    have hlength := congrArg List.length hdrop
    rw [List.length_drop, List.length_append] at hlength
    have hnil : e ++ ((Text.lines s).drop (n + 1)).flatten = [] :=
      List.length_eq_zero_iff.mp (by omega)
    rw [hdrop, hnil, List.append_nil]

end

end Document

/-! ## The statement before a position -/

namespace Completion

open Document

/-- The statement that a text ends in. -/
def statementAtEnd (t : List Char) : List Char :=
  statement (splitOn '\n' t).dropLast ((splitOn '\n' t).getLastD [])

/-- Each line ends in a line feed and has no other. -/
def FedLines (ls : List (List Char)) : Prop := ∀ l ∈ ls, ∃ body, l = body ++ ['\n'] ∧ '\n' ∉ body

theorem splitOn_flatten_append {ls : List (List Char)} (h : FedLines ls) (t : List Char) :
    splitOn '\n' (ls.flatten ++ t) = ls.map List.dropLast ++ splitOn '\n' t := by
  induction ls with
  | nil => rfl
  | cons l ls ih =>
    obtain ⟨body, rfl, hbody⟩ := h l (by simp)
    have ih := ih fun m hm => h m (by simp [hm])
    rw [List.flatten_cons, List.append_assoc, List.append_assoc, List.singleton_append,
      splitOn_append_cons, splitOn_of_notMem hbody, ih]
    simp

theorem splitOnAtMost_flatten_append {ls : List (List Char)} (h : FedLines ls) (t : List Char) :
    splitOnAtMost '\n' ls.length (ls.flatten ++ t) = ls.map List.dropLast ++ [t] := by
  rw [splitOnAtMost, splitOn_flatten_append h]
  have hjoin := intercalate_splitOn '\n' t
  obtain ⟨first, rest, hsplit⟩ := List.exists_cons_of_ne_nil (splitOn_ne_nil '\n' t)
  cases rest with
  | nil =>
    rw [hsplit, List.intercalate_singleton] at hjoin
    simp [hsplit, hjoin]
  | cons second rest =>
    have hmore : ¬(ls.map List.dropLast ++ splitOn '\n' t).length ≤ ls.length + 1 := by
      rw [hsplit]
      simp
    have htake : (ls.map List.dropLast ++ splitOn '\n' t).take ls.length = ls.map List.dropLast :=
      List.take_left' (by simp)
    have hdrop : (ls.map List.dropLast ++ splitOn '\n' t).drop ls.length = splitOn '\n' t :=
      List.drop_left' (by simp)
    simp only [if_neg hmore, htake, hdrop, hjoin]

theorem statementAtEnd_flatten_append {ls : List (List Char)} (h : FedLines ls) {t : List Char}
    (ht : '\n' ∉ t) : statementAtEnd (ls.flatten ++ t) = statement (ls.map List.dropLast) t := by
  rw [statementAtEnd, splitOn_flatten_append h, splitOn_of_notMem ht]
  simp

theorem fedLines_take {s : List Char} {n : Nat}
    (h : ∀ l ∈ (lines s).take n, l.getLast? = some '\n') : FedLines ((lines s).take n) := by
  intro l hl
  obtain ⟨body, rfl⟩ := List.getLast?_eq_some_iff.mp (h l hl)
  refine ⟨body, rfl, fun hmem => ?_⟩
  obtain ⟨heol, e, he, hsplit⟩ := exists_terminator (List.mem_of_mem_take hl)
  generalize unterminated (body ++ ['\n']) = front at heol hsplit
  have hfront : '\n' ∉ front := fun h => absurd (heol _ h) (by decide)
  simp only [List.mem_cons, List.not_mem_nil, or_false] at he
  rcases he with rfl | rfl | rfl | rfl
  · rw [List.append_nil] at hsplit
    exact hfront (hsplit ▸ by simp)
  · exact hfront (List.append_cancel_right hsplit ▸ hmem)
  · exact absurd (List.append_inj_right' hsplit rfl) (by decide)
  · have hsplit' : body ++ ['\n'] = (front ++ ['\r']) ++ ['\n'] := by simp [hsplit]
    rw [List.append_cancel_right hsplit'] at hmem
    simp [hfront] at hmem

section

variable {v : Value} {n c : Nat} {line : List Char}

theorem checkCuts_natCast {k : Nat} (h : k < 0x8000000000000000) : checkCuts k = .ok () := by
  rw [checkCuts, if_pos]
  omega

theorem statementAt_flatten_append {above : List (List Char)} (h : FedLines above)
    (hlength : above.length < 0x8000000000000000) (hv : HoldsPosition v above.length c)
    (t : List Char) :
    statementAt (above.flatten ++ t) v = .ok (statement (above.map List.dropLast) (t.take c)) := by
  have hcheck := checkCuts_natCast hlength
  have hat : at? (above.map List.dropLast ++ [t]) (above.length : Int) = some t := by
    rw [at?_natCast, List.getElem?_append_right (by simp)]
    simp
  have htake : (above.map List.dropLast ++ [t]).take above.length = above.map List.dropLast :=
    List.take_left' (by simp)
  have hnumber : ∀ k : Int, (Value.int k).number = .ok k := fun _ => rfl
  rw [statementAt, hv.line, ok_bind, hnumber, ok_bind, hcheck, ok_bind,
    if_neg (Int.not_lt.mpr (Int.natCast_nonneg above.length)), Int.toNat_natCast,
    splitOnAtMost_flatten_append h]
  simp only [hat, htake, hv.character, hnumber, ok_bind, before_natCast]
  rfl

/-- Nothing from the position on counts for the statement. -/
theorem statementAt_eq_statementAtEnd {s : List Char} (hline : (lines s)[n]? = some line)
    (hv : HoldsPosition v n c)
    (h : c ≤ (unterminated line).length ∨ lineStart s n + (unterminated line).length = s.length)
    (habove : ∀ l ∈ (lines s).take n, l.getLast? = some '\n')
    (hlength : s.length < 0x8000000000000000) :
    statementAt s v = .ok (statementAtEnd
      (s.take (lineStart s n + min c (unterminated line).length))) := by
  have hlt := (List.getElem?_eq_some_iff.mp hline).1
  have hle := length_lines_le s
  have hs : ((lines s).take n).flatten ++ s.drop (lineStart s n) = s := by
    rw [← take_lineStart, List.take_append_drop]
  have hn : ((lines s).take n).length = n := List.length_take_of_le (by omega)
  have hfed := fedLines_take habove
  have hfeed : '\n' ∉ (unterminated line).take c := fun hmem =>
    absurd ((exists_terminator (List.mem_of_getElem? hline)).1 _ (List.mem_of_mem_take hmem))
      (by decide)
  have hbefore : s.take (lineStart s n + min c (unterminated line).length) =
      ((lines s).take n).flatten ++ (unterminated line).take c := by
    rw [List.take_add, take_lineStart, take_drop_lineStart hline (.inl (Nat.min_le_right _ _)),
      ← List.take_take, List.take_length]
  calc statementAt s v
      = statementAt (((lines s).take n).flatten ++ s.drop (lineStart s n)) v := by rw [hs]
    _ = .ok (statement (((lines s).take n).map List.dropLast) ((s.drop (lineStart s n)).take c)) :=
      statementAt_flatten_append hfed (by omega) (hn.symm ▸ hv) _
    _ = .ok (statementAtEnd (((lines s).take n).flatten ++ (unterminated line).take c)) := by
      rw [statementAtEnd_flatten_append hfed hfeed, take_drop_lineStart hline h]
    _ = _ := by rw [hbefore]

theorem ensures_usesSnippets {desk : Desk} {d : Document} {s : String} {code : List Char}
    (hdoc : desk.document = some d) (hread : d.read desk.host.machine.files = .ok s)
    (hv : HoldsPosition v n c) (hcode : statementAt s.toList v = .ok code) :
    Ensures (usesSnippets v) desk
      (fun offered desk' =>
        offered = allowsSnippets desk.host.engines.statementKind code ∧
        desk' = { desk with host := { desk.host with
          asked := desk.host.asked ++ [.parse (String.ofList code)] } })
      fun _ _ => False := by
  have hsource : d.readOr .noMember desk.host.machine.files = .ok s := hread
  simp only [usesSnippets, Job.source, Job.sourceOr, Job.document, Job.files, Job.engines, Job.ask,
    Host.ask, hv.line, hdoc, hsource, hcode, ensures_bind, ensures_get, ensures_pure,
    ensures_liftExcept_ok, ensures_liftJob, ensures_modify, and_self]

end

end Completion

namespace Document

open Completion

/-- **Up to the end of its line a position means one place.** The engine's place always is the
clipped one, while the offset counts the character as it is given. On the line without its
terminator, or at an end of the text that no terminator follows, the word, an insertion and the
statement for snippets all go by the clipped place. -/
theorem positions_agree_in_line {desk : Desk} {d : Document} {s : String} {v : Value} {n c : Nat}
    {line : List Char} (hdoc : desk.document = some d)
    (hread : d.read desk.host.machine.files = .ok s)
    (hline : (Text.lines s.toList)[n]? = some line) (hv : HoldsPosition v n c) :
    let fs := desk.host.machine.files
    let limit := (unterminated line).length
    let start := lineStart s.toList n
    let o := start + min c limit
    place (d.lines fs) v = .ok [("line", .int (n + 1)), ("column", .int (o - start : Nat))] ∧
    d.offsetAt fs v = .ok (start + c : Nat) ∧
    (c ≤ limit ∨ '\r' ∉ line →
      d.word fs v = .ok (String.ofList (wordAround line (o - start)))) ∧
    (c ≤ limit ∨ limit = line.length → ∀ w text, Change.SentAs ⟨some ⟨⟨n, c⟩, ⟨n, c⟩⟩, text⟩ w →
      d.change fs w = .ok { d with
        source := .text (String.ofList (s.toList.take o ++ text ++ s.toList.drop o)) }) ∧
    (c ≤ limit ∨ start + limit = s.toList.length →
      (∀ l ∈ (Text.lines s.toList).take n, l.getLast? = some '\n') →
      s.toList.length < 0x8000000000000000 →
      Ensures (usesSnippets v) desk
        (fun offered desk' =>
          let code := statementAtEnd (s.toList.take o)
          offered = allowsSnippets desk.host.engines.statementKind code ∧
          desk' = { desk with host := { desk.host with
            asked := desk.host.asked ++ [.parse (String.ofList code)] } })
        fun _ _ => False) := by
  intro fs limit start o
  have hcolumn : o - start = min c limit := Nat.add_sub_cancel_left ..
  rw [hcolumn]
  refine ⟨place_of_holds hread hline hv, offsetAt_of_holds hread hv, fun h => ?_,
    fun h w text hw => ?_, fun h habove hlength => ?_⟩
  · rw [word_of_holds hread hline hv, wordBefore_append_wordAfter (List.mem_of_getElem? hline) h]
  · exact change_of_insertion hread hline h hw
  · exact ensures_usesSnippets hdoc hread hv
      (statementAt_eq_statementAtEnd hline hv h habove hlength)

/-- A document that ends in a line without a terminator. -/
def unfinished : Document where
  uri := "file:///w/a.py"
  path := "/w/a.py"
  dotName := "a"
  filename := "a.py"
  source := .text "import os\r\nab"

/-- Far past the end of its last line all but the offset take the end of the text. -/
theorem past_end_of_text :
    let v := Value.position 1 (.int 9)
    place (unfinished.lines {}) v = .ok [("line", .int 2), ("column", .int 2)] ∧
    unfinished.offsetAt {} v = .ok 20 ∧
    unfinished.word {} v = .ok "ab" ∧
    unfinished.change {} (Change.toValue ⟨some ⟨⟨1, 9⟩, ⟨1, 9⟩⟩, ['c']⟩) =
      .ok { unfinished with source := .text "import os\r\nabc" } ∧
    ∃ offered desk', usesSnippets v ⟨{}, some unfinished⟩ = .ok offered desk' ∧
      desk'.host.asked = [.parse "ab"] := by
  intro v
  have hline : (Text.lines "import os\r\nab".toList)[1]? = some "ab".toList := by decide +kernel
  have hstart : lineStart "import os\r\nab".toList 1 = 11 := by decide +kernel
  have hlimit : (unterminated "ab".toList).length = 2 := by decide +kernel
  have hdoc : Desk.document ⟨{}, some unfinished⟩ = some unfinished := rfl
  have hv : HoldsPosition v 1 9 := ⟨rfl, rfl⟩
  obtain ⟨hplace, hoffset, hword, hchange, hsnippets⟩ :=
    positions_agree_in_line hdoc rfl hline hv
  rw [hstart] at hplace hoffset hword hchange hsnippets
  rw [hlimit] at hplace hword hchange hsnippets
  have hab : String.ofList (wordAround "ab".toList 2) = "ab" := by decide +kernel
  have habc : String.ofList ("import os\r\nab".toList.take 13 ++ ['c'] ++
      "import os\r\nab".toList.drop 13) = "import os\r\nabc" := by decide +kernel
  have hcode : String.ofList (statementAtEnd ("import os\r\nab".toList.take 13)) = "ab" := by
    decide +kernel
  have hchanged := hchange (.inr (by decide +kernel)) _ ['c'] (Change.sentAs_toValue _)
  obtain ⟨offered, desk', hrun, -, rfl⟩ :=
    (hsnippets (.inr (by decide +kernel)) (by decide +kernel) (by decide +kernel)).exists_ok
  refine ⟨hplace, hoffset, (hword (.inr (by decide +kernel))).trans (congrArg _ hab),
    hchanged.trans (congrArg (fun t => Except.ok { unfinished with source := .text t }) habc),
    offered, _, hrun, ?_⟩
  exact congrArg (fun code => [Request.parse code]) hcode

/-- The offset of a position past the end of its line is not that of the line's end. -/
theorem offset_not_clipped : ¬∀ (fs : Files) (d : Document) (s : String) (v : Value) (n c : Nat)
    (line : List Char), d.read fs = .ok s → (Text.lines s.toList)[n]? = some line →
    HoldsPosition v n c →
    d.offsetAt fs v = .ok (lineStart s.toList n + min c (unterminated line).length : Nat) := by
  intro h
  have hread : Document.read {} { unfinished with source := .text "import sys\n\n" } =
      .ok "import sys\n\n" := rfl
  have hv : HoldsPosition (.position 1 (.int 5)) 1 5 := ⟨rfl, rfl⟩
  have hclipped := h _ _ _ _ _ _ ['\n'] hread (by decide +kernel) hv
  rw [offsetAt_of_holds hread hv] at hclipped
  exact absurd (Except.ok.inj hclipped) (by decide +kernel)

end Document
end LangServer
