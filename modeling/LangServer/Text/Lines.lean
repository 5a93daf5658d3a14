import LangServer.Text.Basic

/-!
# Lines

Two notions of a line end meet in a language server. Editors end a line at a line feed, a carriage
return, or both together (`isEol`). The server's own lines also end at vertical tabs, form feeds,
the information separators and the Unicode line and paragraph separators (`isBoundary`). In both, a
carriage return and the line feed after it make one end, and a line keeps its end.
-/

namespace LangServer.Text

/-- The line ends of the editor protocol. -/
def isEol (c : Char) : Bool := c == '\n' || c == '\r'

/-- The line ends of the server's own lines. -/
def isBoundary (c : Char) : Bool :=
  let n := c.toNat
  (10 ≤ n && n ≤ 13) || (28 ≤ n && n ≤ 30) || n == 0x85 || n == 0x2028 || n == 0x2029

/-- Puts a character in front of the first line. -/
def consFirst (c : Char) : List (List Char) → List (List Char)
  | [] => [[c]]
  | line :: rest => (c :: line) :: rest

/-- The lines of a text, each with its end. The last line may have none, and no line is empty. -/
def linesBy (isEnd : Char → Bool) : List Char → List (List Char)
  | [] => []
  | c :: rest =>
    match c, rest with
    | '\r', '\n' :: more =>
      if isEnd '\r' then ['\r', '\n'] :: linesBy isEnd more
      else consFirst '\r' (linesBy isEnd ('\n' :: more))
    | c, rest =>
      if isEnd c then [c] :: linesBy isEnd rest else consFirst c (linesBy isEnd rest)

/-- The server's lines. -/
def lines (s : List Char) : List (List Char) := linesBy isBoundary s

/-- A line without its end. -/
def lineBody (line : List Char) : List Char := line.takeWhile fun c => !isBoundary c

/-- The server's lines without their ends. -/
def lineBodies (s : List Char) : List (List Char) := (lines s).map lineBody

/-- The first line end of the editor protocol that occurs in a text. -/
def firstEol? : List Char → Option (List Char)
  | [] => none
  | '\r' :: '\n' :: _ => some ['\r', '\n']
  | c :: rest => if isEol c then some [c] else firstEol? rest

/-- Every line end of the editor protocol becomes a line feed. -/
def unifyEols : List Char → List Char
  | [] => []
  | '\r' :: '\n' :: rest => '\n' :: unifyEols rest
  | c :: rest => (if c = '\r' then '\n' else c) :: unifyEols rest

@[simp] theorem flatten_consFirst (c : Char) (ls : List (List Char)) :
    (consFirst c ls).flatten = c :: ls.flatten := by
  cases ls <;> simp [consFirst]

theorem flatten_linesBy (isEnd : Char → Bool) (s : List Char) : (linesBy isEnd s).flatten = s := by
  fun_induction linesBy isEnd s with
  | case1 => rfl
  | case2 more h ih => simp [ih]
  | case3 more h ih => simp [ih]
  | case4 c rest _ h ih => simp [ih]
  | case5 c rest _ h ih => simp [ih]

theorem lines_append_newline {line : List Char} (h : ∀ c ∈ line, isBoundary c = false)
    (rest : List Char) : lines (line ++ '\n' :: rest) = (line ++ ['\n']) :: lines rest := by
  induction line with
  | nil =>
    rw [List.nil_append, lines, linesBy.eq_3 _ _ _ (by simp), if_pos (by decide)]
    rfl
  | cons c line ih =>
    rw [List.forall_mem_cons] at h
    have hc : c ≠ '\r' := by
      rintro rfl
      exact absurd h.1 (by decide)
    rw [List.cons_append, lines, linesBy.eq_3 _ _ _ (fun _ hr _ => hc hr), if_neg (by simp [h.1])]
    exact congrArg (consFirst c) (ih h.2)

theorem lineBody_append_newline {line : List Char} (h : ∀ c ∈ line, isBoundary c = false) :
    lineBody (line ++ ['\n']) = line := by
  rw [lineBody, List.takeWhile_append_of_pos (by simpa using h)]
  exact List.append_nil line

end LangServer.Text
