import LangServer.Proofs.Edit.Sent

/-!
# Where the two notions of a line agree

An editor ends a line at a line feed, a carriage return, or both together; the server ends one at
further characters as well (`isServerEnd`). Both sides count positions in their own lines, so a
position that an editor sends may mean another place to the server.

* `spot_lines_eq_iff`: on a line of the editor, the two sides mean the same place exactly when no
  server-only line end lies before it, one that is the last character before it excepted.
* `lines_eq_editorLines`: the two sides have the same lines if the text has no server-only line end
  before its last character.
-/

namespace LangServer

namespace Text

/-- The lines of a text as an editor counts them. -/
def editorLines (s : List Char) : List (List Char) := linesBy isEol s

/-- Ends the character a line of the server, but not of the editor? -/
def isServerEnd (c : Char) : Bool := isBoundary c && !isEol c

theorem isBoundary_of_isEol {c : Char} (h : isEol c = true) : isBoundary c = true := by
  rw [isEol, Bool.or_eq_true, beq_iff_eq, beq_iff_eq] at h
  rcases h with rfl | rfl <;> rfl

/-- **The two sides walk over a text together.** A text is empty, or it begins with a line end of
the editor, which both sides see, or with a character that ends no line for either side, or with a
line end that only the server sees. -/
theorem lines_induction {motive : List Char → List (List Char) → List (List Char) → Prop}
    (nil : motive [] [] [])
    (shared : ∀ e rest, e ≠ [] → (∀ c ∈ e, isServerEnd c = false) →
      motive rest (lines rest) (editorLines rest) →
      motive (e ++ rest) (e :: lines rest) (e :: editorLines rest))
    (inner : ∀ c rest, isServerEnd c = false → motive rest (lines rest) (editorLines rest) →
      motive (c :: rest) (consFirst c (lines rest)) (consFirst c (editorLines rest)))
    (serverOnly : ∀ c rest, isServerEnd c = true → motive rest (lines rest) (editorLines rest) →
      motive (c :: rest) ([c] :: lines rest) (consFirst c (editorLines rest)))
    (s : List Char) : motive s (lines s) (editorLines s) := by
  rw [editorLines]
  fun_induction linesBy isEol s with
  | case1 => exact nil
  | case2 more heol ih =>
    rw [lines, linesBy.eq_2, if_pos (isBoundary_of_isEol heol)]
    have hend : ∀ c ∈ ['\r', '\n'], isServerEnd c = false := by
      simp only [List.mem_cons, List.not_mem_nil, or_false, forall_eq_or_imp, forall_eq]
      exact ⟨rfl, rfl⟩
    exact shared ['\r', '\n'] more (by simp) hend ih
  | case3 more h _ => exact absurd rfl h
  | case4 c rest hc heol ih =>
    rw [lines, linesBy.eq_3 _ _ _ hc, if_pos (isBoundary_of_isEol heol)]
    exact shared [c] rest (by simp) (by simp [isServerEnd, heol]) ih
  | case5 c rest hc heol ih =>
    rw [lines, linesBy.eq_3 _ _ _ hc]
    by_cases hend : isBoundary c = true
    · rw [if_pos hend]
      exact serverOnly c rest (by simp [isServerEnd, hend, heol]) ih
    · rw [if_neg hend]
      exact inner c rest (by simp [isServerEnd, hend]) ih

@[simp] theorem flatten_lines (s : List Char) : (lines s).flatten = s :=
  flatten_linesBy isBoundary s

@[simp] theorem flatten_editorLines (s : List Char) : (editorLines s).flatten = s :=
  flatten_linesBy isEol s

theorem length_pos_of_mem_linesBy {isEnd : Char → Bool} {s line : List Char}
    (h : line ∈ linesBy isEnd s) : 0 < line.length := by
  have hcons : ∀ (c : Char) (ls : List (List Char)), (∀ l ∈ ls, 0 < l.length) →
      ∀ l ∈ consFirst c ls, 0 < l.length := by
    intro c ls hls l hl
    cases ls with
    | nil => simp_all [consFirst]
    | cons first rest =>
      rcases List.mem_cons.1 hl with rfl | hl
      · simp
      · exact hls l (List.mem_cons_of_mem _ hl)
  revert line
  fun_induction linesBy isEnd s with
  | case1 => simp
  | case2 more _ ih =>
    intro l hl
    rcases List.mem_cons.1 hl with rfl | hl
    · simp
    · exact ih hl
  | case3 more _ ih => exact hcons _ _ (fun l hl => ih hl) _
  | case4 c rest _ _ ih =>
    intro l hl
    rcases List.mem_cons.1 hl with rfl | hl
    · simp
    · exact ih hl
  | case5 c rest _ _ ih => exact hcons _ _ (fun l hl => ih hl) _

end Text

namespace Document

open Text

variable {s : List Char}

/-! ## Spots in a text that loses its first character -/

@[simp] theorem spot_consFirst_zero_zero (c : Char) (ls : List (List Char)) :
    spot (consFirst c ls) 0 0 = 0 := by
  cases ls <;> simp [consFirst, spot]

@[simp] theorem spot_consFirst_zero_succ (c : Char) (ls : List (List Char)) (k : Nat) :
    spot (consFirst c ls) 0 (k + 1) = 1 + spot ls 0 k := by
  cases ls with
  | nil => simp [consFirst, spot]
  | cons line rest =>
    rw [consFirst, spot, spot, List.length_cons]
    omega

@[simp] theorem spot_consFirst_succ (c : Char) (ls : List (List Char)) (n k : Nat) :
    spot (consFirst c ls) (n + 1) k = 1 + spot ls (n + 1) k := by
  cases ls with
  | nil => simp [consFirst, spot]
  | cons line rest =>
    rw [consFirst, spot, spot, List.length_cons]
    omega

theorem succ_lt_length_of_consFirst {c : Char} {ls : List (List Char)} {n : Nat}
    (h : n + 1 < (consFirst c ls).length) : n + 1 < ls.length := by
  cases ls with
  | nil => simp [consFirst] at h
  | cons line rest => simpa [consFirst] using h

theorem spot_le_spot_succ (ls : List (List Char)) (n c c' : Nat) :
    spot ls n c ≤ spot ls (n + 1) c' := by
  fun_induction spot ls n c with
  | case1 => exact Nat.zero_le _
  | case2 line rest c =>
    rw [spot]
    omega
  | case3 line rest n c ih =>
    rw [spot]
    omega

theorem spot_mono (ls : List (List Char)) (n : Nat) {c c' : Nat} (h : c ≤ c') :
    spot ls n c ≤ spot ls n c' := by
  fun_induction spot ls n c with
  | case1 => exact Nat.zero_le _
  | case2 line rest c =>
    rw [spot]
    omega
  | case3 line rest n c ih =>
    rw [spot]
    exact Nat.add_le_add_left (ih h) _

theorem spot_editorLines_pos {k : Nat} (h : 0 < (editorLines s).length)
    (hk : 0 < k) : 0 < spot (editorLines s) 0 k := by
  cases hs : editorLines s with
  | nil => simp [hs] at h
  | cons line rest =>
    have hmem : line ∈ linesBy isEol s := by
      rw [← editorLines, hs]
      exact List.mem_cons_self
    have hline : 0 < line.length := length_pos_of_mem_linesBy hmem
    rw [spot]
    omega

theorem spot_editorLines_succ_pos {n : Nat} (h : 0 < (editorLines s).length)
    (k : Nat) : 0 < spot (editorLines s) (n + 1) k := by
  induction n with
  | zero =>
    exact Nat.lt_of_lt_of_le (spot_editorLines_pos h Nat.one_pos) (spot_le_spot_succ _ _ _ _)
  | succ n ih => exact Nat.lt_of_lt_of_le ih (spot_le_spot_succ _ _ _ _)

/-! ## Server-only line ends before a place -/

/-- No server-only line end lies before the place `o`, one right before it excepted. -/
def Unbroken (s : List Char) (o : Nat) : Prop := ∀ c ∈ s.take (o - 1), isServerEnd c = false

theorem unbroken_append {e : List Char} (he : ∀ c ∈ e, isServerEnd c = false) (rest : List Char)
    (o : Nat) : Unbroken (e ++ rest) (e.length + o) ↔ Unbroken rest o := by
  rw [Unbroken, Unbroken]
  cases o with
  | zero =>
    rw [Nat.add_zero, List.take_append_of_le_length (Nat.sub_le _ _)]
    exact ⟨fun _ => by simp, fun _ c hc => he c (List.mem_of_mem_take hc)⟩
  | succ o =>
    rw [← Nat.add_assoc, Nat.add_sub_cancel, List.take_length_add_append, Nat.add_sub_cancel]
    constructor
    · intro h c hc
      exact h c (List.mem_append_right _ hc)
    · intro h c hc
      rcases List.mem_append.1 hc with hc | hc
      · exact he c hc
      · exact h c hc

theorem unbroken_cons {c : Char} (hc : isServerEnd c = false) (rest : List Char) (o : Nat) :
    Unbroken (c :: rest) (1 + o) ↔ Unbroken rest o :=
  unbroken_append (e := [c]) (by simpa using hc) rest o

theorem unbroken_cons_serverEnd {c : Char} (hc : isServerEnd c = true) (rest : List Char)
    (o : Nat) : Unbroken (c :: rest) (1 + o) ↔ o = 0 := by
  rw [Unbroken, Nat.add_sub_cancel_left]
  cases o with
  | zero => simp
  | succ o => simp [hc]

/-- A line of the server begins before the next line of the editor does, and so does every place on
it. -/
theorem spot_lines_lt {n k : Nat} (h : n + 1 < (editorLines s).length) :
    spot (Text.lines s) n k < spot (editorLines s) (n + 1) k := by
  revert n k
  refine lines_induction (motive := fun s B E => ∀ {n k : Nat}, n + 1 < E.length →
    spot B n k < spot E (n + 1) k) ?_ ?_ ?_ ?_ s
  · intro n k h
    simp at h
  · intro e rest he _ ih n k h
    have hlen : 0 < e.length := List.length_pos_iff.2 he
    rw [List.length_cons] at h
    cases n with
    | zero =>
      rw [spot, spot]
      rcases Nat.eq_zero_or_pos k with rfl | hk
      · omega
      · have := spot_editorLines_pos (s := rest) (by omega) hk
        omega
    | succ n =>
      rw [spot, spot]
      exact Nat.add_lt_add_left (ih (by omega)) _
  · intro c rest _ ih n k h
    have h := succ_lt_length_of_consFirst h
    cases n with
    | zero =>
      cases k with
      | zero =>
        rw [spot_consFirst_zero_zero, spot_consFirst_succ]
        omega
      | succ k =>
        rw [spot_consFirst_zero_succ, spot_consFirst_succ]
        have h1 : spot (Text.lines rest) 0 k ≤ spot (Text.lines rest) 0 (k + 1) :=
          spot_mono _ _ (Nat.le_succ k)
        have h2 := ih (k := k + 1) h
        omega
    | succ n =>
      rw [spot_consFirst_succ, spot_consFirst_succ]
      exact Nat.add_lt_add_left (ih h) _
  · intro c rest _ ih n k h
    have h := succ_lt_length_of_consFirst h
    rw [spot_consFirst_succ]
    cases n with
    | zero =>
      have := spot_editorLines_succ_pos (n := 0) (s := rest) (by omega) k
      rw [spot, List.length_singleton]
      omega
    | succ n =>
      have h1 := ih (n := n) (k := k) (by omega)
      have h2 := spot_le_spot_succ (editorLines rest) (n + 1) k k
      rw [spot, List.length_singleton]
      omega

/-- **Where a position means the same to both sides**: exactly where no server-only line end lies
before it. -/
theorem spot_lines_eq_iff {n k : Nat} (h : n < (editorLines s).length) :
    spot (Text.lines s) n k = spot (editorLines s) n k ↔
      Unbroken s (spot (editorLines s) n k) := by
  revert n k
  refine lines_induction (motive := fun s B E => ∀ {n k : Nat}, n < E.length →
    (spot B n k = spot E n k ↔ Unbroken s (spot E n k))) ?_ ?_ ?_ ?_ s
  · intro n k h
    simp at h
  · intro e rest _ he ih n k h
    cases n with
    | zero =>
      refine ⟨fun _ => ?_, fun _ => rfl⟩
      intro c hc
      rw [spot, List.take_append_of_le_length (by omega)] at hc
      exact he c (List.mem_of_mem_take hc)
    | succ n =>
      rw [spot, spot, unbroken_append he, ← ih (by simpa using h)]
      omega
  · intro c rest hc ih n k h
    cases n with
    | zero =>
      cases k with
      | zero => simp [Unbroken]
      | succ k =>
        rw [spot_consFirst_zero_succ, spot_consFirst_zero_succ, unbroken_cons hc]
        cases hE : editorLines rest with
        | nil =>
          have hrest : rest = [] := by rw [← flatten_editorLines rest, hE]; rfl
          subst hrest
          simp [Text.lines, linesBy, spot, Unbroken]
        | cons line others =>
          rw [← hE, ← ih (by rw [hE]; simp)]
          omega
    | succ n =>
      rw [spot_consFirst_succ, spot_consFirst_succ, unbroken_cons hc,
        ← ih (succ_lt_length_of_consFirst h)]
      omega
  · intro c rest hc ih n k h
    cases n with
    | zero =>
      cases k with
      | zero => simp [Unbroken, spot]
      | succ k =>
        rw [spot_consFirst_zero_succ, unbroken_cons_serverEnd hc, spot, List.length_singleton]
        omega
    | succ n =>
      -- the server is one line ahead, and stays strictly before the editor from here on
      have hlt := succ_lt_length_of_consFirst h
      have h1 := spot_lines_lt (k := k) hlt
      rw [spot_consFirst_succ, unbroken_cons_serverEnd hc, spot, List.length_singleton]
      omega

theorem lines_eq_editorLines (h : Unbroken s s.length) : Text.lines s = editorLines s := by
  revert h
  refine lines_induction (motive := fun s B E => Unbroken s s.length → B = E) ?_ ?_ ?_ ?_ s
  · intro _
    rfl
  · intro e rest _ he ih h
    rw [List.length_append, unbroken_append he] at h
    rw [ih h]
  · intro c rest hc ih h
    rw [List.length_cons, Nat.add_comm, unbroken_cons hc] at h
    rw [ih h]
  · intro c rest hc _ h
    rw [List.length_cons, Nat.add_comm, unbroken_cons_serverEnd hc, List.length_eq_zero_iff] at h
    subst h
    rfl

theorem length_editorLines_le (s : List Char) : (editorLines s).length ≤ (Text.lines s).length := by
  refine lines_induction (motive := fun _ B E => E.length ≤ B.length) ?_ ?_ ?_ ?_ s
  · exact Nat.le_refl _
  · intro e rest _ _ ih
    simpa using ih
  · intro c rest _ ih
    cases hE : editorLines rest <;> cases hB : Text.lines rest <;> simp_all [consFirst]
  · intro c rest _ ih
    cases hE : editorLines rest <;> simp_all [consFirst]
    omega

/-! ## Edits of both sides -/

/-- A new text of one character shows that one cut does not start before another: where the first
puts it, the second keeps a character of the old text. -/
theorem le_of_forall_take_append_drop {a b a' b' : Nat} (ha' : a' ≤ s.length)
    (h : ∀ text, s.take a ++ text ++ s.drop b = s.take a' ++ text ++ s.drop b') : a' ≤ a := by
  refine Nat.le_of_not_lt fun hlt => ?_
  have hin : a < s.length := by omega
  obtain ⟨y, hy⟩ : ∃ y : Char, y ≠ s[a] := by
    by_cases hx : s[a] = 'a'
    · exact ⟨'b', by rw [hx]; decide⟩
    · exact ⟨'a', fun h => hx h.symm⟩
  have hlen : (s.take a).length = a := by rw [List.length_take]; omega
  have hlen' : (s.take a').length = a' := by rw [List.length_take]; omega
  have hleft : (s.take a ++ [y] ++ s.drop b)[a]? = some y := by
    rw [List.append_assoc, List.getElem?_append_right (by omega), hlen, Nat.sub_self]
    rfl
  have hright : (s.take a' ++ [y] ++ s.drop b')[a]? = some s[a] := by
    rw [List.append_assoc, List.getElem?_append_left (by omega), List.getElem?_take_of_lt hlt,
      List.getElem?_eq_getElem hin]
  rw [h [y], hright] at hleft
  exact hy (Option.some_inj.1 hleft).symm

/-- Two cuts of a text put every new text at the same places only if they are the same cut. -/
theorem forall_take_append_drop_iff {a b a' b' : Nat} (ha : a ≤ s.length)
    (hb : b ≤ s.length) (ha' : a' ≤ s.length) (hb' : b' ≤ s.length) :
    (∀ text, s.take a ++ text ++ s.drop b = s.take a' ++ text ++ s.drop b') ↔
      a = a' ∧ b = b' := by
  constructor
  · intro h
    have haa : a = a' := Nat.le_antisymm
      (le_of_forall_take_append_drop ha fun text => (h text).symm)
      (le_of_forall_take_append_drop ha' h)
    subst haa
    have hdrop := congrArg List.length (h [])
    simp only [List.length_append, List.length_drop] at hdrop
    exact ⟨rfl, by omega⟩
  · rintro ⟨rfl, rfl⟩ text
    rfl

/-- The edit of a text that the editor means by a range. -/
def editorCut (r : Range) (text s : List Char) : List Char :=
  cut s (offset (editorLines s) r.start.line r.start.character)
    (offset (editorLines s) r.stop.line r.stop.character) text

/-- The position means the same place to both sides: no server-only line end lies before it, or, if
it is past the last line of the editor, the server takes it for the end of the text as well. -/
def SeenAlike (s : List Char) (p : Position) : Prop :=
  if p.line < (editorLines s).length then Unbroken s (p.spot (editorLines s))
  else p.spot (Text.lines s) = s.length

theorem spot_eq_iff_seenAlike {p : Position} (h : p.LiesIn (editorLines s)) :
    p.spot (Text.lines s) = p.spot (editorLines s) ↔ SeenAlike s p := by
  have hline := h.line_nonneg
  rw [SeenAlike]
  split
  · exact spot_lines_eq_iff (by omega)
  · have hpast : p.spot (editorLines s) = s.length := by
      rw [Position.spot, spot_of_length_le (by omega), flatten_editorLines]
    rw [hpast]

theorem splice_eq_editorCut_iff {r : Range} (h : r.LiesIn (editorLines s)) :
    (∀ text, splice r text s = editorCut r text s) ↔
      SeenAlike s r.start ∧ SeenAlike s r.stop := by
  have hbound : r.start.line ≤ ((Text.lines s).length : Int) := by
    have h1 := length_editorLines_le s
    have h2 := h.start_le
    omega
  have hserver := splice_eq_spots h.start.line_nonneg h.line_le hbound h.start.character_nonneg
    h.stop.character_nonneg
  have heditor : ∀ text, editorCut r text s =
      s.take (r.start.spot (editorLines s)) ++ text ++ s.drop (r.stop.spot (editorLines s)) := by
    intro text
    have hcut := cut_offsets h text
    rwa [flatten_editorLines] at hcut
  have hle : ∀ (p : Position) (ls : List (List Char)), ls.flatten = s → p.spot ls ≤ s.length := by
    intro p ls hls
    rw [← hls]
    exact spot_le_length ls _ _
  simp only [hserver, heditor]
  rw [forall_take_append_drop_iff (hle _ _ (flatten_lines s)) (hle _ _ (flatten_lines s))
    (hle _ _ (flatten_editorLines s)) (hle _ _ (flatten_editorLines s)),
    spot_eq_iff_seenAlike h.start, spot_eq_iff_seenAlike h.stop]

theorem exists_range_at_end (hs : s ≠ []) :
    ∃ r : Range, r.LiesIn (editorLines s) ∧ r.stop.line < (editorLines s).length ∧
      r.stop.spot (editorLines s) = s.length := by
  have hne : editorLines s ≠ [] := by
    intro h
    exact hs (by rw [← flatten_editorLines s, h]; rfl)
  have hpos : 0 < (editorLines s).length := List.length_pos_iff.2 hne
  let n := (editorLines s).length - 1
  let line := (editorLines s).getLast hne
  have hline : (editorLines s)[n]? = some line := by
    rw [← List.getLast?_eq_getElem?, List.getLast?_eq_some_getLast hne]
  let p : Position := ⟨n, line.length⟩
  have hp : p.LiesIn (editorLines s) := by
    refine ⟨Int.natCast_nonneg _, Int.natCast_nonneg _, fun l hl => ?_⟩
    rw [show p.line.toNat = n from rfl, hline, Option.some_inj] at hl
    exact Int.le_of_eq (congrArg (fun l : List Char => (l.length : Int)) hl)
  refine ⟨⟨p, p⟩, ⟨hp, hp, ?_, .inr ⟨rfl, Int.le_refl _⟩⟩, ?_, ?_⟩
  · show (n : Int) ≤ _
    omega
  · show (n : Int) < _
    omega
  · show spot (editorLines s) n line.length = s.length
    have hflat := congrArg List.length (flatten_editorLines s)
    rw [← List.take_append_getLast (editorLines s) hne, List.flatten_append] at hflat
    rw [spot_of_getElem? hline, ← hflat]
    simp [n, line]

/-- **The server follows the editor exactly where no server-only line end gets in the way.** A
document takes a range the way the editor means it, whatever the new text, if and only if both
positions of the range mean the same place to the two sides; and it takes every range of its text
that way if and only if no server-only line end stands before the last character. -/
theorem change_eq_editorCut_iff {fs : Files} {d : Document} {s : String}
    (hread : d.read fs = .ok s) :
    (∀ r : Range, r.LiesIn (editorLines s.toList) →
      ((∀ text v, Change.SentAs ⟨some r, text⟩ v →
          d.change fs v =
            .ok { d with source := .text (String.ofList (editorCut r text s.toList)) }) ↔
        SeenAlike s.toList r.start ∧ SeenAlike s.toList r.stop)) ∧
    ((∀ r : Range, r.LiesIn (editorLines s.toList) → ∀ text v, Change.SentAs ⟨some r, text⟩ v →
        d.change fs v =
          .ok { d with source := .text (String.ofList (editorCut r text s.toList)) }) ↔
      ∀ c ∈ s.toList.dropLast, isServerEnd c = false) := by
  have hrange : ∀ r : Range, r.LiesIn (editorLines s.toList) →
      ((∀ text v, Change.SentAs ⟨some r, text⟩ v → d.change fs v =
          .ok { d with source := .text (String.ofList (editorCut r text s.toList)) }) ↔
        SeenAlike s.toList r.start ∧ SeenAlike s.toList r.stop) := by
    intro r hr
    rw [← splice_eq_editorCut_iff hr]
    exact forall_congr' fun text => forall_change_eq_iff hread ⟨some r, text⟩ _
  refine ⟨hrange, ?_, ?_⟩
  · intro h
    by_cases hs : s.toList = []
    · simp [hs]
    · obtain ⟨r, hr, hline, hend⟩ := exists_range_at_end hs
      have hstop := ((hrange r hr).1 (h r hr)).2
      rw [SeenAlike, if_pos hline, hend, Unbroken, ← List.dropLast_eq_take] at hstop
      exact hstop
  · intro h r hr
    have hlines : Text.lines s.toList = editorLines s.toList :=
      lines_eq_editorLines (by rw [Unbroken, ← List.dropLast_eq_take]; exact h)
    refine (hrange r hr).2 ⟨?_, ?_⟩
    · exact (spot_eq_iff_seenAlike hr.start).1 (by rw [hlines])
    · exact (spot_eq_iff_seenAlike hr.stop).1 (by rw [hlines])

/-- A form feed at the very end of a text does no harm, and a carriage return with its line feed is
one line end to both sides. -/
theorem change_eq_editorCut_of_last_formFeed : let d : Document :=
      { uri := "file:///w/a.py", path := "/w/a.py", dotName := "a", filename := "a.py",
        source := .text "a\r\nb\x0c" }
    d.read {} = .ok "a\r\nb\x0c" ∧
      ∀ r : Range, r.LiesIn (editorLines "a\r\nb\x0c".toList) → ∀ text v,
        Change.SentAs ⟨some r, text⟩ v → d.change {} v = .ok
          { d with source := .text (String.ofList (editorCut r text "a\r\nb\x0c".toList)) } := by
  intro d
  have hinner : "a\r\nb\x0c".toList.dropLast = ['a', '\r', '\n', 'b'] := rfl
  refine ⟨rfl, (change_eq_editorCut_iff rfl).2.2 ?_⟩
  rw [hinner]
  simp only [List.mem_cons, List.not_mem_nil, or_false, forall_eq_or_imp, forall_eq]
  exact ⟨rfl, rfl, rfl, rfl⟩

/-- With a form feed inside a line, the character after it is no longer replaced. -/
example :
    splice ⟨⟨0, 2⟩, ⟨0, 3⟩⟩ ['X'] ['a', '\x0c', 'b', '\n'] = ['a', '\x0c', 'X', 'b', '\n'] ∧
      editorCut ⟨⟨0, 2⟩, ⟨0, 3⟩⟩ ['X'] ['a', '\x0c', 'b', '\n'] = ['a', '\x0c', 'X', '\n'] := by
  decide

end Document
end LangServer
