import LangServer.Document.Edit

/-!
# The places of an edit

`splice` walks over the lines of a text and decides line by line what is kept, while `cut` works on
the text as a whole and knows only offsets. This file joins the two.

* `spot` is the place between two characters that a position means to the walk: a character past
  the end of its line means that end, and a line past the last one means the end of the text.
* `splice_eq_spots`: the walk replaces exactly what lies between the spots of the two positions,
  whatever the range is, as long as it does not start after the line that follows the last one.
* `clip_offset`: the offset of a position that lies in its line is its spot, once it is clipped to
  the text. So the walk is a cut at the offsets (`splice_eq_cut`).

Nothing here depends on where lines end. The lines may be any lists whose characters make up the
text, which is what lets two notions of a line end be compared.
-/

namespace LangServer.Document

open Text

variable {ls : List (List Char)} {r : Range} {s : List Char}

/-! ## Spots -/

/-- The place in a text, given by its lines, that line `n` and character `c` mean to an edit. -/
def spot : List (List Char) → Nat → Nat → Nat
  | [], _, _ => 0
  | line :: _, 0, c => min c line.length
  | line :: rest, n + 1, c => line.length + spot rest n c

/-- The place that a position means to an edit. -/
def Position.spot (p : Position) (ls : List (List Char)) : Nat :=
  Document.spot ls p.line.toNat p.character.toNat

theorem spot_le_length (ls : List (List Char)) (n c : Nat) : spot ls n c ≤ ls.flatten.length := by
  fun_induction spot ls n c with
  | case1 => exact Nat.zero_le _
  | case2 line rest c =>
    rw [List.flatten_cons, List.length_append]
    omega
  | case3 line rest n c ih =>
    rw [List.flatten_cons, List.length_append]
    omega

theorem spot_of_length_le {n : Nat} (h : ls.length ≤ n) (c : Nat) :
    spot ls n c = ls.flatten.length := by
  fun_induction spot ls n c with
  | case1 => rfl
  | case2 line rest c => simp at h
  | case3 line rest n c ih =>
    rw [List.length_cons] at h
    rw [ih (by omega), List.flatten_cons, List.length_append]

theorem spot_of_getElem? {n : Nat} {line : List Char} (h : ls[n]? = some line) (c : Nat) :
    spot ls n c = (ls.take n).flatten.length + min c line.length := by
  fun_induction spot ls n c with
  | case1 => simp at h
  | case2 first rest c =>
    rw [List.getElem?_cons_zero, Option.some_inj] at h
    simp [h]
  | case3 first rest n c ih =>
    rw [List.getElem?_cons_succ] at h
    rw [ih h, List.take_succ_cons, List.flatten_cons, List.length_append, Nat.add_assoc]

/-! ## What the walk keeps -/

theorem spliceFrom_of_stop_lt {i : Int} (h : r.stop.line < i) (text : List Char)
    (ls : List (List Char)) : spliceFrom r text i ls = ls.flatten := by
  induction ls generalizing i with
  | nil => rfl
  | cons line rest ih =>
    rw [spliceFrom, spliceLine, if_pos (Or.inr h), ih (by omega), List.flatten_cons]

theorem spliceFrom_of_start_lt {i : Int} {b : Nat} (hstart : r.start.line < i)
    (hstop : r.stop.line = i + b) (hchar : 0 ≤ r.stop.character) (text : List Char)
    (ls : List (List Char)) :
    spliceFrom r text i ls = ls.flatten.drop (spot ls b r.stop.character.toNat) := by
  induction ls generalizing i b with
  | nil => simp [spliceFrom]
  | cons line rest ih =>
    have hin : ¬ (i < r.start.line ∨ r.stop.line < i) := by omega
    rw [spliceFrom, spliceLine, if_neg hin, if_neg (by omega), List.nil_append,
      List.flatten_cons]
    cases b with
    | zero =>
      rw [if_pos (by omega), spliceFrom_of_stop_lt (by omega), spot, after, clip,
        if_neg (by omega), ← List.drop_append_of_le_length (Nat.min_le_right _ _)]
    | succ b =>
      rw [if_neg (by omega), List.nil_append, ih (b := b) (by omega) (by omega), spot,
        List.drop_length_add_append]

/-- The walk from line `i` on, when the range starts `a` lines further down and stops `b` lines
further down. -/
theorem spliceFrom_eq_spots {i : Int} {a b : Nat}
    (hstart : r.start.line = i + a) (hstop : r.stop.line = i + b) (hab : a ≤ b)
    (ha : a < ls.length) (hchar : 0 ≤ r.start.character) (hchar' : 0 ≤ r.stop.character)
    (text : List Char) :
    spliceFrom r text i ls =
      ls.flatten.take (spot ls a r.start.character.toNat) ++ text ++
        ls.flatten.drop (spot ls b r.stop.character.toNat) := by
  induction ls generalizing i a b with
  | nil => simp at ha
  | cons line rest ih =>
    rw [spliceFrom, spliceLine, List.flatten_cons]
    cases a with
    | zero =>
      have hin : ¬ (i < r.start.line ∨ r.stop.line < i) := by omega
      rw [if_neg hin, if_pos (by omega), spot, before, clip, if_neg (by omega),
        List.take_append_of_le_length (Nat.min_le_right _ _)]
      cases b with
      | zero =>
        rw [if_pos (by omega), spliceFrom_of_stop_lt (by omega), spot, after, clip,
          if_neg (by omega), List.drop_append_of_le_length (Nat.min_le_right _ _)]
        simp only [List.append_assoc]
      | succ b =>
        rw [if_neg (by omega), spliceFrom_of_start_lt (b := b) (by omega) (by omega) hchar', spot,
          List.drop_length_add_append, List.append_nil]
    | succ a =>
      obtain ⟨b, rfl⟩ : ∃ b', b = b' + 1 := ⟨b - 1, by omega⟩
      rw [if_pos (by omega), spot, spot, List.take_length_add_append, List.drop_length_add_append,
        ih (a := a) (b := b) (by omega) (by omega) (by omega) (by simpa using ha)]
      simp only [List.append_assoc]

/-- **The walk replaces what lies between two spots.** A range that starts on the line after the
last one appends, and both of its positions mean the end of the text. -/
theorem splice_eq_spots (hline : 0 ≤ r.start.line)
    (hlines : r.start.line ≤ r.stop.line) (hbound : r.start.line ≤ ((Text.lines s).length : Int))
    (hchar : 0 ≤ r.start.character) (hchar' : 0 ≤ r.stop.character) (text : List Char) :
    splice r text s =
      s.take (r.start.spot (Text.lines s)) ++ text ++ s.drop (r.stop.spot (Text.lines s)) := by
  have hs : (Text.lines s).flatten = s := flatten_linesBy isBoundary s
  rw [splice]
  by_cases h : r.start.line = ((Text.lines s).length : Int)
  · rw [if_pos h, Position.spot, Position.spot, spot_of_length_le (by omega),
      spot_of_length_le (by omega), hs, List.take_length, List.drop_length, List.append_nil]
  · rw [if_neg h, spliceFrom_eq_spots (a := r.start.line.toNat) (b := r.stop.line.toNat)
      (by omega) (by omega) (by omega) (by omega) hchar hchar', hs]
    rfl

/-! ## Positions that lie in a text -/

/-- A position that may be sent for a text with these lines: its character lies in its line, the end
of the line with its terminator included. On a line past the last one any character will do. -/
structure Position.LiesIn (p : Position) (ls : List (List Char)) : Prop where
  line_nonneg : 0 ≤ p.line
  character_nonneg : 0 ≤ p.character
  character_le : ∀ line, ls[p.line.toNat]? = some line → p.character ≤ line.length

/-- A range that may be sent for a text with these lines. It may start on the line after the last
one, and stop on any later line. -/
structure Range.LiesIn (r : Range) (ls : List (List Char)) : Prop where
  start : r.start.LiesIn ls
  stop : r.stop.LiesIn ls
  start_le : r.start.line ≤ ls.length
  ordered : r.start.line < r.stop.line ∨
    r.start.line = r.stop.line ∧ r.start.character ≤ r.stop.character

instance Position.decidableLiesIn (p : Position) (ls : List (List Char)) :
    Decidable (p.LiesIn ls) :=
  decidable_of_iff (0 ≤ p.line ∧ 0 ≤ p.character ∧
      ∀ line ∈ ls[p.line.toNat]?, p.character ≤ line.length)
    ⟨fun h => ⟨h.1, h.2.1, h.2.2⟩,
      fun h => ⟨h.line_nonneg, h.character_nonneg, h.character_le⟩⟩

instance Range.decidableLiesIn (r : Range) (ls : List (List Char)) : Decidable (r.LiesIn ls) :=
  decidable_of_iff (r.start.LiesIn ls ∧ r.stop.LiesIn ls ∧ r.start.line ≤ ls.length ∧
      (r.start.line < r.stop.line ∨
        r.start.line = r.stop.line ∧ r.start.character ≤ r.stop.character))
    ⟨fun h => ⟨h.1, h.2.1, h.2.2.1, h.2.2.2⟩, fun h => ⟨h.start, h.stop, h.start_le, h.ordered⟩⟩

theorem Range.LiesIn.line_le (h : r.LiesIn ls) : r.start.line ≤ r.stop.line := by
  rcases h.ordered with hlt | ⟨heq, _⟩
  · exact Int.le_of_lt hlt
  · exact Int.le_of_eq heq

theorem clip_offset {p : Position} (h : p.LiesIn ls) :
    clip ls.flatten.length (offset ls p.line p.character) = p.spot ls := by
  have hline := h.line_nonneg
  have hchar := h.character_nonneg
  have hbefore : before ls p.line = ls.take p.line.toNat := by
    rw [before, clip, if_neg (by omega)]
    rcases Nat.le_total p.line.toNat ls.length with hle | hle
    · rw [Nat.min_eq_left hle]
    · rw [Nat.min_eq_right hle, List.take_length, List.take_of_length_le hle]
  rw [clip, offset, hbefore, if_neg (by omega), Position.spot]
  cases hn : ls[p.line.toNat]? with
  | none =>
    have hle : ls.length ≤ p.line.toNat := List.getElem?_eq_none_iff.1 hn
    rw [List.take_of_length_le hle, spot_of_length_le hle]
    omega
  | some line =>
    have hin := h.character_le line hn
    have hspot := spot_of_getElem? hn p.character.toNat
    have hlen := spot_le_length ls p.line.toNat p.character.toNat
    omega

theorem cut_offsets (h : r.LiesIn ls) (text : List Char) :
    cut ls.flatten (offset ls r.start.line r.start.character)
        (offset ls r.stop.line r.stop.character) text =
      ls.flatten.take (r.start.spot ls) ++ text ++ ls.flatten.drop (r.stop.spot ls) := by
  rw [cut, before, after, clip_offset h.start, clip_offset h.stop]

/-- **Editing by lines is editing by offsets.** -/
theorem splice_eq_cut (h : r.LiesIn (Text.lines s)) (text : List Char) : splice r text s =
      cut s (offset (Text.lines s) r.start.line r.start.character)
        (offset (Text.lines s) r.stop.line r.stop.character) text := by
  have hcut := cut_offsets h text
  rw [show (Text.lines s).flatten = s from flatten_linesBy isBoundary s] at hcut
  rw [hcut, splice_eq_spots h.start.line_nonneg h.line_le h.start_le h.start.character_nonneg
    h.stop.character_nonneg]

/-! ## Sequences of changes -/

namespace Change

/-- A change as an edit of the plain text: the whole of it, or what lies between the offsets of the
two positions. -/
def edit (c : Change) (s : List Char) : List Char :=
  match c.range with
  | none => c.text
  | some r =>
    cut s (offset (Text.lines s) r.start.line r.start.character)
      (offset (Text.lines s) r.stop.line r.stop.character) c.text

/-- A change that may be sent for a text. -/
def LiesIn (c : Change) (s : List Char) : Prop := ∀ r, c.range = some r → r.LiesIn (Text.lines s)

/-- Changes that may be sent one after the other, each for the text that the ones before it
leave. -/
def LieIn : List Change → List Char → Prop
  | [], _ => True
  | c :: cs, s => c.LiesIn s ∧ LieIn cs (c.edit s)

instance decidableLiesIn (c : Change) (s : List Char) : Decidable (c.LiesIn s) :=
  inferInstanceAs (Decidable (∀ r ∈ c.range, r.LiesIn (Text.lines s)))

instance decidableLieIn : (cs : List Change) → (s : List Char) → Decidable (LieIn cs s)
  | [], _ => .isTrue trivial
  | c :: cs, s =>
    have := decidableLieIn cs (c.edit s)
    inferInstanceAs (Decidable (c.LiesIn s ∧ LieIn cs (c.edit s)))

theorem apply_eq_edit {c : Change} (h : c.LiesIn s) : c.apply s = c.edit s := by
  rw [apply, edit]
  cases hr : c.range with
  | none => rfl
  | some r => exact splice_eq_cut (h r hr) c.text

theorem lieIn_append {cs ds : List Change} :
    LieIn (cs ++ ds) s ↔ LieIn cs s ∧ LieIn ds (cs.foldl (fun s c => c.edit s) s) := by
  induction cs generalizing s with
  | nil => simp [LieIn]
  | cons c cs ih => simp [LieIn, ih, and_assoc]

end Change

end LangServer.Document
