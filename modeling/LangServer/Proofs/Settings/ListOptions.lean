import LangServer.Proofs.Trimming
import LangServer.Settings.Options

/-!
# Layouts of list options

The elements of a list option stand between commas, or one on each line. In both layouts the text
falls into pieces, of which each holds one element or nothing but blanks (`LaidOut`): what stands
after a closing comma is such a blank piece, and so is a blank line. On lines a comma may stand
right after an element (`Listed`).

The readers drop the blanks and what is then empty, so they give back the elements
(`map_filter_trim_of_laidOut`). Which of them reads a text is decided by its first character, so
that a list between commas is read alike in all files (`parse_of_laidOut`).
-/

namespace LangServer.Settings

open Text

/-- A text that can be an element of a list option. -/
structure Element (x : List Char) : Prop where
  nonempty : x ≠ []
  trim : IsTrim x
  comma : ',' ∉ x
  newline : '\n' ∉ x

/-- Blanks within a line. -/
def Gap (s : List Char) : Prop := ∀ c ∈ s, isBlank c = true ∧ c ≠ '\n'

instance (s : List Char) : Decidable (Gap s) :=
  inferInstanceAs (Decidable (∀ c ∈ s, isBlank c = true ∧ c ≠ '\n'))

/-- A text with gaps around it. -/
def Spaced (s x : List Char) : Prop := ∃ a b, Gap a ∧ Gap b ∧ s = a ++ x ++ b

/-- A text with gaps around it and perhaps a comma right after it. -/
def Listed (s x : List Char) : Prop := Spaced s x ∨ Spaced s (x ++ [','])

/-- Pieces of a text that hold one element each, in order, or nothing. -/
inductive LaidOut (holds : List Char → List Char → Prop) :
    List (List Char) → List (List Char) → Prop where
  | nil : LaidOut holds [] []
  | blank {s : List Char} {pieces xs : List (List Char)} (hs : Gap s)
      (h : LaidOut holds pieces xs) : LaidOut holds (s :: pieces) xs
  | element {s x : List Char} {pieces xs : List (List Char)} (hs : holds s x)
      (h : LaidOut holds pieces xs) : LaidOut holds (s :: pieces) (x :: xs)

section

variable {c : Char} {s x : List Char} {pieces xs : List (List Char)}
  {holds : List Char → List Char → Prop}

theorem Gap.notMem (h : Gap s) (hc : isBlank c = true → c = '\n') : c ∉ s :=
  fun hmem => (h c hmem).2 (hc (h c hmem).1)

theorem Spaced.notMem (h : Spaced s x) (hc : isBlank c = true → c = '\n') (hx : c ∉ x) :
    c ∉ s := by
  obtain ⟨a, b, ha, hb, rfl⟩ := h
  simp [ha.notMem hc, hb.notMem hc, hx]

theorem Spaced.trim_eq (h : Spaced s x) (hx : IsTrim x) : trim s = x := by
  obtain ⟨a, b, ha, hb, rfl⟩ := h
  exact trim_append_append (fun c hc => (ha c hc).1) (fun c hc => (hb c hc).1) hx

theorem spaced_self (x : List Char) : Spaced x x := ⟨[], [], by simp [Gap], by simp [Gap], by simp⟩

theorem laidOut_self (h : ∀ x, holds x x) (xs : List (List Char)) : LaidOut holds xs xs := by
  induction xs with
  | nil => exact .nil
  | cons x xs ih => exact .element (h x) ih

/-- **Blank pieces count for nothing**, and the others for what they hold. -/
theorem map_filter_trim_of_laidOut (h : LaidOut holds pieces xs) {f : List Char → List Char}
    (hf : ∀ x ∈ xs, ∀ s, holds s x → trim s ≠ [] ∧ f (trim s) = x) :
    ((pieces.map trim).filter (!·.isEmpty)).map f = xs := by
  induction h with
  | nil => rfl
  | blank hs _ ih => simp [trim_eq_nil_iff.2 fun c hc => (hs c hc).1, ih hf]
  | element hs _ ih =>
    obtain ⟨hx, hf⟩ := List.forall_mem_cons.1 hf
    simp [hx _ hs, ih hf]

theorem notMem_of_laidOut (h : LaidOut holds pieces xs) (hc : isBlank c = true → c = '\n')
    (hxs : ∀ x ∈ xs, ∀ s, holds s x → c ∉ s) : ∀ s ∈ pieces, c ∉ s := by
  induction h with
  | nil => exact List.forall_mem_nil _
  | blank hs _ ih => exact List.forall_mem_cons.2 ⟨hs.notMem hc, ih hxs⟩
  | element hs _ ih =>
    obtain ⟨hx, hxs⟩ := List.forall_mem_cons.1 hxs
    exact List.forall_mem_cons.2 ⟨hx _ hs, ih hxs⟩

/-! ## Between commas -/

/-- **A list between commas** is read as its elements. -/
theorem commaList_of_laidOut (h : LaidOut Spaced pieces xs) (hxs : ∀ x ∈ xs, Element x) :
    commaList ([','].intercalate pieces) = xs := by
  have hcomma : ∀ s ∈ pieces, ',' ∉ s :=
    notMem_of_laidOut h (by decide) fun x hx s hs => hs.notMem (by decide) (hxs x hx).comma
  have hread := map_filter_trim_of_laidOut h (f := id) fun x hx s hs => by
    simp [hs.trim_eq (hxs x hx).trim, (hxs x hx).nonempty]
  cases pieces with
  | nil => exact hread
  | cons s pieces => simpa [commaList, splitOn_intercalate hcomma] using hread

theorem parse_of_notMem (style : ListStyle) (hs : '\n' ∉ s) : style.parse s = commaList s := by
  unfold ListStyle.parse
  split
  · simp at hs
  · rfl

/-! ## On lines -/

/-- A text that can be an element on a line of its own. -/
structure LineElement (x : List Char) : Prop where
  nonempty : x ≠ []
  trim : IsTrim x
  newline : '\n' ∉ x
  last : dropEndWhile (· == ',') x = x

theorem Element.onLine (h : Element x) : LineElement x where
  nonempty := h.nonempty
  trim := h.trim
  newline := h.newline
  last := List.rdropWhile_eq_self_iff.2 fun hne hlast =>
    h.comma (beq_iff_eq.1 hlast ▸ List.getLast_mem hne)

theorem LineElement.trim_concat (h : LineElement x) : IsTrim (x ++ [',']) where
  head c hc := h.trim.head c (by rwa [List.head?_append_of_ne_nil _ h.nonempty] at hc)
  last c hc := by
    obtain rfl : ',' = c := by simpa using hc
    decide

/-- **A list on lines** is read as its elements. -/
theorem lineList_of_laidOut (h : LaidOut Listed pieces xs) (hxs : ∀ x ∈ xs, LineElement x) :
    lineList ('\n' :: ['\n'].intercalate pieces) = xs := by
  have hnewline : ∀ s ∈ pieces, '\n' ∉ s := by
    refine notMem_of_laidOut h (fun _ => rfl) ?_
    rintro x hx s (hs | hs)
    · exact hs.notMem (fun _ => rfl) (hxs x hx).newline
    · exact hs.notMem (fun _ => rfl) (by simp [(hxs x hx).newline])
  have hread := map_filter_trim_of_laidOut h (f := dropEndWhile (· == ',')) (by
    rintro x hx s (hs | hs)
    · rw [hs.trim_eq (hxs x hx).trim]
      exact ⟨(hxs x hx).nonempty, (hxs x hx).last⟩
    · rw [hs.trim_eq (hxs x hx).trim_concat]
      exact ⟨by simp, (List.rdropWhile_concat_pos _ _ _ rfl).trans (hxs x hx).last⟩)
  cases pieces with
  | nil => exact hread
  | cons s pieces =>
    have htrim : trim [] = [] := rfl
    simpa [lineList, splitOn, splitOn_intercalate hnewline, htrim] using hread

/-- **A list option is read as the list that was written**, whatever its layout. Between commas
there may be any gaps, and pieces that are blank; so the elements are read in files of both kinds.
On lines there may be any indents, blank lines, and commas right after elements; so they are read in
the files that have this layout. -/
theorem parse_of_laidOut (hxs : ∀ x ∈ xs, Element x) :
    (∀ fields, LaidOut Spaced fields xs →
      ∀ style : ListStyle, style.parse ([','].intercalate fields) = xs) ∧
    ∀ lines, LaidOut Listed lines xs →
      ListStyle.linesOrCommas.parse ('\n' :: ['\n'].intercalate lines) = xs := by
  refine ⟨fun fields h style => ?_, fun lines h => ?_⟩
  · have hnewline : ∀ s ∈ fields, '\n' ∉ s := notMem_of_laidOut h (fun _ => rfl) fun x hx s hs =>
      hs.notMem (fun _ => rfl) (hxs x hx).newline
    rw [parse_of_notMem, commaList_of_laidOut h hxs]
    rw [mem_intercalate (by decide)]
    rintro ⟨s, hs, hmem⟩
    exact hnewline s hs hmem
  · exact lineList_of_laidOut h fun x hx => (hxs x hx).onLine

/-- Two elements, one of them with a blank in it. -/
def twoElements : List (List Char) := ["E501".toList, "a b".toList]

theorem parse_twoElements : (∀ x ∈ twoElements, Element x) ∧
    (∀ style : ListStyle, style.parse "E501\t , a b,  ".toList = twoElements) ∧
    ListStyle.linesOrCommas.parse "\n  E501,\n \n\n\ta b\n".toList = twoElements := by
  have hxs : ∀ x ∈ twoElements, Element x := by
    have he : ∀ x ∈ twoElements, x ≠ [] ∧ (∀ c ∈ x.head?, isBlank c = false) ∧
        (∀ c ∈ x.getLast?, isBlank c = false) ∧ ',' ∉ x ∧ '\n' ∉ x := by decide
    exact fun x hx =>
      have ⟨hne, hhead, hlast, hcomma, hnewline⟩ := he x hx
      ⟨hne, ⟨hhead, hlast⟩, hcomma, hnewline⟩
  have hread := parse_of_laidOut hxs
  refine ⟨hxs, hread.1 ["E501\t ".toList, " a b".toList, "  ".toList] ?_,
    hread.2 ["  E501,".toList, " ".toList, [], "\ta b".toList, []] ?_⟩
  · exact .element ⟨[], "\t ".toList, by decide, by decide, rfl⟩
      (.element ⟨" ".toList, [], by decide, by decide, rfl⟩ (.blank (by decide) .nil))
  · exact .element (.inr ⟨"  ".toList, [], by decide, by decide, rfl⟩)
      (.blank (by decide) (.blank (by decide)
        (.element (.inl ⟨"\t".toList, [], by decide, by decide, rfl⟩) (.blank (by decide) .nil))))

end

end LangServer.Settings
