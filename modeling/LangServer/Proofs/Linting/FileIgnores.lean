import LangServer.Proofs.Linting.Arguments
import LangServer.Proofs.Settings.FileOptions
import LangServer.Proofs.Settings.ListOptions
import Mathlib.Data.List.Flatten

/-!
# Codes to ignore in single files

A settings file gives codes to ignore in single files as entries, each a pattern and its codes.
The entries stand one on each line, or a single one stands on the line of the option (`Written`).
What is read of them are texts (`Layout.texts`): on lines of their own all entries but those that
are comments, and on the line of the option the parts between commas, so that the codes of an entry
come apart.

The main theorem says when the lint of a document is answered with flake8 ignoring the codes of the
settings and of just the entries that fit the document.
-/

namespace LangServer.Lint.Flake8

open Text Settings

/-! ## Entries -/

/-- A text that can stand in an entry: it is not empty, and has no colons, commas and blanks. -/
def Unmarked (s : List Char) : Prop := s ≠ [] ∧ ∀ c ∈ s, c ≠ ':' ∧ c ≠ ',' ∧ isBlank c = false

instance (s : List Char) : Decidable (Unmarked s) :=
  inferInstanceAs (Decidable (s ≠ [] ∧ ∀ c ∈ s, c ≠ ':' ∧ c ≠ ',' ∧ isBlank c = false))

/-- A pattern for files and the codes to ignore in them. -/
structure FileEntry where
  pattern : List Char
  codes : List (List Char)
  unmarked : Unmarked pattern
  valid : Path.parts pattern ≠ []
  nonempty : codes ≠ []
  codes_unmarked : ∀ code ∈ codes, Unmarked code

namespace FileEntry

/-- The entry as it is written. -/
def text (e : FileEntry) : List Char := e.pattern ++ ':' :: [','].intercalate e.codes

/-- Does the pattern fit a path? -/
def fits (e : FileEntry) (path : String) : Bool := Path.fits? e.pattern path.toList == some true

/-- Is the entry a comment, on a line of its own? -/
def isComment (e : FileEntry) : Bool :=
  e.pattern.head? == some '#' || e.pattern.head? == some ';'

/-- The codes of the entries that fit a path. -/
def fittingCodes (path : String) (es : List FileEntry) : List String :=
  (es.filter (·.fits path)).flatMap fun e => e.codes.map String.ofList

variable {e : FileEntry}

theorem colon_notMem_codes (e : FileEntry) : ':' ∉ [','].intercalate e.codes := by
  rw [mem_intercalate (by decide)]
  rintro ⟨code, hcode, hmem⟩
  exact ((e.codes_unmarked code hcode).2 ':' hmem).1 rfl

theorem comma_notMem_code {code : List Char} (h : code ∈ e.codes) : ',' ∉ code :=
  fun hmem => ((e.codes_unmarked code h).2 ',' hmem).2.1 rfl

theorem not_isBlank_of_mem_text {c : Char} (h : c ∈ e.text) : isBlank c = false := by
  rw [text, List.mem_append, List.mem_cons] at h
  rcases h with h | rfl | h
  · exact (e.unmarked.2 c h).2.2
  · decide
  · by_cases hc : c = ','
    · subst hc
      decide
    · obtain ⟨code, hcode, h⟩ := (mem_intercalate hc).1 h
      exact ((e.codes_unmarked code hcode).2 c h).2.2

theorem text_ne_nil (e : FileEntry) : e.text ≠ [] := by simp [text]

theorem isTrim_text (e : FileEntry) : IsTrim e.text :=
  isTrim_of_forall fun _ hc => not_isBlank_of_mem_text hc

theorem head?_text (e : FileEntry) : e.text.head? = e.pattern.head? := by
  obtain ⟨c, s, hs⟩ := List.exists_cons_of_ne_nil e.unmarked.1
  rw [text, hs]
  rfl

theorem dropEndWhile_text (e : FileEntry) : dropEndWhile (· == ',') e.text = e.text := by
  have hcode := List.getLast_mem e.nonempty
  obtain ⟨front, hfront⟩ := exists_intercalate_eq (a := [',']) e.nonempty
  have htext : e.text = (e.pattern ++ ':' :: front) ++ e.codes.getLast e.nonempty := by
    rw [text, hfront, List.append_assoc, List.cons_append]
  refine List.rdropWhile_eq_self_iff.2 fun hne hcomma => ?_
  simp only [htext, List.getLast_append_of_ne_nil _ (e.codes_unmarked _ hcode).1, beq_iff_eq]
    at hcomma
  exact comma_notMem_code hcode (hcomma ▸ List.getLast_mem _)

theorem fileIgnores_text (e : FileEntry) :
    fileIgnores (String.ofList e.text) = .ok (e.pattern, e.codes) := by
  have hpattern : ':' ∉ e.pattern := fun hmem => (e.unmarked.2 ':' hmem).1 rfl
  have hsplit : splitOn ':' e.text = [e.pattern, [','].intercalate e.codes] := by
    rw [text, splitOn_append_cons, splitOn_of_notMem hpattern,
      splitOn_of_notMem e.colon_notMem_codes]
    rfl
  rw [fileIgnores, String.toList_ofList, hsplit]
  dsimp only
  rw [splitOn_intercalate (fun _ => comma_notMem_code) e.nonempty]

theorem exists_fits? (e : FileEntry) (path : List Char) :
    ∃ b, Path.fits? e.pattern path = some b := by
  unfold Path.fits?
  dsimp only
  split
  · next hnil => exact absurd hnil e.valid
  · split <;> exact ⟨_, rfl⟩

theorem fileIgnoresFor_text (e : FileEntry) (path : String) :
    fileIgnoresFor path (.str (String.ofList e.text)) =
      .ok (if e.fits path then some (e.codes.map fun c => .str (String.ofList c)) else none) := by
  obtain ⟨b, hb⟩ := e.exists_fits? path.toList
  have hfits : e.fits path = b := by
    rw [fits, hb]
    cases b <;> rfl
  rw [fileIgnoresFor, Value.text, Value.textOr, ok_bind, fileIgnores_text, ok_bind, hfits]
  dsimp only
  rw [hb]
  cases b <;> rfl

theorem fittingCodes_cons (path : String) (e : FileEntry) (es : List FileEntry) :
    fittingCodes path (e :: es) =
      (if e.fits path then e.codes.map String.ofList else []) ++ fittingCodes path es := by
  rw [fittingCodes, fittingCodes, List.filter_cons]
  split
  · rw [List.flatMap_cons]
  · rfl

/-- **The codes of written entries** are those of the entries that fit. -/
theorem codesFor_texts (path : String) (es : List FileEntry) :
    codesFor path (es.map fun e => .str (String.ofList e.text)) =
      .ok ((fittingCodes path es).map .str) := by
  induction es with
  | nil => rfl
  | cons e es ih =>
    rw [List.map_cons, codesFor_cons, fileIgnoresFor_text, ih, fittingCodes_cons, List.map_append]
    cases e.fits path with
    | true =>
      rw [if_pos rfl, if_pos rfl, List.map_map]
      rfl
    | false => rfl

theorem codesFor_of_notMem (path : String) {texts : List (List Char)} {s : List Char}
    (hs : s ∈ texts) (hcolon : ':' ∉ s) :
    ∃ f, codesFor path (texts.map fun s => .str (String.ofList s)) = .error f := by
  induction texts with
  | nil => cases hs
  | cons t texts ih =>
    rw [List.map_cons, codesFor_cons]
    rcases List.mem_cons.1 hs with rfl | hs
    · refine ⟨.wrongCount 2 1, ?_⟩
      rw [fileIgnoresFor, Value.text, Value.textOr, ok_bind, fileIgnores, String.toList_ofList,
        splitOn_of_notMem hcolon]
      rfl
    · obtain ⟨f, hf⟩ := ih hs
      rw [hf]
      cases fileIgnoresFor path (.str (String.ofList t)) with
      | error f' => exact ⟨f', rfl⟩
      | ok found => exact ⟨f, rfl⟩

/-! ## Entries on one line -/

/-- The parts of an entry between commas. -/
def pieces (e : FileEntry) : List (List Char) :=
  (e.pattern ++ ':' :: e.codes.headD []) :: e.codes.tail

theorem intercalate_pieces (e : FileEntry) : [','].intercalate e.pieces = e.text := by
  obtain ⟨code, codes, hcodes⟩ := List.exists_cons_of_ne_nil e.nonempty
  rw [pieces, text, hcodes]
  cases codes with
  | nil => simp
  | cons next codes => simp [List.intercalate_cons_cons]

theorem element_of_mem_pieces {s : List Char} (h : s ∈ e.pieces) : Element s := by
  have hblank : ∀ c ∈ s, isBlank c = false := by
    intro c hc
    by_cases hcomma : c = ','
    · subst hcomma
      decide
    · have hmem : c ∈ e.text := by
        rw [← e.intercalate_pieces]
        exact (mem_intercalate hcomma).2 ⟨s, h, hc⟩
      exact not_isBlank_of_mem_text hmem
  suffices hs : s ≠ [] ∧ ',' ∉ s from
    ⟨hs.1, isTrim_of_forall hblank, hs.2, fun hmem => by cases hblank _ hmem⟩
  obtain ⟨code, codes, hcodes⟩ := List.exists_cons_of_ne_nil e.nonempty
  have hcode : ∀ code' ∈ code :: codes, code' ≠ [] ∧ ',' ∉ code' :=
    hcodes ▸ fun code' h => ⟨(e.codes_unmarked code' h).1, comma_notMem_code h⟩
  rw [pieces, hcodes, List.headD_cons, List.tail_cons, List.mem_cons] at h
  rcases h with rfl | h
  · refine ⟨by simp, ?_⟩
    rw [List.mem_append, List.mem_cons, not_or, not_or]
    exact ⟨fun hmem => (e.unmarked.2 ',' hmem).2.1 rfl, by decide,
      (hcode code List.mem_cons_self).2⟩
  · exact hcode s (List.mem_cons_of_mem _ h)

/-- **On one line the codes come apart.** -/
theorem commaList_text (e : FileEntry) : commaList e.text = e.pieces := by
  rw [← e.intercalate_pieces]
  exact commaList_of_laidOut (laidOut_self spaced_self _) fun _ => element_of_mem_pieces

theorem newline_notMem_text (e : FileEntry) : '\n' ∉ e.text := fun hmem => by
  cases not_isBlank_of_mem_text hmem

theorem lineElement_text (e : FileEntry) : LineElement e.text :=
  ⟨e.text_ne_nil, e.isTrim_text, e.newline_notMem_text, e.dropEndWhile_text⟩

end FileEntry

/-! ## Layouts -/

/-- How entries are written: on lines of their own after the line of the option, or on that line. -/
inductive Layout where
  | lines
  | oneLine
  deriving DecidableEq

/-- The name of the option. -/
def optionName : List Char := "per-file-ignores".toList

/-- A line of its own for an entry. -/
def OnLine (line : List Char) (e : FileEntry) : Prop :=
  ∃ indent tail, indent ≠ [] ∧ (∀ c ∈ indent, isBlank c = true) ∧ (∀ c ∈ tail, isBlank c = true) ∧
    line = indent ++ e.text ++ tail

/-- The lines on which entries are written in a layout. -/
inductive Written : Layout → List FileEntry → List (List Char) → Prop where
  | lines {gap tail : List Char} {es : List FileEntry} {more : List (List Char)}
      (hgap : ∀ c ∈ gap, isBlank c = true) (htail : ∀ c ∈ tail, isBlank c = true)
      (hmore : List.Forall₂ OnLine more es) :
      Written .lines es ((optionName ++ gap ++ '=' :: tail) :: more)
  | oneLine {gap lead tail : List Char} {e : FileEntry} (hgap : ∀ c ∈ gap, isBlank c = true)
      (hlead : ∀ c ∈ lead, isBlank c = true) (htail : ∀ c ∈ tail, isBlank c = true) :
      Written .oneLine [e] [optionName ++ gap ++ '=' :: (lead ++ e.text ++ tail)]

theorem Written.exists_eq_singleton {es : List FileEntry} {lines : List (List Char)}
    (h : Written .oneLine es lines) : ∃ e, es = [e] := by
  cases h
  exact ⟨_, rfl⟩

/-- The texts that are read of the entries. -/
def Layout.texts : Layout → List FileEntry → List (List Char)
  | .lines, es => (es.filter (!·.isComment)).map FileEntry.text
  | .oneLine, es => es.flatMap FileEntry.pieces

section

variable {gap rest line : List Char} {e : FileEntry} {es : List FileEntry}
  {more : List (List Char)}

theorem trim_optionLine (gap rest : List Char) :
    trim (optionName ++ gap ++ '=' :: rest) = optionName ++ gap ++ '=' :: trimEnd rest := by
  have hhead : ∀ c ∈ (optionName ++ gap ++ '=' :: rest).head?, isBlank c = false := by
    intro c hc
    obtain rfl : 'p' = c := Option.some_inj.1 hc
    decide
  have hlast : ∀ c ∈ (optionName ++ gap ++ ['=']).getLast?, isBlank c = false := by
    intro c hc
    rw [List.getLast?_concat] at hc
    obtain rfl := Option.some_inj.1 hc
    decide
  rw [trim, trimStart_of_head hhead, List.append_cons, trimEnd_append_of_last hlast]
  simp

theorem begins_optionLine (gap rest : List Char) :
    Ini.Begins (optionName ++ gap ++ '=' :: rest) where
  not_comment := by
    rw [Ini.isComment, trim_optionLine]
    rfl
  not_blank := by
    rw [trim_optionLine]
    exact List.cons_ne_nil _ _
  not_indented := rfl

theorem sectionName?_optionLine (gap rest : List Char) :
    Ini.sectionName? (trim (optionName ++ gap ++ '=' :: rest)) = none := by
  rw [trim_optionLine]
  rfl

theorem option?_optionLine (hgap : ∀ c ∈ gap, isBlank c = true) (rest : List Char) :
    Ini.option? (trim (optionName ++ gap ++ '=' :: rest)) = some (optionName, trim rest) := by
  have hletters : ∀ c ∈ optionName, (c != '=' && c != ':') = true := by decide
  have hname : ∀ c ∈ optionName ++ gap, (c != '=' && c != ':') = true := by
    refine List.forall_mem_append.2 ⟨hletters, fun c hc => ?_⟩
    have hblank := hgap c hc
    rw [Bool.and_eq_true, bne_iff_ne, bne_iff_ne]
    constructor
    all_goals
      rintro rfl
      cases hblank
  have htake : (optionName ++ gap ++ '=' :: trimEnd rest).takeWhile
      (fun c => c != '=' && c != ':') = optionName ++ gap := by
    rw [List.takeWhile_append_of_pos hname]
    simp
  rw [Ini.option?, trim_optionLine, htake, List.drop_left, trimEnd_append hgap]
  dsimp only
  rw [trim_trimEnd]
  rfl

theorem OnLine.trim_eq (h : OnLine line e) : trim line = e.text := by
  obtain ⟨indent, tail, -, hindent, htail, rfl⟩ := h
  exact trim_append_append hindent htail e.isTrim_text

theorem OnLine.continues (h : OnLine line e) : Ini.Continues line := by
  obtain ⟨indent, tail, hne, hindent, -, rfl⟩ := h
  refine .inr (.inr ?_)
  rw [Ini.indentOf, List.append_assoc, List.takeWhile_append_of_pos hindent, List.length_append]
  exact Nat.add_pos_left (List.length_pos_iff.2 hne) _

theorem OnLine.addition?_eq (h : OnLine line e) :
    Ini.addition? line = if e.isComment then none else some e.text := by
  rw [Ini.addition?, Ini.isComment, h.trim_eq, e.head?_text]
  rfl

theorem forall_continues (h : List.Forall₂ OnLine more es) : ∀ l ∈ more, Ini.Continues l := by
  induction h with
  | nil => exact List.forall_mem_nil _
  | cons hline _ ih => exact List.forall_mem_cons.2 ⟨hline.continues, ih⟩

theorem filterMap_addition? (h : List.Forall₂ OnLine more es) :
    more.filterMap Ini.addition? = Layout.lines.texts es := by
  induction h with
  | nil => rfl
  | @cons line e more es hline _ ih =>
    have hadded := hline.addition?_eq
    rw [Layout.texts] at ih ⊢
    cases hcomment : e.isComment with
    | true =>
      rw [hcomment, if_pos rfl] at hadded
      rw [List.filterMap_cons_none hadded, ih, List.filter_cons_of_neg (by simp [hcomment])]
    | false =>
      rw [hcomment, if_neg Bool.false_ne_true] at hadded
      rw [List.filterMap_cons_some hadded, ih, List.filter_cons_of_pos (by simp [hcomment]),
        List.map_cons]

/-- **What is read of entries on lines of their own.** -/
theorem parse_lines (es : List FileEntry) :
    ListStyle.linesOrCommas.parse (trimEnd (['\n'].intercalate ([] :: es.map FileEntry.text))) =
      es.map FileEntry.text := by
  cases es using List.reverseRecOn with
  | nil => rfl
  | append_singleton es e =>
    have hlast : ∀ c ∈ (['\n'].intercalate ([] :: (es ++ [e]).map FileEntry.text)).getLast?,
        isBlank c = false := by
      rw [List.map_append, List.map_singleton, ← List.cons_append,
        intercalate_concat (List.cons_ne_nil _ _), ← List.append_assoc,
        List.getLast?_append_of_ne_nil _ e.text_ne_nil]
      exact e.isTrim_text.last
    rw [trimEnd_of_last hlast]
    have hlist := lineList_of_laidOut (laidOut_self (fun x => .inl (spaced_self x))
      ((es ++ [e]).map FileEntry.text)) (List.forall_mem_map.2 fun e _ => e.lineElement_text)
    obtain ⟨first, rest, hes⟩ := List.exists_cons_of_ne_nil
      (List.map_eq_nil_iff.not.2 (List.append_ne_nil_of_right_ne_nil es (List.cons_ne_nil e [])))
    rw [hes] at hlist ⊢
    exact hlist

/-- **What is read of written entries**: a line that sets the option, lines that go on with it, and
on them the texts of the layout. -/
theorem Written.exists_value {layout : Layout} {lines : List (List Char)}
    (h : Written layout es lines) :
    ∃ head value more, lines = head :: more ∧ Ini.Begins head ∧
      Ini.sectionName? (trim head) = none ∧ Ini.option? (trim head) = some (optionName, value) ∧
      (∀ l ∈ more, Ini.Continues l) ∧
      ListStyle.linesOrCommas.parse
        (trimEnd (['\n'].intercalate (value :: more.filterMap Ini.addition?))) =
          layout.texts es := by
  cases h with
  | @lines gap tail _ more hgap htail hmore =>
    refine ⟨_, _, more, rfl, begins_optionLine _ _, sectionName?_optionLine _ _,
      option?_optionLine hgap tail, forall_continues hmore, ?_⟩
    rw [trim_eq_nil_iff.2 htail, filterMap_addition? hmore]
    exact parse_lines _
  | @oneLine gap lead tail e hgap hlead htail =>
    refine ⟨_, _, [], rfl, begins_optionLine _ _, sectionName?_optionLine _ _,
      option?_optionLine hgap _, List.forall_mem_nil _, ?_⟩
    rw [trim_append_append hlead htail e.isTrim_text, List.filterMap_nil,
      List.intercalate_singleton, trimEnd_of_last e.isTrim_text.last,
      parse_of_notMem _ e.newline_notMem_text, e.commaList_text]
    simp [Layout.texts]

end

/-! ## Files and settings -/

/-- A settings file in which entries are written. -/
structure IgnoresFile (layout : Layout) (es : List FileEntry) where
  text : String
  surroundings : Ini.Surroundings "flake8"
  lines : List (List Char)
  written : Written layout es lines
  fileLines_eq : Ini.fileLines text.toList = surroundings.around lines

/-- The settings of a configuration have the entries from a file: the file is read, and none that is
read after it sets the option; its layer alone says anything about the option. -/
structure IgnoresSource (m : Machine) (c : Config) (path : Value) (layout : Layout)
    (es : List FileEntry) extends IgnoresFile layout es where
  file : String
  earlier : List String
  later : List String
  isThere : (m.files.isFile file.toList && !m.files.isDirectory file.toList) = true
  read_eq : m.files.read file = .ok text
  unset : ∀ other ∈ later, ∀ text, m.files.read other = .ok text →
    ∀ l ∈ Ini.fileLines text.toList, ¬ Ini.Sets "per-file-ignores" l
  layer : Value
  layer_eq : Source.flake8.settings m.files (earlier ++ file :: later) = .ok layer
  projects : List Value
  users : List Value
  above : List Value
  below : List Value
  reads : c.Reads m path projects users
  layers_eq : projects ++ users = above ++ layer :: below
  silent : ∀ other ∈ c.client :: (above ++ below), wordOf fileIgnoresPath other = .silent
  keyed : everywhere keyed c.client = true
  defaults_eq : Plugin.defaults m.loaded = .ok c.defaults

section

variable {layout : Layout} {es : List FileEntry} {m : Machine} {c : Config} {path : Value}

theorem IgnoresFile.exists_value (f : IgnoresFile layout es) :
    ∃ value : String, trimEnd value.toList = value.toList ∧
      ListStyle.linesOrCommas.parse value.toList = layout.texts es ∧
      ∀ (ini ini' : Ini) (file : String), ini.read file f.text = .ok ini' →
        ini'.HasValue "flake8" "per-file-ignores" value := by
  obtain ⟨head, value, more, hlines, hbegins, hnone, hhead, hmore, hparse⟩ :=
    f.written.exists_value
  refine ⟨String.ofList (trimEnd (['\n'].intercalate (value :: more.filterMap Ini.addition?))),
    ?_, ?_, fun ini ini' file hread => ?_⟩
  · rw [String.toList_ofList]
    exact trimEnd_trimEnd _
  · rw [String.toList_ofList]
    exact hparse
  · have htext := f.fileLines_eq
    rw [hlines] at htext
    exact Ini.hasValue_of_read f.surroundings (by decide) (by decide) hbegins hnone hhead hmore
      htext hread

/-- The option with the entries. -/
def entriesOption : FileOption := ⟨"per-file-ignores", "plugins.flake8.perFileIgnores", .list⟩

theorem exists_options_eq : ∃ options, Source.flake8.options = options ++ [entriesOption] :=
  ⟨⟨"max-complexity", "plugins.mccabe.threshold", .int⟩ ::
    (Source.styleOptions "pycodestyle" ++ Source.styleOptions "flake8"), rfl⟩

theorem entriesOf_of_path? {settings : Value} {entries : List Value}
    (h : settings.path? ["perFileIgnores"] = some (.list entries)) :
    entriesOf settings = .ok entries := by
  have hget : settings.get "perFileIgnores" = .ok (.list entries) := by
    cases settings with
    | object members =>
      rw [Value.path?] at h
      obtain ⟨v, hv, h⟩ := Option.bind_eq_some_iff.1 h
      obtain rfl := Option.some_inj.1 h
      rw [Value.get, Value.getD, Value.get?, hv]
      rfl
    | _ => cases h
  rw [entriesOf, hget]
  cases entries <;> rfl

/-- **The entries of the settings** are the texts that were read. -/
theorem IgnoresSource.entriesOf_eq (f : IgnoresSource m c path layout es) {settled : Settled}
    (hcompute : c.compute m path = .ok settled) {settings : Value}
    (hsettings : Config.ofPlugin settled.value "flake8" = .ok settings) :
    entriesOf settings = .ok ((layout.texts es).map fun s => .str (String.ofList s)) := by
  obtain ⟨value, htrim, hparse, hset⟩ := f.exists_value
  obtain ⟨ini, hini, hlayer⟩ := exists_of_bind_eq_ok f.layer_eq
  have hvalue := hasValue_of_readFiles (by decide) (by decide) htrim f.isThere f.read_eq
    (fun ini ini' => hset ini ini' f.file) f.unset hini
  have hread := read_of_hasValue (o := entriesOption) rfl .linesOrCommas (by decide) (by decide)
    hvalue
  rw [hparse] at hread
  obtain ⟨options, hoptions⟩ := exists_options_eq
  rw [hoptions] at hlayer
  have hdestination : (splitOn '.' entriesOption.destination.toList).map String.ofList =
      fileIgnoresPath := by decide
  have hgiven := hdestination ▸ valueAt_parse hread rfl hlayer
  have hsilent := List.forall_mem_cons.1 f.silent
  have honly := Config.valueAt_of_only_layer f.reads f.layers_eq hsilent.2 f.keyed hsilent.1
    (inOrder_defaults f.defaults_eq) (valueAt_defaults f.defaults_eq) hcompute
  obtain ⟨hpath, -⟩ := Option.filter_eq_some_iff.1 (honly.trans hgiven)
  rw [path?_plugin hsettings] at hpath
  exact entriesOf_of_path? hpath

end

/-! ## The codes of a layout -/

/-- Do the entries that fit a path get through in the layout?  On lines of their own those that are
no comments do. On one line an entry has to have one code only. -/
def Layout.Keeps (layout : Layout) (path : String) (es : List FileEntry) : Prop :=
  match layout with
  | .lines => ∀ e ∈ es, e.fits path = true → e.isComment = false
  | .oneLine => ∀ e ∈ es, e.codes.length = 1

namespace FileEntry

theorem sublist_fittingCodes (path : String) (es : List FileEntry) :
    (fittingCodes path (es.filter (!·.isComment))).Sublist (fittingCodes path es) :=
  (List.filter_sublist.filter _).flatMap _

/-- **Comments are missed just where they fit.** -/
theorem fittingCodes_eq_iff (path : String) (es : List FileEntry) :
    fittingCodes path (es.filter (!·.isComment)) = fittingCodes path es ↔
      Layout.lines.Keeps path es := by
  induction es with
  | nil => exact ⟨fun _ => List.forall_mem_nil _, fun _ => rfl⟩
  | cons e es ih =>
    have hkeeps : Layout.lines.Keeps path (e :: es) ↔
        (e.fits path = true → e.isComment = false) ∧ Layout.lines.Keeps path es :=
      List.forall_mem_cons
    rw [hkeeps, ← ih, fittingCodes_cons]
    cases hcomment : e.isComment with
    | false =>
      rw [List.filter_cons_of_pos (by simp [hcomment]), fittingCodes_cons,
        List.append_cancel_left_eq]
      simp
    | true =>
      rw [List.filter_cons_of_neg (by simp [hcomment])]
      cases e.fits path with
      | false => simp
      | true =>
        -- the codes of the entry are missing, and it has some
        have hle := (sublist_fittingCodes path es).length_le
        have hpos := List.length_pos_iff.2 e.nonempty
        rw [if_pos rfl]
        refine ⟨fun heq => ?_, fun ⟨h, _⟩ => by cases h rfl⟩
        have hlength := congrArg List.length heq
        rw [List.length_append, List.length_map] at hlength
        omega

theorem pieces_of_length (e : FileEntry) (h : e.codes.length = 1) : e.pieces = [e.text] := by
  obtain ⟨code, hcode⟩ := List.length_eq_one_iff.1 h
  rw [pieces, text, hcode]
  simp

theorem exists_mem_pieces (e : FileEntry) (h : e.codes.length ≠ 1) :
    ∃ s ∈ e.pieces, ':' ∉ s := by
  obtain ⟨code, codes, hcodes⟩ := List.exists_cons_of_ne_nil e.nonempty
  cases codes with
  | nil => exact absurd (congrArg List.length hcodes) h
  | cons next codes =>
    have hnext : next ∈ e.codes := by
      rw [hcodes]
      simp
    refine ⟨next, ?_, fun hmem => ((e.codes_unmarked next hnext).2 ':' hmem).1 rfl⟩
    rw [pieces, hcodes]
    simp

end FileEntry
end LangServer.Lint.Flake8

/-! ## Lints -/

namespace LangServer.LintCall

open Lint.Flake8 Settings

/-- **When codes for single files reach flake8.** The settings have entries for single files from a
settings file, in one of the two layouts, and flake8 can be run with the other settings. Then the
lint of a document is answered, with flake8 ignoring the codes of the settings followed by those of
just the entries that fit the document, if and only if the layout keeps the entries and no code has
a semicolon in it. On lines of their own the entries are kept unless one that fits begins as a
comment does. On the line of the option an entry is kept if it has one code only: with more codes
the lint fails, whether or not the entry fits. -/
theorem fitting_codes_ignored_iff {h : Host} (hh : h.Coherent) (r : LintCall) {c : Config}
    (hc : h.configAt r.caller.space = some c) {settings : Value}
    (hsettings : h.settingsOf r.caller.space "flake8" (.str r.document.path) = .ok settings)
    {ignores : List String}
    (hignores : settings.getD "ignore" (.list []) = .ok (.list (ignores.map .str)))
    (hrun : r.CanRun h settings) {layout : Layout} {es : List FileEntry}
    (f : IgnoresSource h.machine c (.str r.document.path) layout es) :
    r.Ignores h (ignores ++ FileEntry.fittingCodes r.document.path es) ↔
      layout.Keeps r.document.path es ∧
        ∀ code ∈ ignores ++ FileEntry.fittingCodes r.document.path es, ';' ∉ code.toList := by
  obtain ⟨c', settled, hc', hcompute, hplugin⟩ := exists_of_settingsOf hsettings
  obtain rfl := Option.some_inj.1 (hc.symm.trans hc')
  have hentries := f.entriesOf_eq hcompute hplugin
  have hcodes : ignoredCodes r.document.path settings = _ :=
    ignoredCodes_of_list hignores hentries
  have hlist : ∀ kept : List FileEntry,
      codesFor r.document.path ((layout.texts es).map fun s => .str (String.ofList s)) =
        .ok ((FileEntry.fittingCodes r.document.path kept).map .str) →
      ignoredCodes r.document.path settings =
        .ok (.list ((ignores ++ FileEntry.fittingCodes r.document.path kept).map .str)) := by
    intro kept hkept
    rw [hcodes, hkept, List.map_append]
    rfl
  cases layout with
  | lines =>
    have hkept := hlist (es.filter (!·.isComment)) (by
      rw [Layout.texts, List.map_map]
      exact FileEntry.codesFor_texts _ _)
    have hsub := (FileEntry.sublist_fittingCodes r.document.path es).append_left ignores
    rw [ignores_iff hh hsettings hrun hkept hsub, List.append_cancel_left_eq,
      FileEntry.fittingCodes_eq_iff]
  | oneLine =>
    obtain ⟨e, rfl⟩ := f.written.exists_eq_singleton
    have htexts : Layout.oneLine.texts [e] = e.pieces := List.flatMap_singleton ..
    by_cases hone : e.codes.length = 1
    · have hkept := hlist [e] (by
        rw [htexts, e.pieces_of_length hone]
        exact FileEntry.codesFor_texts _ [e])
      rw [ignores_iff hh hsettings hrun hkept (List.Sublist.refl _)]
      exact and_congr_left fun _ => ⟨fun _ => List.forall_mem_singleton.2 hone, fun _ => rfl⟩
    · obtain ⟨s, hs, hcolon⟩ := e.exists_mem_pieces hone
      obtain ⟨fault, hfault⟩ := FileEntry.codesFor_of_notMem r.document.path hs hcolon
      rw [htexts, hfault] at hcodes
      have hcommand : commandOf h r.caller.space r.document.path = .error fault := by
        rw [commandOf, hsettings, ok_bind, hcodes]
        rfl
      refine iff_of_false (not_ignores_of_error hh hcommand) fun hboth => ?_
      exact hone (hboth.1 e List.mem_cons_self)

/-- An entry with two codes. -/
def twoCodes : FileEntry where
  pattern := "a.py".toList
  codes := ["E1".toList, "E2".toList]
  unmarked := by decide
  valid := by decide
  nonempty := by decide
  codes_unmarked := by decide

/-- The lines that give the entry. -/
def optionLines : Layout → List (List Char)
  | .lines => [optionName ++ [' '] ++ '=' :: ['\n'], [' '] ++ twoCodes.text ++ ['\n']]
  | .oneLine => [optionName ++ [' '] ++ '=' :: ([' '] ++ twoCodes.text ++ ['\n'])]

theorem written_optionLines (layout : Layout) : Written layout [twoCodes] (optionLines layout) := by
  cases layout with
  | lines =>
    exact .lines (by decide) (by decide)
      (.cons ⟨[' '], ['\n'], by decide, by decide, by decide, rfl⟩ .nil)
  | oneLine => exact .oneLine (by decide) (by decide) (by decide)

/-- A settings file with the entry. -/
def setupWith (layout : Layout) : IgnoresFile layout [twoCodes] where
  text := String.ofList ("[flake8]\n".toList ++ (optionLines layout).flatten)
  surroundings :=
    { before := [], header := "[flake8]\n".toList, between := [], gap := [], after := []
      begins := ⟨by decide, by decide, by decide⟩
      opens := by decide
      same_section := by decide
      gap_empty := by decide
      leaves := fun l hl => nomatch hl }
  lines := optionLines layout
  written := written_optionLines layout
  fileLines_eq := by cases layout <;> decide +kernel

/-- The configuration of a client that has settings files read. -/
def readsFiles : Config where
  id := 1
  rootUri := "file:///w"
  rootPath := "/w"
  defaults := ((Plugin.defaults ({} : Machine).loaded).toOption).getD .null
  client := .object [("configurationSources", .texts ["flake8"])]

/-- A project with the settings file. -/
def projectWith (layout : Layout) : Host where
  machine := { files := ⟨[("/w/setup.cfg", (setupWith layout).text)]⟩ }
  spaces := [{ rootUri := "file:///w", scheme := "file", rootPath := "/w"
               config := some readsFiles }]

/-- What the file says. -/
def layerWith (layout : Layout) : Value :=
  Plugin.inSection "flake8" [("perFileIgnores",
    .list ((layout.texts [twoCodes]).map fun s => .str (String.ofList s)))]

/-- The settings that come of it. -/
def settingsWith (layout : Layout) : Value :=
  .object [("enabled", .bool false), ("perFileIgnores",
    .list ((layout.texts [twoCodes]).map fun s => .str (String.ofList s)))]

theorem settingsOf_projectWith (layout : Layout) :
    (projectWith layout).settingsOf 0 "flake8" (.str "/w/a.py") = .ok (settingsWith layout) := by
  cases layout <;> exact eq_ok_of_toOption (by decide +kernel)

/-- The settings have the entry from the file. -/
def sourceWith (layout : Layout) :
    IgnoresSource (projectWith layout).machine readsFiles (.str "/w/a.py") layout [twoCodes] where
  toIgnoresFile := setupWith layout
  file := "/w/./setup.cfg"
  earlier := []
  later := []
  isThere := by cases layout <;> decide +kernel
  read_eq := by cases layout <;> exact eq_ok_of_toOption (by decide +kernel)
  unset := fun other hother => nomatch hother
  layer := layerWith layout
  layer_eq := by cases layout <;> exact eq_ok_of_toOption (by decide +kernel)
  projects := [layerWith layout]
  users := [.object []]
  above := []
  below := [.object []]
  reads := ⟨[.str "flake8"], rfl, by cases layout <;> decide +kernel,
    by cases layout <;> decide +kernel⟩
  layers_eq := rfl
  silent := by decide
  keyed := by decide
  defaults_eq := eq_ok_of_toOption (by cases layout <;> decide +kernel)

/-- **Two codes of a file are ignored when they stand on a line of their own**, but the lint fails
when they stand on the line of the option. -/
theorem codes_lost_on_line_of_option :
    let r := ofFile "a.py"
    (∀ layout, (projectWith layout).Coherent ∧ (projectWith layout).configAt 0 = some readsFiles ∧
      (projectWith layout).settingsOf 0 "flake8" (.str "/w/a.py") = .ok (settingsWith layout) ∧
      r.CanRun (projectWith layout) (settingsWith layout)) ∧
    r.Ignores (projectWith .lines) ["E1", "E2"] ∧
    ¬ r.Ignores (projectWith .oneLine) ["E1", "E2"] := by
  intro r
  have hcoherent : ∀ layout, (projectWith layout).Coherent :=
    fun _ => Host.coherent_of_single rfl rfl
  have hrun : ∀ layout, r.CanRun (projectWith layout) (settingsWith layout) := by
    intro layout
    refine ⟨⟨.str "flake8", [.str "-"], .str "flake8", ?_, ?_, .inl rfl⟩, ⟨"x\n", rfl⟩, ⟨[], rfl⟩⟩
    · exact eq_ok_of_toOption (by cases layout <;> decide +kernel)
    · exact eq_ok_of_toOption (by cases layout <;> decide +kernel)
  have hiff : ∀ layout, r.Ignores (projectWith layout) ["E1", "E2"] ↔
      layout.Keeps "/w/a.py" [twoCodes] ∧ ∀ code ∈ ["E1", "E2"], ';' ∉ code.toList := by
    intro layout
    have hignores : (settingsWith layout).getD "ignore" (.list []) =
        .ok (.list (([] : List String).map .str)) := rfl
    have hfitting : FileEntry.fittingCodes r.document.path [twoCodes] = ["E1", "E2"] := by
      decide +kernel
    have h := fitting_codes_ignored_iff (hcoherent layout) r rfl (settingsOf_projectWith layout)
      hignores (hrun layout) (sourceWith layout)
    rw [hfitting] at h
    exact h
  refine ⟨fun layout => ⟨hcoherent layout, rfl, settingsOf_projectWith layout, hrun layout⟩, ?_, ?_⟩
  · rw [hiff]
    exact ⟨List.forall_mem_singleton.2 fun _ => by decide, by decide⟩
  · rw [hiff]
    rintro ⟨hkeeps, -⟩
    cases hkeeps twoCodes List.mem_cons_self

end LangServer.LintCall
