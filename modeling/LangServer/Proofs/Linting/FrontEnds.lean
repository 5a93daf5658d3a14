import LangServer.Proofs.Linting.Printing
import LangServer.Proofs.Messages
import Mathlib.Data.List.Chain

/-!
# Two ways to read pylint's messages

As a program pylint prints a line for each message, and the severity of a diagnostic is found by the
letter that the message id begins with. In the server it answers in JSON, and the severity is found
by the name of the category. One category is missing there: a message of the category `info` is
taken to be as serious as the message before.

* Printed messages are always told with the severity of their own category
  (`Message.exists_printed`).
* In JSON they are told so just if each message of the category `info` comes after one that is as
  serious (`exists_diagnosticsOfJson_iff`), and they are told at all just if no such message comes
  first (`isOk_diagnosticsOfJson_iff`).
* So the two ways agree under that condition (`front_ends_agree_iff`).
-/

namespace LangServer.Lint.Pylint

open Text

/-! ## Messages -/

/-- The categories of pylint's messages. -/
inductive Category where
  | convention
  | error
  | fatal
  | info
  | refactor
  | warning
  deriving DecidableEq, Repr

namespace Category

/-- The letter that the ids of messages begin with. -/
def letter : Category → Char
  | convention => 'C'
  | error => 'E'
  | fatal => 'F'
  | info => 'I'
  | refactor => 'R'
  | warning => 'W'

def name : Category → String
  | convention => "convention"
  | error => "error"
  | fatal => "fatal"
  | info => "info"
  | refactor => "refactor"
  | warning => "warning"

/-- How serious messages are. -/
def severity : Category → Severity
  | convention | info => .information
  | error | fatal => .error
  | refactor => .hint
  | warning => .warning

theorem severityOfLetter?_letter (c : Category) : severityOfLetter? c.letter = some c.severity := by
  cases c <;> rfl

theorem severityOfCategory?_name (c : Category) :
    severityOfCategory? (.str c.name) = if c = info then none else some c.severity := by
  cases c <;> rfl

end Category

/-- A message of pylint. -/
structure Message where
  path : List Char
  /-- The line, counted from one. -/
  line : Nat
  column : Nat
  category : Category
  /-- The message id after its letter. -/
  number : List Char
  text : List Char
  path_unbroken : ∀ c ∈ path, isBoundary c = false
  number_word : ∀ c ∈ number, isWord c = true
  text_unbroken : ∀ c ∈ text, isBoundary c = false
  text_colonless : ':' ∉ text

namespace Message

/-- The message id. -/
def id (m : Message) : List Char := m.category.letter :: m.number

/-- What pylint has to say as a program. -/
def notice (m : Message) : Notice .pylint where
  path := m.path
  line := m.line
  column := m.column
  code := m.id
  message := m.text
  path_unbroken := m.path_unbroken
  message_unbroken := m.text_unbroken
  code_ne_nil := List.cons_ne_nil _ _
  code_word := List.forall_mem_cons.2 ⟨by cases m.category <;> decide, m.number_word⟩
  code_begins := by
    rintro letters hletters c hc
    obtain rfl := Option.some_inj.1 hletters
    obtain rfl := Option.some_inj.1 hc
    cases m.category <;> decide
  column_le := Nat.zero_le _

/-- The value is the message in JSON.  It may have further members. -/
structure Describes (m : Message) (v : Value) : Prop where
  line : v.item "line" = .ok (.int m.line)
  column : v.item "column" = .ok (.int m.column)
  category : v.item "type" = .ok (.str m.category.name)
  id : v.item "message-id" = .ok (.str (String.ofList m.id))
  symbol : ∃ symbol, v.item "symbol" = .ok (.str symbol)
  text : v.item "message" = .ok (.str (String.ofList m.text))

/-- The diagnostic shows where the message is, its id, and how serious its category is. -/
structure Shows (m : Message) (d : Diagnostic) : Prop where
  line : d.line = m.line - 1
  column : d.column = .int m.column
  code : d.code = some (.str (String.ofList m.id))
  severity : d.severity = m.category.severity

end Message

/-- The text is an answer in JSON with the messages; a blank one has none. -/
def Reports (out : String) (ms : List Message) : Prop :=
  trim out.toList = [] ∧ ms = [] ∨
    ∃ vs, Json.parse? .message out.toList = some (.list vs) ∧ List.Forall₂ Message.Describes ms vs

/-- Diagnostics with the same place, code and severity. -/
structure Alike (d e : Diagnostic) : Prop where
  line : d.line = e.line
  column : d.column = e.column
  code : d.code = e.code
  severity : d.severity = e.severity

/-- No message of the category `info` comes first, or after a message that is more or less serious
than it is. -/
def InfosFollow (ms : List Message) : Prop :=
  (∀ m ∈ ms.head?, m.category ≠ .info) ∧
    ms.IsChain fun m m' => m'.category = .info → m.category.severity = .information

instance (ms : List Message) : Decidable (InfosFollow ms) :=
  inferInstanceAs (Decidable (_ ∧ _))

/-! ## Printed messages -/

namespace Message

variable {m : Message} {lines : List (List Char)}

theorem not_quotes_text (m : Message) : ¬ Finding.Quotes mark m.text := by
  rintro ⟨f, -, htext⟩
  refine m.text_colonless ?_
  rw [htext, Finding.print]
  simp

theorem severityOfCode_id (m : Message) : severityOfCode m.id = .ok m.category.severity := by
  rw [id, severityOfCode, Category.severityOfLetter?_letter]

theorem length_toDigits_le {n : Nat} (h : n < 0x10000000000000000) :
    (Nat.toDigits 10 n).length ≤ digitLimit := by
  have hfew : (Nat.toDigits 10 n).length ≤ 20 :=
    (Nat.length_toDigits_le_iff (by decide) (by decide)).2 (Nat.lt_trans h (by decide))
  exact Nat.le_trans hfew (by decide)

/-- **Printed messages are told with the severity of their category.** -/
theorem exists_printed {d : Document} {fs : Files} (hlines : d.lines fs = .ok lines)
    {ms : List Message} (hin : ∀ m ∈ ms, 1 ≤ m.line ∧ m.line ≤ lines.length)
    (hsmall : ∀ m ∈ ms, m.line < 0x10000000000000000 ∧ m.column < 0x10000000000000000) :
    ∃ printed, diagnostics (d.lines fs) (Printer.output (ms.map notice)) = .ok printed ∧
      List.Forall₂ Shows ms printed := by
  have hdiagnostics : diagnostics (d.lines fs) (Printer.output (ms.map notice)) =
      ms.mapM fun m => Printer.pylint.diagnosticOf (.ok lines) m.notice.finding := by
    have hread : Notice.read ∘ notice = fun m => m.notice.finding :=
      funext fun m => Notice.read_of_not_quotes m.not_quotes_text
    show Printer.pylint.diagnostics _ _ = _
    rw [hlines, Printer.diagnostics_eq, Printer.parseAll_output, List.map_map, hread,
      List.mapM_map]
    rfl
  rw [hdiagnostics, exists_mapM_forall₂_iff]
  intro m hm
  obtain ⟨e, he, htells, hseverity⟩ := Notice.exists_diagnosticOf (n := m.notice) (hin m hm).1
    (hin m hm).2 (length_toDigits_le (hsmall m hm).1) (length_toDigits_le (hsmall m hm).2)
  refine ⟨e, he, htells.line, ?_, htells.code, ?_⟩
  · rw [htells.column, Printer.firstColumn]
    simp [notice]
  · exact (Except.ok.inj (m.severityOfCode_id.symm.trans hseverity)).symm

end Message

/-! ## Messages in JSON -/

section

variable {m : Message} {v : Value} {lines : List (List Char)} {last : Option Severity}

/-- How serious a message in JSON is taken to be after one with the severity `last`. -/
def Message.severityAfter (last : Option Severity) (m : Message) : Option Severity :=
  if m.category = .info then last else some m.category.severity

/-- The diagnostic for a message in JSON, and why there may be none. -/
theorem diagnosticOfJson_of_describes (last : Option Severity) (h : m.Describes v)
    (hlow : 1 ≤ m.line) (hhigh : m.line ≤ lines.length) :
    match m.severityAfter last with
    | none => diagnosticOfJson (.ok lines) last v = .error .unassigned
    | some severity => ∃ d, diagnosticOfJson (.ok lines) last v = .ok d ∧ d.line = m.line - 1 ∧
        d.column = .int m.column ∧ d.code = some (.str (String.ofList m.id)) ∧
        d.severity = severity := by
  obtain ⟨symbol, hsymbol⟩ := h.symbol
  have hn : (1 : Int) ≤ m.line := by omega
  obtain ⟨width, hwidth⟩ := Report.exists_width? hn (by omega : (m.line : Int) ≤ lines.length)
  have hne : lines.isEmpty = false := by
    cases lines with
    | nil =>
      rw [List.length_nil] at hhigh
      omega
    | cons => rfl
  have hwidth : widthOrZero lines ((m.line : Int) - 1) = .ok (width : Int) := by
    rw [widthOrZero, hne, if_neg Bool.false_ne_true]
    exact (Report.widthOf_eq_ok_iff hn).2 ⟨width, hwidth, rfl⟩
  have hseverity : (severityOfCategory? (.str m.category.name)).orElse (fun _ => last) =
      m.severityAfter last := by
    rw [Category.severityOfCategory?_name, Message.severityAfter]
    split <;> rfl
  simp only [diagnosticOfJson, h.line, h.column, h.category, h.id, hsymbol, h.text, hwidth,
    Value.number, hseverity, ok_bind]
  cases m.severityAfter last with
  | none => rfl
  | some severity => exact ⟨_, rfl, rfl, rfl, rfl, rfl⟩

theorem exists_shows_iff (h : m.Describes v) (hlow : 1 ≤ m.line) (hhigh : m.line ≤ lines.length) :
    (∃ d, diagnosticOfJson (.ok lines) last v = .ok d ∧ m.Shows d) ↔
      (m.category = .info → last = some .information) := by
  have hread := diagnosticOfJson_of_describes last h hlow hhigh
  have hsevere : m.severityAfter last = some m.category.severity ↔
      (m.category = .info → last = some .information) := by
    rw [Message.severityAfter]
    by_cases hinfo : m.category = .info
    · rw [if_pos hinfo, hinfo]
      exact (imp_iff_right rfl).symm
    · rw [if_neg hinfo]
      exact iff_of_true rfl fun h => absurd h hinfo
  rw [← hsevere]
  cases hafter : m.severityAfter last with
  | none =>
    rw [hafter] at hread
    refine iff_of_false ?_ (fun h => nomatch h)
    rintro ⟨d, hd, -⟩
    cases hread.symm.trans hd
  | some severity =>
    rw [hafter] at hread
    obtain ⟨d, hd, hline, hcolumn, hcode, hseverity⟩ := hread
    constructor
    · rintro ⟨d', hd', hshows⟩
      obtain rfl := Except.ok.inj (hd.symm.trans hd')
      rw [← hseverity, hshows.severity]
    · intro hsame
      exact ⟨d, hd, hline, hcolumn, hcode, hseverity.trans (Option.some_inj.1 hsame)⟩

end

section

variable {ms : List Message} {vs : List Value} {lines : List (List Char)}

theorem exists_diagnosticsOfJson (hvs : List.Forall₂ Message.Describes ms vs)
    (hin : ∀ m ∈ ms, 1 ≤ m.line ∧ m.line ≤ lines.length) (last : Severity) :
    ∃ found, diagnosticsOfJson (.ok lines) (some last) vs = .ok found := by
  induction hvs generalizing last with
  | nil => exact ⟨[], rfl⟩
  | @cons m v ms vs hv hvs ih =>
    rw [List.forall_mem_cons] at hin
    have hread := diagnosticOfJson_of_describes (some last) hv hin.1.1 hin.1.2
    obtain ⟨severity, hafter⟩ : ∃ severity, m.severityAfter (some last) = some severity := by
      rw [Message.severityAfter]
      split
      · exact ⟨_, rfl⟩
      · exact ⟨_, rfl⟩
    rw [hafter] at hread
    obtain ⟨d, hd, -⟩ := hread
    obtain ⟨found, hfound⟩ := ih hin.2 d.severity
    exact ⟨d :: found, by rw [diagnosticsOfJson, hd, ok_bind, hfound]; rfl⟩

/-- **When messages in JSON are told at all.** -/
theorem isOk_diagnosticsOfJson_iff (hvs : List.Forall₂ Message.Describes ms vs)
    (hin : ∀ m ∈ ms, 1 ≤ m.line ∧ m.line ≤ lines.length) :
    (∃ found, diagnosticsOfJson (.ok lines) none vs = .ok found) ↔
      ∀ m ∈ ms.head?, m.category ≠ .info := by
  cases hvs with
  | nil => exact iff_of_true ⟨[], rfl⟩ fun m hm => nomatch hm
  | @cons m v ms vs hv hvs =>
    rw [List.forall_mem_cons] at hin
    have hread := diagnosticOfJson_of_describes none hv hin.1.1 hin.1.2
    rw [diagnosticsOfJson, Message.severityAfter] at *
    by_cases hinfo : m.category = .info
    · rw [if_pos hinfo] at hread
      refine iff_of_false ?_ (fun h => h m rfl hinfo)
      rintro ⟨found, hfound⟩
      rw [hread] at hfound
      cases hfound
    · rw [if_neg hinfo] at hread
      obtain ⟨d, hd, -⟩ := hread
      obtain ⟨found, hfound⟩ := exists_diagnosticsOfJson hvs hin.2 d.severity
      refine iff_of_true ⟨d :: found, ?_⟩ ?_
      · rw [hd, ok_bind, hfound]
        rfl
      · rintro m' hm'
        obtain rfl := Option.some_inj.1 hm'
        exact hinfo

/-- **When messages in JSON are told with the severities of their categories.** -/
theorem exists_diagnosticsOfJson_iff (hvs : List.Forall₂ Message.Describes ms vs)
    (hin : ∀ m ∈ ms, 1 ≤ m.line ∧ m.line ≤ lines.length) (last : Option Severity) :
    (∃ found, diagnosticsOfJson (.ok lines) last vs = .ok found ∧
        List.Forall₂ Message.Shows ms found) ↔
      (∀ m ∈ ms.head?, m.category = .info → last = some .information) ∧
        ms.IsChain fun m m' => m'.category = .info → m.category.severity = .information := by
  induction hvs generalizing last with
  | nil => exact iff_of_true ⟨[], rfl, .nil⟩ ⟨fun m hm => (nomatch hm), .nil⟩
  | @cons m v ms vs hv hvs ih =>
    rw [List.forall_mem_cons] at hin
    -- the rest is told after a message with the severity of its category
    have hrest := ih hin.2 (some m.category.severity)
    have hhead : (∀ m' ∈ (m :: ms).head?, m'.category = .info → last = some .information) ↔
        (m.category = .info → last = some .information) :=
      ⟨fun h => h m rfl, fun h m' hm' => by
        obtain rfl := Option.some_inj.1 hm'
        exact h⟩
    rw [hhead, List.isChain_cons, ← exists_shows_iff hv hin.1.1 hin.1.2]
    simp only [Option.some_inj] at hrest
    rw [← hrest, diagnosticsOfJson]
    constructor
    · rintro ⟨found, hfound, hshows⟩
      obtain ⟨d, hd, hfound⟩ := exists_of_bind_eq_ok hfound
      obtain ⟨more, hmore, hfound⟩ := exists_of_bind_eq_ok hfound
      obtain rfl := Except.ok.inj hfound
      obtain ⟨hfirst, hshows⟩ := List.forall₂_cons.1 hshows
      exact ⟨⟨d, hd, hfirst⟩, more, by rwa [← hfirst.severity], hshows⟩
    · rintro ⟨⟨d, hd, hfirst⟩, more, hmore, hshows⟩
      refine ⟨d :: more, ?_, .cons hfirst hshows⟩
      rw [hd, ok_bind, hfirst.severity, hmore]
      rfl

end

/-! ## The two ways together -/

section

variable {ms : List Message} {out : String}

theorem lt_of_describes {room : Nat} {vs : List Value}
    (hvs : List.Forall₂ Message.Describes ms vs) (hfits : ∀ v ∈ vs, Json.fits room v = true) :
    ∀ m ∈ ms, m.line < 0x10000000000000000 ∧ m.column < 0x10000000000000000 := by
  induction hvs with
  | nil => exact fun m hm => absurd hm List.not_mem_nil
  | @cons m v ms vs hv _ ih =>
    rw [List.forall_mem_cons] at hfits
    have hline := Json.isWordSized_iff.1 (Json.isWordSized_of_item hfits.1 hv.line)
    have hcolumn := Json.isWordSized_iff.1 (Json.isWordSized_of_item hfits.1 hv.column)
    exact List.forall_mem_cons.2 ⟨by omega, ih hfits.2⟩

theorem Reports.exists_values (h : Reports out ms) :
    ∃ vs, List.Forall₂ Message.Describes ms vs ∧
      (∀ m ∈ ms, m.line < 0x10000000000000000 ∧ m.column < 0x10000000000000000) ∧
      ∀ lines, decode lines out = diagnosticsOfJson lines none vs := by
  rcases h with ⟨hblank, rfl⟩ | ⟨vs, hparse, hvs⟩
  · refine ⟨[], .nil, fun m hm => absurd hm List.not_mem_nil, fun lines => ?_⟩
    rw [decode, hblank]
    rfl
  · refine ⟨vs, hvs, ?_, fun lines => ?_⟩
    · have hfits := Json.isWritable_of_parse? hparse
      rw [Json.isWritable, Json.fits, Json.itemsFit_iff] at hfits
      exact lt_of_describes hvs fun v hv => (hfits v hv).2
    · have hnonblank : (trim out.toList).isEmpty = false :=
        List.isEmpty_eq_false_iff.2 (Json.trim_ne_nil_of_parse? hparse)
      simp only [decode, hnonblank, Bool.false_eq_true, if_false, hparse]
      rfl

theorem exists_lintFile_iff {desk : Desk} {d : Document} (hdocument : desk.document = some d)
    (hruns : desk.host.engines.linterFault = none) (flags : String)
    {P : List Diagnostic → Prop} :
    (∃ found desk', lintFile true flags desk = .ok found desk' ∧ P found) ↔
      ∃ found, decode (d.lines desk.host.machine.files) desk.host.engines.linter.out = .ok found ∧
        P found := by
  have hrun : Ensures (lintFile true flags) desk
      (fun found _ =>
        decode (d.lines desk.host.machine.files) desk.host.engines.linter.out = .ok found)
      fun f _ =>
        decode (d.lines desk.host.machine.files) desk.host.engines.linter.out = .error f := by
    simp only [lintFile, Job.document, Job.machine, Job.ask, Job.files, Job.engines, Host.ask,
      Bool.not_true, Bool.false_eq_true, if_false, ensures_bind, ensures_get, ensures_pure,
      ensures_liftJob, ensures_modify, ensures_liftExcept, hdocument, hruns]
    exact ⟨fun found hfound => hfound, fun f hf => hf⟩
  constructor
  · rintro ⟨found, desk', hfound, hP⟩
    exact ⟨found, hrun.ok hfound, hP⟩
  · rintro ⟨found, hfound, hP⟩
    cases hdone : lintFile true flags desk with
    | ok found' desk' =>
      obtain rfl := Except.ok.inj (hfound.symm.trans (hrun.ok hdone))
      exact ⟨found, desk', rfl, hP⟩
    | error f desk' => cases hfound.symm.trans (hrun.error hdone)

theorem forall₂_alike_iff {found printed : List Diagnostic}
    (h : List.Forall₂ Message.Shows ms printed) :
    List.Forall₂ Alike found printed ↔ List.Forall₂ Message.Shows ms found := by
  induction h generalizing found with
  | nil =>
    rw [List.forall₂_nil_right_iff, List.forall₂_nil_left_iff]
  | @cons m e ms printed he _ ih =>
    rw [List.forall₂_cons_right_iff, List.forall₂_cons_left_iff]
    have hfirst : ∀ d, Alike d e ↔ m.Shows d := fun d =>
      ⟨fun h => ⟨h.line.trans he.line, h.column.trans he.column, h.code.trans he.code,
        h.severity.trans he.severity⟩,
      fun h => ⟨h.line.trans he.line.symm, h.column.trans he.column.symm,
        h.code.trans he.code.symm, h.severity.trans he.severity.symm⟩⟩
    simp only [hfirst, ih]

/-- **The two ways to read pylint's messages agree just if messages of the category `info` come
after messages that are as serious.** Printed messages are always told, each with the severity of
its own category. In JSON all messages are told just if none of that category comes first; and the
two give diagnostics with the same lines, columns, codes and severities just if each of that
category moreover comes right after one that is as serious. -/
theorem front_ends_agree_iff {desk : Desk} {d : Document} {lines : List (List Char)}
    (hdocument : desk.document = some d) (hlines : d.lines desk.host.machine.files = .ok lines)
    (hruns : desk.host.engines.linterFault = none)
    (hout : Reports desk.host.engines.linter.out ms)
    (hin : ∀ m ∈ ms, 1 ≤ m.line ∧ m.line ≤ lines.length) (flags : String) :
    ∃ printed,
      diagnostics (d.lines desk.host.machine.files) (Printer.output (ms.map Message.notice)) =
        .ok printed ∧
      List.Forall₂ Message.Shows ms printed ∧
      ((∃ found desk', lintFile true flags desk = .ok found desk') ↔
        ∀ m ∈ ms.head?, m.category ≠ .info) ∧
      ((∃ found desk', lintFile true flags desk = .ok found desk' ∧
        List.Forall₂ Alike found printed) ↔ InfosFollow ms) := by
  obtain ⟨vs, hvs, hsmall, hdecode⟩ := hout.exists_values
  obtain ⟨printed, hprinted, hshows⟩ := Message.exists_printed hlines hin hsmall
  refine ⟨printed, hprinted, hshows, ?_, ?_⟩
  · have hlint := exists_lintFile_iff hdocument hruns flags (P := fun _ => True)
    simp only [and_true] at hlint
    rw [hlint, hdecode, hlines, isOk_diagnosticsOfJson_iff hvs hin]
  · rw [exists_lintFile_iff hdocument hruns flags, hdecode, hlines, InfosFollow]
    simp only [forall₂_alike_iff hshows]
    rw [exists_diagnosticsOfJson_iff hvs hin none]
    refine and_congr_left' (forall₂_congr fun m hm => ?_)
    exact imp_congr_right fun _ => iff_of_false (fun h => nomatch h) id

/-- A message about the first line, as pylint writes it in JSON. -/
def inFirstLine (category : Category) : Message where
  path := "a.py".toList
  line := 1
  column := 4
  category
  number := "0001".toList
  text := "y".toList
  path_unbroken := by decide
  number_word := by decide
  text_unbroken := by decide
  text_colonless := by decide

/-- The same message in JSON. -/
def jsonInFirstLine (category : Category) : String :=
  r#"{"line":1,"column":4,"type":""# ++ category.name ++ r#"","symbol":"s","message":"y","# ++
    r#""message-id":""# ++ String.singleton category.letter ++ r#"0001"}"#

/-- The value that is read from it. -/
def valueInFirstLine (category : Category) : Value :=
  .object [("line", .int 1), ("column", .int 4), ("type", .str category.name),
    ("symbol", .str "s"), ("message", .str "y"),
    ("message-id", .str (String.ofList (inFirstLine category).id))]

/-- A document of one line. -/
def assignment : Document where
  uri := "file:///w/a.py"
  path := "/w/a.py"
  dotName := "a"
  filename := "a.py"
  source := .text "x = y\n"

/-- That document, and an answer with two messages about it. -/
def answered (first second : Category) : Desk where
  host := { engines := { linter :=
    { out := "[" ++ jsonInFirstLine first ++ "," ++ jsonInFirstLine second ++ "]" } } }
  document := some assignment

/-- The two ways agree on a message of the category `info` after one about a convention, but not
after an error. -/
theorem info_as_serious_as_message_before :
    let printed (ms : List Message) := diagnostics (.ok ["x = y\n".toList])
      (Printer.output (ms.map Message.notice))
    let found (first : Category) := lintFile true "" (answered first .info)
    (∀ first ∈ [Category.convention, .error],
      Reports (answered first .info).host.engines.linter.out
        [inFirstLine first, inFirstLine .info]) ∧
    (∃ es ds desk', printed [inFirstLine .convention, inFirstLine .info] = .ok es ∧
      found .convention = .ok ds desk' ∧ List.Forall₂ Alike ds es) ∧
    ∃ es, printed [inFirstLine .error, inFirstLine .info] = .ok es ∧
      (∃ ds desk', found .error = .ok ds desk') ∧
      ¬ ∃ ds desk', found .error = .ok ds desk' ∧ List.Forall₂ Alike ds es := by
  intro printed found
  have hdescribes : ∀ category, (inFirstLine category).Describes (valueInFirstLine category) :=
    fun category => ⟨rfl, rfl, rfl, rfl, ⟨"s", rfl⟩, rfl⟩
  have hparse : ∀ first ∈ [Category.convention, .error],
      Json.parse? .message (answered first .info).host.engines.linter.out.toList =
        some (.list [valueInFirstLine first, valueInFirstLine .info]) := by decide +kernel
  have hreports : ∀ first ∈ [Category.convention, .error],
      Reports (answered first .info).host.engines.linter.out
        [inFirstLine first, inFirstLine .info] := fun first hfirst =>
    .inr ⟨_, hparse first hfirst, .cons (hdescribes _) (.cons (hdescribes _) .nil)⟩
  have hin : ∀ first, ∀ m ∈ [inFirstLine first, inFirstLine .info],
      1 ≤ m.line ∧ m.line ≤ ["x = y\n".toList].length := fun first =>
    List.forall_mem_cons.2 ⟨⟨le_rfl, le_rfl⟩, List.forall_mem_singleton.2 ⟨le_rfl, le_rfl⟩⟩
  have hdocument : ∀ first, (answered first .info).document = some assignment := fun _ => rfl
  obtain ⟨es, hes, -, -, hagree⟩ := front_ends_agree_iff (hdocument .convention)
    (eq_ok_of_toOption (by decide +kernel)) rfl (hreports .convention (by decide)) (hin _) ""
  obtain ⟨es', hes', -, htold, hagree'⟩ := front_ends_agree_iff (hdocument .error)
    (eq_ok_of_toOption (by decide +kernel)) rfl (hreports .error (by decide)) (hin _) ""
  refine ⟨hreports, ?_, es', hes', ?_, ?_⟩
  · obtain ⟨ds, desk', hds, halike⟩ := hagree.2 (by decide)
    exact ⟨es, ds, desk', hes, hds, halike⟩
  · exact htold.2 (by decide)
  · exact fun h => absurd (hagree'.1 h) (by decide)

end

end LangServer.Lint.Pylint
