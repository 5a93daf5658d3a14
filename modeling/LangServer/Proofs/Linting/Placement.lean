import LangServer.Proofs.Action
import Mathlib.Data.List.Forall2

/-!
# Where diagnostics stand

Engines count lines from one and name the line that a finding is on. Each conversion finds the
columns of the diagnostic by the lines of the document, in its own way. A diagnostic should stand
on the line that was reported and end where that line ends (`Report.Marks`).

* `Report.convert` brings the conversions together, one report at a time, and `Report.reach` says
  where each of them lets a diagnostic end.
* A report that can be read at all (`Report.readable`) is converted with that end, if there is one
  (`Report.exists_convert`, `Report.of_convert`).
* Two conversions look at another line: warnings about complexity at the line after the function's
  own, and findings about documentation at the first line. So a report is marked as it should be
  just if it can be read and that other line is as wide (`Report.convert_marks_iff`).
* The linters go through their findings report by report (`Findings.diagnostics_eq_convertAll`), so
  that the same holds of all that an engine hands over (`Findings.diagnostics_mark_lines_iff`).
-/

namespace LangServer.Lint

open Text

/-! ## Reports -/

/-- A report of an engine, with what its conversion depends on besides. -/
inductive Report where
  | flake8 (f : Finding)
  | pylint (f : Finding)
  /-- `last` is the severity of the finding before. -/
  | pylintJson (last : Option Severity) (v : Value)
  | pycodestyle (ignores : String → Reply Bool) (expected : List String) (line offset : Int)
      (text : String)
  | pyflakes (kind : String) (line column : Int) (template : String) (args : List Value)
  | mccabe (threshold : Value) (complexity line column : Int)
  | pydocstyle (line : Int) (code message : String)

/-- The severity of a finding in JSON after one with the severity `last`. -/
def severityAfter (last : Option Severity) (v : Value) : Option Severity :=
  ((v.item "type").toOption.bind Pylint.severityOfCategory?).orElse fun _ => last

namespace Report

/-- The line that the engine reported, counted from one. -/
def line? : Report → Option Int
  | flake8 f | pylint f => (numeral f.line).toOption
  | pylintJson _ v => (do (← v.item "line").number : Except Fault Int).toOption
  | pycodestyle _ _ line _ _ | pyflakes _ line _ _ _ | mccabe _ _ line _ | pydocstyle line _ _ =>
    some line

/-- The diagnostic for a report, if it is shown. -/
def convert (lines : List (List Char)) : Report → Except Fault (Option Diagnostic)
  | flake8 f => do return some (← Flake8.diagnostic lines f)
  | pylint f => do return some (← Pylint.diagnostic (.ok lines) f)
  | pylintJson last v => do return some (← Pylint.diagnosticOfJson (.ok lines) last v)
  | pycodestyle ignores expected line offset text =>
    Pycodestyle.diagnostic ignores expected lines line offset text
  | pyflakes kind line column template args => do
    return some (← Pyflakes.diagnostic lines (.finding kind line column template args))
  | mccabe threshold complexity line column => do
    if ← Mccabe.reaches complexity threshold then
      return some (← Mccabe.diagnostic (.ok lines) threshold complexity line column)
    else return none
  | pydocstyle line code message => do
    return some (← Pydocstyle.diagnostic (.ok lines) line code message)

/-- Is there a diagnostic for the report? -/
def shown : Report → Bool
  | pycodestyle ignores expected _ _ text =>
    match ignores (String.ofList (text.toList.take 4)) with
    | .ok ignored => !ignored && !expected.contains (String.ofList (text.toList.take 4))
    | .error _ => false
  | mccabe threshold complexity _ _ =>
    match Mccabe.reaches complexity threshold with
    | .ok high => high
    | .error _ => false
  | _ => true

/-- Can all parts of the report be read but the line? -/
def readable : Report → Bool
  | flake8 f => (numeral f.column).isOk
  | pylint f => (numeral f.column).isOk && (Pylint.severityOfCode f.code).isOk
  | pylintJson last v =>
    ["column", "type", "symbol", "message", "message-id"].all (fun key => (v.item key).isOk) &&
      (severityAfter last v).isSome
  | r@(pycodestyle ignores _ _ _ text) =>
    (ignores (String.ofList (text.toList.take 4))).isOk && (!r.shown || !text.toList.isEmpty)
  | pyflakes _ _ _ template args => (fill template.toList args).isOk
  | mccabe threshold complexity _ _ => (Mccabe.reaches complexity threshold).isOk
  | pydocstyle _ _ _ => true

/-- How far before the end of its line a diagnostic ends. -/
def margin : Report → Nat
  | pylint _ => 1
  | flake8 _ | pylintJson _ _ | pycodestyle _ _ _ _ _ | pyflakes _ _ _ _ _ | mccabe _ _ _ _
  | pydocstyle _ _ _ => 0

end Report

/-- The width of the line with a number, counted from one. -/
def width? (lines : List (List Char)) (n : Int) : Option Nat :=
  lines[(n - 1).toNat]?.map List.length

namespace Report

/-- **The diagnostic stands on the reported line**: it begins and ends on it, and it ends where the
line does, but for a margin. -/
def Marks (lines : List (List Char)) (r : Report) (d : Diagnostic) : Prop :=
  ∃ n width, r.line? = some n ∧ width? lines n = some width ∧
    d.toValue.path? ["range", "start", "line"] = some (.int (n - 1)) ∧
    d.toValue.path? ["range", "end"] = some (.position (n - 1) (.int (width - r.margin)))

/-- The end of the diagnostic is found by another line, which is missing or has another width. -/
def Slips (lines : List (List Char)) : Report → Prop
  | r@(mccabe _ _ line _) => r.shown = true ∧ width? lines (line + 1) ≠ width? lines line
  | pydocstyle line _ _ => width? lines 1 ≠ width? lines line
  | _ => False

instance (lines : List (List Char)) : (r : Report) → Decidable (r.Slips lines)
  | mccabe _ _ _ _ => inferInstanceAs (Decidable (_ ∧ _ ≠ _))
  | pydocstyle _ _ _ => inferInstanceAs (Decidable (_ ≠ _))
  | flake8 _ | pylint _ | pylintJson _ _ | pycodestyle _ _ _ _ _ | pyflakes _ _ _ _ _ =>
    .isFalse id

/-- Where the conversion of a report on line `n` lets a diagnostic end. -/
def reach (lines : List (List Char)) (n : Int) : Report → Except Fault Int
  | pylint _ => do return (← widthOf lines (n - 1)) - 1
  | pycodestyle _ _ _ _ _ => Pycodestyle.endColumn lines n
  | mccabe _ _ _ _ => widthOf lines n
  | pydocstyle _ _ _ => .ok (lines.headD []).length
  | pylintJson _ _ => Pylint.widthOrZero lines (n - 1)
  | flake8 _ | pyflakes _ _ _ _ _ => widthOf lines (n - 1)

/-! ## Single reports -/

section

variable {lines : List (List Char)} {r : Report} {n stop : Int} {x : Option Diagnostic}

theorem exists_convert (hn : r.line? = some n) (hread : r.readable = true) (hshown : r.shown = true)
    (hreach : r.reach lines n = .ok stop) :
    ∃ d, r.convert lines = .ok (some d) ∧ d.line = n - 1 ∧ d.endColumn = stop := by
  cases r with
  | flake8 f =>
    obtain ⟨column, hcolumn⟩ := exists_of_isOk hread
    rw [reach] at hreach
    simp only [convert, Flake8.diagnostic, eq_ok_of_toOption hn, hcolumn, hreach, ok_bind]
    exact ⟨_, rfl, rfl, rfl⟩
  | pylint f =>
    obtain ⟨hcolumn, hseverity⟩ := Bool.and_eq_true_iff.1 hread
    obtain ⟨column, hcolumn⟩ := exists_of_isOk hcolumn
    obtain ⟨severity, hseverity⟩ := exists_of_isOk hseverity
    obtain ⟨width, hwidth, hstop⟩ := exists_of_bind_eq_ok hreach
    obtain rfl := Except.ok.inj hstop
    simp only [convert, Pylint.diagnostic, eq_ok_of_toOption hn, hcolumn, hseverity, hwidth,
      ok_bind]
    exact ⟨_, rfl, rfl, rfl⟩
  | pylintJson last v =>
    obtain ⟨hitems, hseverity⟩ := Bool.and_eq_true_iff.1 hread
    obtain ⟨line, hline, hnumber⟩ := exists_of_bind_eq_ok (eq_ok_of_toOption hn)
    have hitem : ∀ key, key ∈ ["column", "type", "symbol", "message", "message-id"] →
        ∃ w, v.item key = .ok w := fun key hkey =>
      exists_of_isOk (List.all_eq_true.1 hitems key hkey)
    obtain ⟨column, hcolumn⟩ := hitem "column" (by simp)
    obtain ⟨category, hcategory⟩ := hitem "type" (by simp)
    obtain ⟨symbol, hsymbol⟩ := hitem "symbol" (by simp)
    obtain ⟨text, htext⟩ := hitem "message" (by simp)
    obtain ⟨code, hcode⟩ := hitem "message-id" (by simp)
    obtain ⟨severity, hseverity⟩ := Option.isSome_iff_exists.1 hseverity
    rw [severityAfter, hcategory] at hseverity
    rw [reach] at hreach
    simp only [convert, Pylint.diagnosticOfJson, hline, hnumber, hcolumn, hcategory, hsymbol, htext,
      hcode, hreach, ok_bind]
    rw [show (Pylint.severityOfCategory? category).orElse (fun _ => last) = some severity
      from hseverity]
    exact ⟨_, rfl, rfl, rfl⟩
  | pycodestyle ignores expected line offset text =>
    obtain ⟨hignores, htext⟩ := Bool.and_eq_true_iff.1 hread
    obtain ⟨ignored, hignored⟩ := exists_of_isOk hignores
    obtain rfl := Option.some_inj.1 hn
    rw [reach] at hreach
    rw [hshown] at htext
    rw [shown, hignored] at hshown
    obtain ⟨hnot, hexpected⟩ := Bool.and_eq_true_iff.1 hshown
    obtain rfl : ignored = false := by simpa using hnot
    have hunexpected : expected.contains (String.ofList (text.toList.take 4)) = false := by
      simpa using hexpected
    obtain ⟨severity, hseverity⟩ :
        ∃ severity, Pycodestyle.severity (text.toList.take 4) = .ok severity := by
      cases hchars : text.toList with
      | nil =>
        rw [hchars] at htext
        cases htext
      | cons c cs => exact ⟨_, rfl⟩
    simp only [convert, Pycodestyle.diagnostic, hignored, hunexpected, hreach, hseverity, ok_bind,
      Bool.false_eq_true, if_false]
    exact ⟨_, rfl, rfl, rfl⟩
  | pyflakes kind line column template args =>
    obtain ⟨message, hmessage⟩ := exists_of_isOk hread
    obtain rfl := Option.some_inj.1 hn
    rw [reach] at hreach
    simp only [convert, Pyflakes.diagnostic, hreach, hmessage, ok_bind]
    exact ⟨_, rfl, rfl, rfl⟩
  | mccabe threshold complexity line column =>
    obtain ⟨high, hhigh⟩ := exists_of_isOk hread
    obtain rfl := Option.some_inj.1 hn
    rw [reach] at hreach
    rw [shown, hhigh] at hshown
    simp only [convert, hhigh, Mccabe.diagnostic, hreach, ok_bind, if_pos hshown]
    exact ⟨_, rfl, rfl, rfl⟩
  | pydocstyle line code message =>
    obtain rfl := Option.some_inj.1 hn
    obtain rfl := Except.ok.inj hreach
    exact ⟨_, rfl, rfl, rfl⟩

theorem of_diagnosticOfJson {last : Option Severity} {v : Value} {d : Diagnostic}
    (hd : Pylint.diagnosticOfJson (.ok lines) last v = .ok d) :
    ∃ n, (do (← v.item "line").number) = .ok n ∧ (pylintJson last v).readable = true ∧
      (∃ width, Pylint.widthOrZero lines (n - 1) = .ok width) ∧
      severityAfter last v = some d.severity := by
  obtain ⟨line, hline, hd⟩ := exists_of_bind_eq_ok hd
  obtain ⟨n, hnumber, hd⟩ := exists_of_bind_eq_ok hd
  obtain ⟨column, hcolumn, hd⟩ := exists_of_bind_eq_ok hd
  rw [ok_bind] at hd
  obtain ⟨width, hwidth, hd⟩ := exists_of_bind_eq_ok hd
  obtain ⟨category, hcategory, hd⟩ := exists_of_bind_eq_ok hd
  obtain ⟨symbol, hsymbol, hd⟩ := exists_of_bind_eq_ok hd
  obtain ⟨text, htext, hd⟩ := exists_of_bind_eq_ok hd
  split at hd
  · cases hd
  · next severity hseverity =>
    obtain ⟨code, hcode, hd⟩ := exists_of_bind_eq_ok hd
    obtain rfl := Except.ok.inj hd
    have hafter : severityAfter last v = some severity := by
      rw [severityAfter, hcategory]
      exact hseverity
    refine ⟨n, by rw [hline]; exact hnumber, ?_, ⟨width, hwidth⟩, hafter⟩
    simp only [readable, hafter, List.all_cons, List.all_nil, hcolumn, hcategory, hsymbol, htext,
      hcode]
    rfl

theorem of_convert (hn : r.line? = some n) (h : r.convert lines = .ok x) :
    r.readable = true ∧ (r.shown = true → ∃ stop, r.reach lines n = .ok stop) ∧
      (r.shown = false → x = none) := by
  cases r with
  | flake8 f =>
    obtain ⟨d, hd, -⟩ := exists_of_bind_eq_ok h
    obtain ⟨line, hline, hd⟩ := exists_of_bind_eq_ok hd
    obtain ⟨column, hcolumn, hd⟩ := exists_of_bind_eq_ok hd
    obtain ⟨width, hwidth, -⟩ := exists_of_bind_eq_ok hd
    obtain rfl := Except.ok.inj ((eq_ok_of_toOption hn).symm.trans hline)
    exact ⟨isOk_of_eq hcolumn, fun _ => ⟨width, hwidth⟩, fun h => nomatch h⟩
  | pylint f =>
    obtain ⟨d, hd, -⟩ := exists_of_bind_eq_ok h
    obtain ⟨line, hline, hd⟩ := exists_of_bind_eq_ok hd
    obtain ⟨column, hcolumn, hd⟩ := exists_of_bind_eq_ok hd
    obtain ⟨severity, hseverity, hd⟩ := exists_of_bind_eq_ok hd
    rw [ok_bind] at hd
    obtain ⟨width, hwidth, -⟩ := exists_of_bind_eq_ok hd
    obtain rfl := Except.ok.inj ((eq_ok_of_toOption hn).symm.trans hline)
    refine ⟨?_, fun _ => ⟨width - 1, ?_⟩, fun h => nomatch h⟩
    · rw [readable, isOk_of_eq hcolumn, isOk_of_eq hseverity]
      rfl
    · rw [reach, hwidth]
      rfl
  | pylintJson last v =>
    obtain ⟨d, hd, -⟩ := exists_of_bind_eq_ok h
    obtain ⟨n', hn', hread, hreach, -⟩ := of_diagnosticOfJson hd
    obtain rfl := Except.ok.inj ((eq_ok_of_toOption hn).symm.trans hn')
    exact ⟨hread, fun _ => hreach, fun h => nomatch h⟩
  | pycodestyle ignores expected line offset text =>
    obtain rfl := Option.some_inj.1 hn
    obtain ⟨ignored, hignored, hd⟩ := exists_of_bind_eq_ok h
    simp only [readable, shown, hignored]
    cases ignored with
    | true => exact ⟨rfl, fun h => (nomatch h), fun _ => (Except.ok.inj hd).symm⟩
    | false =>
      rw [if_neg Bool.false_ne_true] at hd
      split at hd
      · next hexpected =>
        rw [hexpected]
        exact ⟨rfl, fun h => (nomatch h), fun _ => (Except.ok.inj hd).symm⟩
      · next hexpected =>
        rw [Bool.not_eq_true] at hexpected
        obtain ⟨stop, hstop, hd⟩ := exists_of_bind_eq_ok hd
        obtain ⟨severity, hseverity, -⟩ := exists_of_bind_eq_ok hd
        rw [hexpected]
        refine ⟨?_, fun _ => ⟨stop, hstop⟩, fun h => nomatch h⟩
        cases hchars : text.toList with
        | nil =>
          rw [hchars] at hseverity
          cases hseverity
        | cons c cs => rfl
  | pyflakes kind line column template args =>
    obtain rfl := Option.some_inj.1 hn
    obtain ⟨d, hd, -⟩ := exists_of_bind_eq_ok h
    obtain ⟨width, hwidth, hd⟩ := exists_of_bind_eq_ok hd
    obtain ⟨message, hmessage, -⟩ := exists_of_bind_eq_ok hd
    exact ⟨isOk_of_eq hmessage, fun _ => ⟨width, hwidth⟩, fun h => nomatch h⟩
  | mccabe threshold complexity line column =>
    obtain rfl := Option.some_inj.1 hn
    obtain ⟨high, hhigh, hd⟩ := exists_of_bind_eq_ok h
    refine ⟨isOk_of_eq hhigh, ?_⟩
    rw [shown, hhigh]
    cases high with
    | true =>
      rw [if_pos rfl] at hd
      obtain ⟨d, hd, -⟩ := exists_of_bind_eq_ok hd
      rw [Mccabe.diagnostic, ok_bind] at hd
      obtain ⟨width, hwidth, -⟩ := exists_of_bind_eq_ok hd
      exact ⟨fun _ => ⟨width, hwidth⟩, fun h => nomatch h⟩
    | false => exact ⟨fun h => (nomatch h), fun _ => (Except.ok.inj hd).symm⟩
  | pydocstyle line code message => exact ⟨rfl, fun _ => ⟨_, rfl⟩, fun h => nomatch h⟩

/-- Reports that are not shown: those about style may be, and those about complexity. -/
theorem convert_of_not_shown (hread : r.readable = true) (hshown : r.shown = false) :
    r.convert lines = .ok none ∧ ¬ r.Slips lines := by
  cases r with
  | flake8 | pylint | pylintJson | pyflakes | pydocstyle => cases hshown
  | pycodestyle ignores expected line offset text =>
    obtain ⟨ignored, hignored⟩ := exists_of_isOk (Bool.and_eq_true_iff.1 hread).1
    rw [shown, hignored] at hshown
    rw [convert, Pycodestyle.diagnostic, hignored, ok_bind]
    refine ⟨?_, id⟩
    cases ignored with
    | true => rfl
    | false =>
      have hexpected : expected.contains (String.ofList (text.toList.take 4)) = true := by
        simpa using hshown
      rw [if_neg Bool.false_ne_true, if_pos hexpected]
      rfl
  | mccabe threshold complexity line column =>
    obtain ⟨high, hhigh⟩ := exists_of_isOk hread
    refine ⟨?_, fun hslips => Bool.false_ne_true (hshown.symm.trans hslips.1)⟩
    rw [shown, hhigh] at hshown
    rw [convert, hhigh, ok_bind, if_neg (Bool.eq_false_iff.1 hshown)]
    rfl

/-! ### The ends of diagnostics -/

theorem widthOf_eq_ok_iff (h : 1 ≤ n) :
    widthOf lines (n - 1) = .ok stop ↔
      ∃ width : Nat, width? lines n = some width ∧ width = stop := by
  have hat : at? lines (n - 1) = lines[(n - 1).toNat]? := by rw [at?, if_neg (by omega)]
  rw [widthOf, lineAt, hat, width?]
  cases lines[(n - 1).toNat]? with
  | none => simp [bind, Except.bind]
  | some line => simp [ok_bind, pure, Except.pure]

theorem exists_width? (h : 1 ≤ n) (hle : n ≤ lines.length) :
    ∃ width, width? lines n = some width := by
  have hlt : (n - 1).toNat < lines.length := by omega
  exact ⟨_, by rw [width?, List.getElem?_eq_getElem hlt]; rfl⟩

theorem reach_eq_iff (hn : r.line? = some n) (h : 1 ≤ n) (hle : n ≤ lines.length) {width : Nat}
    (hwidth : width? lines n = some width) (hshown : r.shown = true) :
    r.reach lines n = .ok ((width : Int) - r.margin) ↔ ¬ r.Slips lines := by
  have hok : widthOf lines (n - 1) = .ok (width : Int) := (widthOf_eq_ok_iff h).2 ⟨_, hwidth, rfl⟩
  have hsub : (width : Int) - (0 : Nat) = width := by omega
  cases r with
  | flake8 f | pyflakes kind line column template args =>
    rw [reach, margin, hsub, hok]
    exact iff_of_true rfl id
  | pylint f =>
    rw [reach, hok]
    exact iff_of_true rfl id
  | pylintJson last v =>
    have hlines : lines.isEmpty = false := by
      cases lines with
      | nil => simp at hle; omega
      | cons line lines => rfl
    rw [reach, margin, hsub, Pylint.widthOrZero, hlines, if_neg Bool.false_ne_true, hok]
    exact iff_of_true rfl id
  | pycodestyle ignores expected line offset text =>
    rw [reach, margin, hsub, Pycodestyle.endColumn, if_neg (by omega), hok]
    exact iff_of_true rfl id
  | mccabe threshold complexity line column =>
    obtain rfl := Option.some_inj.1 hn
    have hnext : widthOf lines (line + 1 - 1) = .ok (width : Int) ↔ _ :=
      widthOf_eq_ok_iff (by omega)
    rw [Int.add_sub_cancel] at hnext
    rw [reach, margin, hsub, hnext, Slips, hwidth, not_and, Classical.not_not]
    constructor
    · rintro ⟨width', hwidth', heq⟩ _
      rw [hwidth', Int.ofNat_inj.1 heq]
    · exact fun hslips => ⟨width, hslips hshown, rfl⟩
  | pydocstyle line code message =>
    obtain rfl := Option.some_inj.1 hn
    have hfirst : width? lines 1 = some (lines.headD []).length := by
      cases lines with
      | nil => simp at hle; omega
      | cons first rest => rfl
    rw [reach, margin, hsub, Slips, hwidth, hfirst, Classical.not_not, Except.ok.injEq,
      Option.some_inj, Int.ofNat_inj]

theorem marks_iff (hn : r.line? = some n) {width : Nat} (hwidth : width? lines n = some width)
    {d : Diagnostic} (hline : d.line = n - 1) :
    r.Marks lines d ↔ d.endColumn = (width : Int) - r.margin := by
  constructor
  · rintro ⟨n', width', hn', hwidth', -, hend⟩
    obtain rfl := Option.some_inj.1 (hn.symm.trans hn')
    obtain rfl := Option.some_inj.1 (hwidth.symm.trans hwidth')
    have hend' : some (Value.position d.line (.int d.endColumn)) =
        some (.position (n - 1) (.int (width - r.margin))) := hend
    simpa [Value.position, hline] using hend'
  · intro hend
    refine ⟨n, width, hn, hwidth, ?_, ?_⟩
    · exact congrArg (fun line => some (Value.int line)) hline
    · rw [← hline, ← hend]
      rfl

/-- **A single report** is converted, and its diagnostic stands where it should, just if the report
can be read and does not slip. -/
theorem convert_marks_iff (hn : r.line? = some n) (h : 1 ≤ n) (hle : n ≤ lines.length) :
    (∃ x, r.convert lines = .ok x ∧ List.Forall₂ (Marks lines) ([r].filter shown) x.toList) ↔
      r.readable = true ∧ ¬ r.Slips lines := by
  obtain ⟨width, hwidth⟩ := exists_width? h hle
  cases hshown : r.shown with
  | false =>
    rw [List.filter_cons_of_neg (by rw [hshown]; exact Bool.false_ne_true), List.filter_nil]
    constructor
    · rintro ⟨x, hx, -⟩
      have hread := (of_convert hn hx).1
      exact ⟨hread, (convert_of_not_shown hread hshown).2⟩
    · rintro ⟨hread, -⟩
      exact ⟨none, (convert_of_not_shown hread hshown).1, .nil⟩
  | true =>
    rw [List.filter_cons_of_pos hshown, List.filter_nil, ← reach_eq_iff hn h hle hwidth hshown]
    constructor
    · rintro ⟨x, hx, hmarks⟩
      obtain ⟨hread, hreach, -⟩ := of_convert hn hx
      obtain ⟨stop, hstop⟩ := hreach hshown
      obtain ⟨d, hd, hline, rfl⟩ := exists_convert hn hread hshown hstop
      obtain rfl := Except.ok.inj (hx.symm.trans hd)
      rw [Option.toList_some, List.forall₂_cons] at hmarks
      rw [hstop, (marks_iff hn hwidth hline).1 hmarks.1]
      exact ⟨hread, rfl⟩
    · rintro ⟨hread, hstop⟩
      obtain ⟨d, hd, hline, hend⟩ := exists_convert hn hread hshown hstop
      exact ⟨some d, hd, .cons ((marks_iff hn hwidth hline).2 hend) .nil⟩

end

/-! ## Reports one after the other -/

/-- The diagnostics for reports. -/
def convertAll (lines : List (List Char)) : List Report → Except Fault (List Diagnostic)
  | [] => .ok []
  | r :: rs => do
    let found ← r.convert lines
    return found.toList ++ (← convertAll lines rs)

/-- The reports in a list of findings in JSON, after one with the severity `last`. -/
def ofJson (last : Option Severity) : List Value → List Report
  | [] => []
  | v :: vs => pylintJson last v :: ofJson (severityAfter last v) vs

section

variable {lines : List (List Char)} {r : Report} {rs : List Report}

theorem exists_convertAll_cons_iff {n : Int} (hn : r.line? = some n) :
    (∃ ds, convertAll lines (r :: rs) = .ok ds ∧
      List.Forall₂ (Marks lines) ((r :: rs).filter shown) ds) ↔
    (∃ x, r.convert lines = .ok x ∧ List.Forall₂ (Marks lines) ([r].filter shown) x.toList) ∧
      ∃ ds, convertAll lines rs = .ok ds ∧ List.Forall₂ (Marks lines) (rs.filter shown) ds := by
  have hfilter : (r :: rs).filter shown = [r].filter shown ++ rs.filter shown :=
    List.filter_append [r] rs
  rw [hfilter]
  constructor
  · rintro ⟨ds, hds, hmarks⟩
    obtain ⟨x, hx, hds⟩ := exists_of_bind_eq_ok hds
    obtain ⟨rest, hrest, hds⟩ := exists_of_bind_eq_ok hds
    obtain rfl := Except.ok.inj hds
    obtain ⟨hread, hreach, hnone⟩ := of_convert hn hx
    -- there is a diagnostic just if the report is shown
    cases hshown : r.shown with
    | false =>
      rw [List.filter_cons_of_neg (by rw [hshown]; exact Bool.false_ne_true)] at hmarks ⊢
      rw [hnone hshown] at hmarks hx
      exact ⟨⟨none, hx, .nil⟩, rest, hrest, hmarks⟩
    | true =>
      obtain ⟨stop, hstop⟩ := hreach hshown
      obtain ⟨d, hd, -⟩ := exists_convert hn hread hshown hstop
      obtain rfl := Except.ok.inj (hx.symm.trans hd)
      rw [List.filter_cons_of_pos hshown] at hmarks ⊢
      obtain ⟨hfirst, hmarks⟩ := List.forall₂_cons.1 hmarks
      exact ⟨⟨some d, hd, .cons hfirst .nil⟩, rest, hrest, hmarks⟩
  · rintro ⟨⟨x, hx, hfirst⟩, rest, hrest, hmarks⟩
    refine ⟨x.toList ++ rest, ?_, List.rel_append hfirst hmarks⟩
    rw [convertAll, hx, ok_bind, hrest]
    rfl

/-- **Reports** are converted, and their diagnostics stand where they should, just if each of them
can be read and does not slip. -/
theorem convertAll_marks_iff
    (hlines : ∀ r ∈ rs, ∃ n, r.line? = some n ∧ 1 ≤ n ∧ n ≤ lines.length) :
    (∃ ds, convertAll lines rs = .ok ds ∧ List.Forall₂ (Marks lines) (rs.filter shown) ds) ↔
      ∀ r ∈ rs, r.readable = true ∧ ¬ r.Slips lines := by
  induction rs with
  | nil => exact iff_of_true ⟨[], rfl, .nil⟩ fun r hr => absurd hr List.not_mem_nil
  | cons r rs ih =>
    rw [List.forall_mem_cons] at hlines ⊢
    obtain ⟨⟨n, hn, h, hle⟩, hrest⟩ := hlines
    rw [exists_convertAll_cons_iff hn, convert_marks_iff hn h hle, ih hrest]

end
end Report

/-! ## What engines hand over -/

/-- Findings in the form in which an engine hands them over. -/
inductive Findings where
  | flake8 (out : String)
  | pylint (out : String)
  | pylintJson (out : String)
  | pycodestyle (ignores : String → Reply Bool) (expected : List String) (line offset : Int)
      (text : String)
  | pyflakes (kind : String) (line column : Int) (template : String) (args : List Value)
  | mccabe (threshold : Value) (functions : List (Int × Int × Int))
  | pydocstyle (line : Int) (code message : String)

namespace Findings

/-- The diagnostics for findings, as the linters of the server make them. -/
def diagnostics (lines : Except Fault (List (List Char))) :
    Findings → Except Fault (List Diagnostic)
  | flake8 out => Flake8.diagnostics lines out
  | pylint out => Pylint.diagnostics lines out
  | pylintJson out => Pylint.decode lines out
  | pycodestyle ignores expected line offset text => do
    return (← Pycodestyle.diagnostic ignores expected (← lines) line offset text).toList
  | pyflakes kind line column template args => do
    return [← Pyflakes.diagnostic (← lines) (.finding kind line column template args)]
  | mccabe threshold functions => Mccabe.diagnostics lines threshold functions
  | pydocstyle line code message => do return [← Pydocstyle.diagnostic lines line code message]

/-- The reports in findings. -/
def reports : Findings → Except Fault (List Report)
  | flake8 out => .ok ((Finding.parseAll Flake8.mark out.toList).map .flake8)
  | pylint out => .ok ((Finding.parseAll Pylint.mark out.toList).map .pylint)
  | pylintJson out =>
    if (trim out.toList).isEmpty then .ok []
    else
      match Json.parse? .message out.toList with
      | none => .error .badJson
      | some v => do return Report.ofJson none (← v.elements)
  | pycodestyle ignores expected line offset text =>
    .ok [.pycodestyle ignores expected line offset text]
  | pyflakes kind line column template args => .ok [.pyflakes kind line column template args]
  | mccabe threshold functions =>
    .ok (functions.map fun (complexity, line, column) => .mccabe threshold complexity line column)
  | pydocstyle line code message => .ok [.pydocstyle line code message]

variable {lines : List (List Char)}

theorem mapM_eq_convertAll {α : Type} {diagnostic : α → Except Fault Diagnostic}
    {report : α → Report}
    (h : ∀ a, (report a).convert lines = do return some (← diagnostic a)) (as : List α) :
    as.mapM diagnostic = Report.convertAll lines (as.map report) := by
  induction as with
  | nil => rfl
  | cons a as ih =>
    rw [List.mapM_cons, List.map_cons, Report.convertAll, h, ih]
    cases diagnostic a with
    | error f => rfl
    | ok d => cases Report.convertAll lines (as.map report) <;> rfl

theorem diagnosticsOfJson_eq_convertAll (last : Option Severity) (vs : List Value) :
    Pylint.diagnosticsOfJson (.ok lines) last vs =
      Report.convertAll lines (Report.ofJson last vs) := by
  induction vs generalizing last with
  | nil => rfl
  | cons v vs ih =>
    rw [Pylint.diagnosticsOfJson, Report.ofJson, Report.convertAll, Report.convert]
    cases hd : Pylint.diagnosticOfJson (.ok lines) last v with
    | error f => rfl
    | ok d =>
      obtain ⟨_, -, -, -, hseverity⟩ := Report.of_diagnosticOfJson hd
      rw [ok_bind, ok_bind, hseverity, ih]
      cases Report.convertAll lines (Report.ofJson (some d.severity) vs) <;> rfl

theorem mccabe_eq_convertAll (threshold : Value) (functions : List (Int × Int × Int)) :
    Mccabe.diagnostics (.ok lines) threshold functions =
      Report.convertAll lines (functions.map fun (complexity, line, column) =>
        .mccabe threshold complexity line column) := by
  induction functions with
  | nil => rfl
  | cons function functions ih =>
    obtain ⟨complexity, line, column⟩ := function
    rw [Mccabe.diagnostics, List.map_cons, Report.convertAll, Report.convert, ih]
    cases Mccabe.reaches complexity threshold with
    | error f => rfl
    | ok high =>
      rw [ok_bind, ok_bind]
      split
      · cases Mccabe.diagnostic (.ok lines) threshold complexity line column with
        | error f => rfl
        | ok d =>
          rw [ok_bind]
          generalize Report.convertAll lines _ = rest
          cases rest <;> rfl
      · generalize Report.convertAll lines _ = rest
        cases rest <;> rfl

/-- **The linters convert their findings report by report.** -/
theorem diagnostics_eq_convertAll (findings : Findings) :
    findings.diagnostics (.ok lines) = findings.reports >>= Report.convertAll lines := by
  cases findings with
  | flake8 out =>
    refine mapM_eq_convertAll (fun f => ?_) _
    -- the numbers are read twice
    rw [Report.convert]
    cases hline : numeral f.line with
    | error f => rw [Flake8.diagnostic, hline]; rfl
    | ok line =>
      cases hcolumn : numeral f.column with
      | error f => rw [Flake8.diagnostic, hline, hcolumn]; rfl
      | ok column => rfl
  | pylint out => exact mapM_eq_convertAll (fun f => rfl) _
  | pylintJson out =>
    rw [diagnostics, Pylint.decode, reports]
    split
    · rfl
    · cases Json.parse? .message out.toList with
      | none => rfl
      | some v =>
        dsimp only
        cases v.elements with
        | error f => rfl
        | ok vs => exact diagnosticsOfJson_eq_convertAll none vs
  | pycodestyle ignores expected line offset text =>
    rw [diagnostics, reports, ok_bind, ok_bind, Report.convertAll, Report.convert]
    cases Pycodestyle.diagnostic ignores expected lines line offset text with
    | error f => rfl
    | ok found => exact congrArg Except.ok (List.append_nil _).symm
  | pyflakes kind line column template args =>
    rw [diagnostics, reports, ok_bind, ok_bind, Report.convertAll, Report.convert]
    cases Pyflakes.diagnostic lines (.finding kind line column template args) <;> rfl
  | mccabe threshold functions => exact mccabe_eq_convertAll threshold functions
  | pydocstyle line code message => rfl

/-- **Where diagnostics stand.** The findings of an engine about a document, each of them on one of
its lines, are all converted, and every diagnostic stands on the line that was reported, just if the
reports can be read and none slips. A report can slip only if it is about complexity and the line
after the function's own is missing or has another width, or about documentation and the first line
has another width. -/
theorem diagnostics_mark_lines_iff {d : Document} {fs : Files} {lines : List (List Char)}
    (hlines : d.lines fs = .ok lines) {findings : Findings} {reports : List Report}
    (hreports : findings.reports = .ok reports)
    (hin : ∀ r ∈ reports, ∃ n, r.line? = some n ∧ 1 ≤ n ∧ n ≤ lines.length) :
    (∃ ds, findings.diagnostics (d.lines fs) = .ok ds ∧
      List.Forall₂ (Report.Marks lines) (reports.filter Report.shown) ds) ↔
        ∀ r ∈ reports, r.readable = true ∧ ¬ r.Slips lines := by
  rw [hlines, diagnostics_eq_convertAll, hreports]
  exact Report.convertAll_marks_iff hin

/-- A document with a function of two lines. -/
def function : Document where
  uri := "file:///w/a.py"
  path := "/w/a.py"
  dotName := "a"
  filename := "a.py"
  source := .text "def f():\n    return 1\n"

/-- A finding on the second line is marked there. A warning for the function ends where the second
line does, which is past the end of the first, and for a function on the last line there is none. -/
theorem complexity_marked_by_next_line :
    let lines := ["def f():\n".toList, "    return 1\n".toList]
    function.lines {} = .ok lines ∧
    (∃ f, (flake8 "a.py:2:5: E1 x\n").reports = .ok [.flake8 f] ∧
      ∃ ds, (flake8 "a.py:2:5: E1 x\n").diagnostics (function.lines {}) = .ok ds ∧
        List.Forall₂ (Report.Marks lines) ([.flake8 f].filter Report.shown) ds) ∧
    (¬ ∃ ds, (mccabe (.int 1) [(1, 1, 0)]).diagnostics (function.lines {}) = .ok ds ∧
      List.Forall₂ (Report.Marks lines) ([.mccabe (.int 1) 1 1 0].filter Report.shown) ds) ∧
    (mccabe (.int 1) [(1, 2, 4)]).diagnostics (function.lines {}) = .error .outOfRange := by
  intro lines
  have hlines : function.lines {} = .ok lines := eq_ok_of_toOption (by decide +kernel)
  obtain ⟨f, hf, hline, hread⟩ : ∃ f, Finding.parseAll Flake8.mark "a.py:2:5: E1 x\n".toList = [f] ∧
      (Report.flake8 f).line? = some 2 ∧ (Report.flake8 f).readable = true :=
    ⟨⟨['a', '.', 'p', 'y'], ['2'], ['5'], ['E', '1'], ['x']⟩, by decide +kernel, by decide +kernel,
      by decide +kernel⟩
  have hreports : (flake8 "a.py:2:5: E1 x\n").reports = .ok [.flake8 f] := by
    rw [reports, hf]
    rfl
  refine ⟨hlines, ⟨f, hreports, ?_⟩, ?_, ?_⟩
  · rw [diagnostics_mark_lines_iff hlines hreports
      fun r hr => ⟨2, by rw [List.mem_singleton.1 hr, hline], by decide, by decide⟩]
    intro r hr
    rw [List.mem_singleton.1 hr]
    exact ⟨hread, id⟩
  · rw [diagnostics_mark_lines_iff hlines rfl
      fun r hr => ⟨1, by rw [List.mem_singleton.1 hr]; rfl, by decide, by decide⟩]
    exact fun h => (h _ (List.mem_singleton_self _)).2 (by decide)
  · rw [hlines]
    rfl

end Findings
end LangServer.Lint
