import LangServer.Proofs.Linting.Placement
import LangServer.Proofs.Numerals

/-!
# Reading back what linters print

A linter prints a line for each of its findings, and the server reads the lines. The path comes
first and is taken to be as long as it can be, so that a message that looks like a printed finding
itself (`Finding.Quotes`) is taken apart in place of the line it stands in.

* A line is read as the finding that was printed, unless its message quotes one
  (`Finding.parse?_print`); then the quoted finding is read (`Finding.parse?_append`).
* Numbers are printed in decimal, and are read back unless they have too many digits.
* So all that was printed is told again just if no message quotes a finding
  (`Printer.told_iff_faithful`).
-/

namespace LangServer.Lint

open Text

/-! ## Printed findings -/

namespace Finding

/-- The numbers are digits, and the code is a word. -/
structure IsPlain (f : Finding) : Prop where
  line : ∀ c ∈ f.line, isDigit c = true
  column : ∀ c ∈ f.column, isDigit c = true
  code : ∀ c ∈ f.code, isWord c = true

/-- What is printed after the path and its colon. -/
def printAfterPath (mark : List Char) (f : Finding) : List Char :=
  f.line ++ ':' :: (f.column ++ ':' :: ' ' :: (f.code ++ mark ++ f.message))

/-- The text is, from some place in it on, a printed finding. -/
def Quotes (mark s : List Char) : Prop := ∃ f : Finding, f.IsPlain ∧ s = f.print mark

section

variable {mark s : List Char} {f g : Finding}

theorem takeWhile_dropWhile_append {p : Char → Bool} {t : List Char} {c : Char}
    (hs : ∀ c ∈ s, p c = true) (hc : p c = false) :
    (s ++ c :: t).takeWhile p = s ∧ (s ++ c :: t).dropWhile p = c :: t := by
  rw [List.takeWhile_append_of_pos hs, List.dropWhile_append_of_pos hs,
    List.takeWhile_cons_of_neg (by rw [hc]; exact Bool.false_ne_true),
    List.dropWhile_cons_of_neg (by rw [hc]; exact Bool.false_ne_true), List.append_nil]
  exact ⟨rfl, rfl⟩

theorem stripHead?_append (head rest : List Char) : stripHead? head (head ++ rest) = some rest := by
  rw [stripHead?, if_pos (List.isPrefixOf_iff_prefix.2 (List.prefix_append head rest)),
    List.drop_left]

theorem eq_append_of_stripHead? {head rest : List Char} (h : stripHead? head s = some rest) :
    s = head ++ rest := by
  rw [stripHead?] at h
  split at h
  · next hprefix =>
    obtain ⟨t, rfl⟩ := List.isPrefixOf_iff_prefix.1 hprefix
    rw [List.drop_left, Option.some_inj] at h
    rw [h]
  · cases h

theorem parseAfterPath?_eq {afterLine afterColumn : List Char}
    (hline : s.dropWhile isDigit = ':' :: afterLine)
    (hcolumn : afterLine.dropWhile isDigit = ':' :: ' ' :: afterColumn) :
    parseAfterPath? mark s =
      (stripHead? mark (afterColumn.dropWhile isWord)).map fun message =>
        { path := [], line := s.takeWhile isDigit, column := afterLine.takeWhile isDigit
          code := afterColumn.takeWhile isWord, message } := by
  simp only [parseAfterPath?, hline, hcolumn]

theorem parseAfterPath?_print (hf : f.IsPlain) (hmark : ∀ c ∈ mark.head?, isWord c = false)
    (hne : mark ≠ []) :
    parseAfterPath? mark (f.printAfterPath mark) = some { f with path := [] } := by
  obtain ⟨m, mark', rfl⟩ := List.exists_cons_of_ne_nil hne
  have hm : isWord m = false := hmark m rfl
  obtain ⟨hline, hafterLine⟩ := takeWhile_dropWhile_append
    (t := f.column ++ ':' :: ' ' :: (f.code ++ m :: mark' ++ f.message)) hf.line
    (by decide : isDigit ':' = false)
  obtain ⟨hcolumn, hafterColumn⟩ := takeWhile_dropWhile_append
    (t := ' ' :: (f.code ++ m :: mark' ++ f.message)) hf.column (by decide : isDigit ':' = false)
  obtain ⟨hcode, hafterCode⟩ := takeWhile_dropWhile_append (t := mark' ++ f.message) hf.code hm
  have hassoc : f.code ++ m :: mark' ++ f.message = f.code ++ m :: (mark' ++ f.message) :=
    List.append_assoc f.code (m :: mark') f.message
  rw [printAfterPath, parseAfterPath?_eq hafterLine hafterColumn, hline, hcolumn, hassoc, hcode,
    hafterCode, ← List.cons_append, stripHead?_append]
  rfl

/-- What is read after the path was printed so. -/
theorem of_parseAfterPath? (h : parseAfterPath? mark s = some f) :
    f.IsPlain ∧ f.path = [] ∧ s = f.printAfterPath mark := by
  rw [parseAfterPath?] at h
  split at h
  · next afterLine hline =>
    split at h
    · next afterColumn hcolumn =>
      obtain ⟨message, hmessage, rfl⟩ := Option.map_eq_some_iff.1 h
      refine ⟨⟨?_, ?_, ?_⟩, rfl, ?_⟩
      · exact fun c hc => List.all_eq_true.1 List.all_takeWhile c hc
      · exact fun c hc => List.all_eq_true.1 List.all_takeWhile c hc
      · exact fun c hc => List.all_eq_true.1 List.all_takeWhile c hc
      · rw [printAfterPath]
        dsimp only
        rw [List.append_assoc, ← eq_append_of_stripHead? hmessage, List.takeWhile_append_dropWhile,
          ← hcolumn, List.takeWhile_append_dropWhile, ← hline, List.takeWhile_append_dropWhile]
    · cases h
  · cases h

/-- **What is read was printed so.** -/
theorem of_parse? (h : parse? mark s = some f) : f.IsPlain ∧ s = f.print mark := by
  induction s generalizing f with
  | nil => cases h
  | cons c rest ih =>
    rw [parse?] at h
    split at h
    · next g hg =>
      obtain ⟨hplain, hrest⟩ := ih hg
      obtain rfl := Option.some_inj.1 h
      exact ⟨⟨hplain.line, hplain.column, hplain.code⟩, congrArg (c :: ·) hrest⟩
    · split at h
      · next hc =>
        obtain ⟨hplain, hpath, hrest⟩ := of_parseAfterPath? h
        refine ⟨hplain, ?_⟩
        rw [hc, hrest, print, hpath]
        rfl
      · cases h

/-- **The last place counts**: what can be read at the end of a text is read, and all before it
becomes part of the path. -/
theorem parse?_append (front : List Char) (h : parse? mark s = some g) :
    parse? mark (front ++ s) = some { g with path := front ++ g.path } := by
  induction front with
  | nil => exact h
  | cons c front ih => rw [List.cons_append, parse?, ih]; rfl

theorem parse?_append_of_notMem (front : List Char) (hfront : ':' ∉ front)
    (h : parse? mark s = none) : parse? mark (front ++ s) = none := by
  induction front with
  | nil => exact h
  | cons c front ih =>
    rw [List.mem_cons, not_or] at hfront
    rw [List.cons_append, parse?, ih hfront.2]
    exact if_neg (Ne.symm hfront.1)

theorem parse?_colon (h : parse? mark s = none) :
    parse? mark (':' :: s) = parseAfterPath? mark s := by
  rw [parse?, h]
  exact if_pos rfl

theorem parseAfterPath?_blank (s : List Char) : parseAfterPath? mark (' ' :: s) = none := by
  have hblank : (' ' :: s).dropWhile isDigit = ' ' :: s := List.dropWhile_cons_of_neg (by decide)
  simp [parseAfterPath?, hblank]

theorem parseAfterPath?_number {digits : List Char} (hdigits : ∀ c ∈ digits, isDigit c = true)
    (s : List Char) : parseAfterPath? mark (digits ++ ':' :: ' ' :: s) = none := by
  have hline := (takeWhile_dropWhile_append (t := ' ' :: s) hdigits
    (by decide : isDigit ':' = false)).2
  have hblank : (' ' :: s).dropWhile isDigit = ' ' :: s := List.dropWhile_cons_of_neg (by decide)
  simp [parseAfterPath?, hline, hblank]

end
end Finding

/-! ## Linters that print -/

/-- A linter that prints its findings, one on each line. -/
inductive Printer where
  | flake8
  | pylint
  deriving DecidableEq, Repr

namespace Printer

/-- What stands between a code and a message. -/
def mark : Printer → List Char
  | flake8 => Flake8.mark
  | pylint => Pylint.mark

/-- The diagnostics in what the linter printed. -/
def diagnostics : Printer → Except Fault (List (List Char)) → String →
    Except Fault (List Diagnostic)
  | flake8 => Flake8.diagnostics
  | pylint => Pylint.diagnostics

/-- The characters that a code can begin with, if there is a choice. -/
def letters? : Printer → Option (List Char)
  | flake8 => none
  | pylint => some ['C', 'E', 'F', 'I', 'R', 'W']

/-- The number of the first column. -/
def firstColumn : Printer → Nat
  | flake8 => 1
  | pylint => 0

/-- What a diagnostic says. -/
def wording (code message : List Char) : Printer → String
  | flake8 => String.ofList code ++ " " ++ String.ofList message
  | pylint => String.ofList message

end Printer

/-- What a linter has to say about a line. -/
structure Notice (p : Printer) where
  path : List Char
  /-- The line, counted from one. -/
  line : Nat
  column : Nat
  code : List Char
  message : List Char
  path_unbroken : ∀ c ∈ path, isBoundary c = false
  message_unbroken : ∀ c ∈ message, isBoundary c = false
  code_ne_nil : code ≠ []
  code_word : ∀ c ∈ code, isWord c = true
  code_begins : ∀ letters ∈ p.letters?, ∀ c ∈ code.head?, c ∈ letters
  column_le : p.firstColumn ≤ column

namespace Notice

variable {p : Printer}

/-- The finding that is printed. -/
def finding (n : Notice p) : Finding where
  path := n.path
  line := Nat.toDigits 10 n.line
  column := Nat.toDigits 10 n.column
  code := n.code
  message := n.message

/-- The line that is printed. -/
def text (n : Notice p) : List Char := n.finding.print p.mark

/-- The diagnostic says what the linter said. -/
structure Tells (n : Notice p) (d : Diagnostic) : Prop where
  line : d.line = n.line - 1
  column : d.column = .int (n.column - p.firstColumn)
  code : d.code = some (.str (String.ofList n.code))
  message : d.message = p.wording n.code n.message

/-- The message quotes no finding, and the numbers have no more digits than are read. -/
structure Faithful (n : Notice p) : Prop where
  unquoted : ¬ Finding.Quotes p.mark n.message
  line : (Nat.toDigits 10 n.line).length ≤ digitLimit
  column : (Nat.toDigits 10 n.column).length ≤ digitLimit

end Notice

/-- All that a linter prints. -/
def Printer.output {p : Printer} (ns : List (Notice p)) : String :=
  String.ofList (ns.flatMap fun n => n.text ++ ['\n'])

/-! ## Reading a line -/

theorem isWord_of_ascii {c : Char} (h : c.isDigit = true) : isWord c = true := by
  have hrange : 48 ≤ c.toNat ∧ c.toNat ≤ 57 := Char.isDigit_iff_toNat.1 h
  refine isWord_of_isAsciiWord ?_ (by omega)
  simp [isAsciiWord, Char.isAlphanum, h]

theorem isBoundary_of_isWord {c : Char} (h : isWord c = true) : isBoundary c = false := by
  have hends : ∀ n ∈ [10, 11, 12, 13, 28, 29, 30, 0x85, 0x2028, 0x2029],
      isWord (Char.ofNat n) = false := by decide +kernel
  cases hc : isBoundary c with
  | false => rfl
  | true =>
    have hmem : c.toNat ∈ [10, 11, 12, 13, 28, 29, 30, 0x85, 0x2028, 0x2029] := by
      simp only [isBoundary, Bool.or_eq_true, Bool.and_eq_true, decide_eq_true_eq, beq_iff_eq] at hc
      simp only [List.mem_cons, List.not_mem_nil, or_false]
      omega
    have hword := hends _ hmem
    rw [Char.ofNat_toNat, h] at hword
    cases hword

namespace Printer

variable (p : Printer) {s : List Char}

theorem mark_ne_nil : p.mark ≠ [] := by cases p <;> decide

theorem isWord_mark : ∀ c ∈ p.mark.head?, isWord c = false := by cases p <;> decide

theorem isBoundary_mark : ∀ c ∈ p.mark, isBoundary c = false := by cases p <;> decide

theorem parse?_mark_append (h : Finding.parse? p.mark s = none) :
    Finding.parse? p.mark (p.mark ++ s) = none := by
  cases p with
  | flake8 => exact Finding.parse?_append_of_notMem _ (by decide) h
  | pylint =>
    have hblank : Finding.parse? Pylint.mark (' ' :: s) = none :=
      Finding.parse?_append_of_notMem [' '] (by decide) h
    exact (Finding.parse?_colon hblank).trans (Finding.parseAfterPath?_blank s)

end Printer

namespace Finding

variable {p : Printer} {f g : Finding}

/-- **A printed finding is read**, if its message cannot be. -/
theorem parse?_print (hf : f.IsPlain) (h : parse? p.mark f.message = none) :
    parse? p.mark (f.print p.mark) = some f := by
  have hcolonless : ∀ digits : List Char, (∀ c ∈ digits, isDigit c = true) → ':' ∉ digits :=
    fun digits hdigits hmem => absurd (hdigits ':' hmem) (by decide)
  -- none of the colons between the path and the message ends the path
  have hcode : parse? p.mark (f.code ++ p.mark ++ f.message) = none := by
    rw [List.append_assoc]
    exact parse?_append_of_notMem _ (fun hmem => absurd (hf.code ':' hmem) (by decide))
      (p.parse?_mark_append h)
  have hblank : parse? p.mark (' ' :: (f.code ++ p.mark ++ f.message)) = none :=
    parse?_append_of_notMem [' '] (by decide) hcode
  have hcolumn : parse? p.mark (f.column ++ ':' :: ' ' :: (f.code ++ p.mark ++ f.message)) = none :=
    parse?_append_of_notMem _ (hcolonless _ hf.column)
      ((parse?_colon hblank).trans (parseAfterPath?_blank _))
  have hline : parse? p.mark (f.printAfterPath p.mark) = none :=
    parse?_append_of_notMem _ (hcolonless _ hf.line)
      ((parse?_colon hcolumn).trans (parseAfterPath?_number hf.column _))
  have hrest : parse? p.mark (':' :: f.printAfterPath p.mark) = some { f with path := [] } :=
    (parse?_colon hline).trans (parseAfterPath?_print hf p.isWord_mark p.mark_ne_nil)
  have hall := parse?_append f.path hrest
  rw [List.append_nil] at hall
  exact hall

theorem parse?_print_of_some (h : parse? p.mark f.message = some g) :
    ∃ path, parse? p.mark (f.print p.mark) = some { g with path } := by
  have hprint : f.print p.mark =
      (f.path ++ ':' :: (f.line ++ ':' :: (f.column ++ ':' :: ' ' :: (f.code ++ p.mark)))) ++
        f.message := by
    simp [print]
  exact ⟨_, hprint ▸ parse?_append _ h⟩

theorem quotes_iff {s : List Char} : Quotes p.mark s ↔ ∃ f, parse? p.mark s = some f := by
  constructor
  · rintro ⟨f, hf, rfl⟩
    cases hmessage : parse? p.mark f.message with
    | none => exact ⟨f, parse?_print hf hmessage⟩
    | some g =>
      obtain ⟨path, h⟩ := parse?_print_of_some hmessage
      exact ⟨_, h⟩
  · rintro ⟨f, h⟩
    obtain ⟨hf, hs⟩ := of_parse? h
    exact ⟨f, hf, hs⟩

instance {s : List Char} : Decidable (Quotes p.mark s) :=
  decidable_of_iff ((parse? p.mark s).isSome = true) (by rw [Option.isSome_iff_exists, quotes_iff])

theorem length_message_lt (f : Finding) (mark : List Char) :
    f.message.length < (f.print mark).length := by
  simp only [print, List.length_append, List.length_cons]
  omega

end Finding

/-! ## Diagnostics for what was read -/

theorem numeral_toDigits (n : Nat) :
    numeral (Nat.toDigits 10 n) =
      if (Nat.toDigits 10 n).length ≤ digitLimit then .ok (n : Int)
      else .error (.badNumeral (Nat.toDigits 10 n)) := by
  rw [numeral, readInt_toDigits]
  by_cases h : (Nat.toDigits 10 n).length ≤ digitLimit
  · rw [if_pos h, if_pos h]
  · rw [if_neg h, if_neg h]

namespace Printer

variable {p : Printer} {lines : Except Fault (List (List Char))} {f : Finding} {d : Diagnostic}

/-- The diagnostic for a finding that was read. -/
def diagnosticOf (lines : Except Fault (List (List Char))) (f : Finding) :
    Printer → Except Fault Diagnostic
  | flake8 => do
    let _ ← numeral f.line
    let _ ← numeral f.column
    Flake8.diagnostic (← lines) f
  | pylint => Pylint.diagnostic lines f

/-- How serious a finding with a code is. -/
def severityOf (code : List Char) : Printer → Except Fault Severity
  | flake8 => .ok .warning
  | pylint => Pylint.severityOfCode code

theorem diagnostics_eq (p : Printer) (out : String) :
    p.diagnostics lines out =
      (Finding.parseAll p.mark out.toList).mapM fun f => p.diagnosticOf lines f := by
  cases p <;> rfl

theorem wording_inj {code message message' : List Char}
    (h : p.wording code message = p.wording code message') : message = message' := by
  cases p <;> simpa [wording, String.ofList_inj] using h

theorem of_diagnosticOf (h : p.diagnosticOf lines f = .ok d) :
    (∃ n, numeral f.line = .ok n) ∧ (∃ n, numeral f.column = .ok n) ∧
      d.code = some (.str (String.ofList f.code)) ∧ d.message = p.wording f.code f.message := by
  cases p with
  | flake8 =>
    obtain ⟨line, hline, h⟩ := exists_of_bind_eq_ok h
    obtain ⟨column, hcolumn, h⟩ := exists_of_bind_eq_ok h
    obtain ⟨lines, -, h⟩ := exists_of_bind_eq_ok h
    obtain ⟨_, -, h⟩ := exists_of_bind_eq_ok h
    obtain ⟨_, -, h⟩ := exists_of_bind_eq_ok h
    obtain ⟨_, -, h⟩ := exists_of_bind_eq_ok h
    obtain rfl := Except.ok.inj h
    exact ⟨⟨line, hline⟩, ⟨column, hcolumn⟩, rfl, rfl⟩
  | pylint =>
    obtain ⟨line, hline, h⟩ := exists_of_bind_eq_ok h
    obtain ⟨column, hcolumn, h⟩ := exists_of_bind_eq_ok h
    obtain ⟨_, -, h⟩ := exists_of_bind_eq_ok h
    obtain ⟨_, -, h⟩ := exists_of_bind_eq_ok h
    obtain ⟨_, -, h⟩ := exists_of_bind_eq_ok h
    obtain rfl := Except.ok.inj h
    exact ⟨⟨line, hline⟩, ⟨column, hcolumn⟩, rfl, rfl⟩

end Printer

namespace Notice

variable {p : Printer} {n : Notice p} {lines : List (List Char)}

theorem isPlain_finding (n : Notice p) : n.finding.IsPlain where
  line _ hc := isDigit_of_ascii (ascii_of_mem_toDigits hc)
  column _ hc := isDigit_of_ascii (ascii_of_mem_toDigits hc)
  code := n.code_word

theorem exists_severityOf (n : Notice p) : ∃ severity, p.severityOf n.code = .ok severity := by
  cases p with
  | flake8 => exact ⟨_, rfl⟩
  | pylint =>
    obtain ⟨c, code, hcode⟩ := List.exists_cons_of_ne_nil n.code_ne_nil
    have hc := n.code_begins _ rfl c (by rw [hcode]; rfl)
    have hletters : ∀ c ∈ ['C', 'E', 'F', 'I', 'R', 'W'],
        (Pylint.severityOfLetter? c).isSome = true := by decide
    obtain ⟨severity, hseverity⟩ := Option.isSome_iff_exists.1 (hletters c hc)
    exact ⟨severity, by simp only [Printer.severityOf, hcode, Pylint.severityOfCode, hseverity]⟩

/-- **The diagnostic says what the linter said**, if the numbers are read. -/
theorem exists_diagnosticOf (hlow : 1 ≤ n.line) (hhigh : n.line ≤ lines.length)
    (hline : (Nat.toDigits 10 n.line).length ≤ digitLimit)
    (hcolumn : (Nat.toDigits 10 n.column).length ≤ digitLimit) :
    ∃ d, p.diagnosticOf (.ok lines) n.finding = .ok d ∧ n.Tells d ∧
      p.severityOf n.code = .ok d.severity := by
  have hn : (1 : Int) ≤ n.line := by omega
  obtain ⟨width, hwidth⟩ := Report.exists_width? hn (by omega : (n.line : Int) ≤ lines.length)
  have hwidth : widthOf lines ((n.line : Int) - 1) = .ok (width : Int) :=
    (Report.widthOf_eq_ok_iff hn).2 ⟨width, hwidth, rfl⟩
  obtain ⟨severity, hseverity⟩ := n.exists_severityOf
  have hline' : numeral n.finding.line = .ok (n.line : Int) := by
    rw [finding, numeral_toDigits, if_pos hline]
  have hcolumn' : numeral n.finding.column = .ok (n.column : Int) := by
    rw [finding, numeral_toDigits, if_pos hcolumn]
  cases p with
  | flake8 =>
    simp only [Printer.diagnosticOf, Flake8.diagnostic, hline', hcolumn', hwidth, ok_bind]
    exact ⟨_, rfl, ⟨rfl, rfl, rfl, rfl⟩, rfl⟩
  | pylint =>
    have hseverity' : Pylint.severityOfCode n.finding.code = .ok severity := hseverity
    simp only [Printer.diagnosticOf, Pylint.diagnostic, hline', hcolumn', hwidth, hseverity',
      ok_bind]
    refine ⟨_, rfl, ⟨rfl, ?_, rfl, rfl⟩, hseverity⟩
    simp [Printer.firstColumn]

/-- What is read from the line that is printed. -/
def read (n : Notice p) : Finding := (Finding.parse? p.mark n.text).getD n.finding

theorem parse?_text (n : Notice p) : Finding.parse? p.mark n.text = some n.read := by
  obtain ⟨f, hf⟩ := Finding.quotes_iff.1 ⟨n.finding, n.isPlain_finding, rfl⟩
  rw [read, text, hf]
  rfl

theorem read_of_not_quotes (h : ¬ Finding.Quotes p.mark n.message) : n.read = n.finding := by
  have hnone : Finding.parse? p.mark n.message = none := by
    rw [Finding.quotes_iff] at h
    exact Option.eq_none_iff_forall_not_mem.2 fun f hf => h ⟨f, hf⟩
  rw [read, text, Finding.parse?_print n.isPlain_finding hnone]
  rfl

theorem length_read_lt (h : Finding.Quotes p.mark n.message) :
    n.read.message.length < n.message.length := by
  obtain ⟨g, hg⟩ := Finding.quotes_iff.1 h
  obtain ⟨path, hpath⟩ := Finding.parse?_print_of_some (f := n.finding) hg
  have hread : n.read = { g with path } := Option.some_inj.1 ((parse?_text n).symm.trans hpath)
  rw [hread, (Finding.of_parse? hg).2]
  exact g.length_message_lt p.mark

/-- **A notice is told again** just if it is faithful. -/
theorem told_iff (hlow : 1 ≤ n.line) (hhigh : n.line ≤ lines.length) :
    (∃ d, p.diagnosticOf (.ok lines) n.read = .ok d ∧ n.Tells d) ↔ n.Faithful := by
  constructor
  · rintro ⟨d, hd, htells⟩
    obtain ⟨⟨line, hline⟩, ⟨column, hcolumn⟩, hcode, hmessage⟩ := Printer.of_diagnosticOf hd
    have hunquoted : ¬ Finding.Quotes p.mark n.message := by
      intro hquotes
      have hsame : n.read.message = n.message := by
        have hcodes : n.read.code = n.code := by
          simpa [String.ofList_inj] using hcode.symm.trans htells.code
        have hmessages := hmessage.symm.trans htells.message
        rw [hcodes] at hmessages
        exact Printer.wording_inj hmessages
      exact absurd (length_read_lt hquotes) (by rw [hsame]; exact Nat.lt_irrefl _)
    rw [read_of_not_quotes hunquoted] at hline hcolumn
    refine ⟨hunquoted, ?_, ?_⟩
    · by_contra hlong
      rw [finding, numeral_toDigits, if_neg hlong] at hline
      cases hline
    · by_contra hlong
      rw [finding, numeral_toDigits, if_neg hlong] at hcolumn
      cases hcolumn
  · rintro ⟨hunquoted, hline, hcolumn⟩
    obtain ⟨d, hd, htells, -⟩ := exists_diagnosticOf hlow hhigh hline hcolumn
    exact ⟨d, by rw [read_of_not_quotes hunquoted, hd], htells⟩

end Notice

/-! ## All that is printed -/

theorem exists_mapM_forall₂_iff {ε α β : Type} {f : α → Except ε β} {R : α → β → Prop}
    {xs : List α} :
    (∃ ys, xs.mapM f = .ok ys ∧ List.Forall₂ R xs ys) ↔ ∀ x ∈ xs, ∃ y, f x = .ok y ∧ R x y := by
  induction xs with
  | nil => exact iff_of_true ⟨[], rfl, .nil⟩ fun x hx => absurd hx List.not_mem_nil
  | cons x xs ih =>
    rw [List.forall_mem_cons, ← ih]
    constructor
    · rintro ⟨ys, hys, hR⟩
      rw [List.mapM_cons] at hys
      obtain ⟨y, hy, hys⟩ := exists_of_bind_eq_ok hys
      obtain ⟨rest, hrest, hys⟩ := exists_of_bind_eq_ok hys
      obtain rfl := Except.ok.inj hys
      obtain ⟨hfirst, hR⟩ := List.forall₂_cons.1 hR
      exact ⟨⟨y, hy, hfirst⟩, rest, hrest, hR⟩
    · rintro ⟨⟨y, hy, hfirst⟩, rest, hrest, hR⟩
      refine ⟨y :: rest, ?_, .cons hfirst hR⟩
      rw [List.mapM_cons, hy, ok_bind, hrest]
      rfl

namespace Printer

variable {p : Printer}

theorem isBoundary_text (n : Notice p) : ∀ c ∈ n.text, isBoundary c = false := by
  have hdigits : ∀ k, ∀ c ∈ Nat.toDigits 10 k, isBoundary c = false := fun k c hc =>
    isBoundary_of_isWord (isWord_of_ascii (ascii_of_mem_toDigits hc))
  intro c hc
  simp only [Notice.text, Notice.finding, Finding.print, List.mem_append, List.mem_cons] at hc
  rcases hc with hc | rfl | hc | rfl | hc | rfl | rfl | (hc | hc) | hc
  · exact n.path_unbroken c hc
  · decide
  · exact hdigits _ c hc
  · decide
  · exact hdigits _ c hc
  · decide
  · decide
  · exact isBoundary_of_isWord (n.code_word c hc)
  · exact p.isBoundary_mark c hc
  · exact n.message_unbroken c hc

theorem lineBodies_output (ns : List (Notice p)) :
    lineBodies (output ns).toList = ns.map Notice.text := by
  rw [output, String.toList_ofList]
  induction ns with
  | nil => rfl
  | cons n ns ih =>
    rw [List.flatMap_cons, List.append_assoc, List.singleton_append, lineBodies,
      lines_append_newline (isBoundary_text n), List.map_cons,
      lineBody_append_newline (isBoundary_text n), List.map_cons]
    exact congrArg (n.text :: ·) ih

theorem parseAll_output (ns : List (Notice p)) :
    Finding.parseAll p.mark (output ns).toList = ns.map Notice.read := by
  rw [Finding.parseAll, lineBodies_output, List.filterMap_map]
  have hread : Finding.parse? p.mark ∘ Notice.text = some ∘ Notice.read (p := p) :=
    funext Notice.parse?_text
  rw [hread, List.filterMap_eq_map]

/-- **What a linter printed is told again just if no message quotes a finding.** For every document
and all notices about its lines, each notice printed on a line of its own, there is one diagnostic
for each notice, in the same order, with its line, column, code and message, just if no message is,
from some place in it on, a printed finding, and no number has more digits than are read. -/
theorem told_iff_faithful {d : Document} {fs : Files} {lines : List (List Char)}
    (hlines : d.lines fs = .ok lines) {ns : List (Notice p)}
    (hin : ∀ n ∈ ns, 1 ≤ n.line ∧ n.line ≤ lines.length) :
    (∃ ds, p.diagnostics (d.lines fs) (output ns) = .ok ds ∧ List.Forall₂ Notice.Tells ns ds) ↔
      ∀ n ∈ ns, n.Faithful := by
  have hdiagnostics : p.diagnostics (d.lines fs) (output ns) =
      ns.mapM fun n => p.diagnosticOf (.ok lines) n.read := by
    rw [hlines, diagnostics_eq, parseAll_output, List.mapM_map]
    rfl
  rw [hdiagnostics, exists_mapM_forall₂_iff]
  exact forall₂_congr fun n hn => Notice.told_iff (hin n hn).1 (hin n hn).2

/-- A document of one line, an annotation that is no type. -/
def annotated : Document where
  uri := "file:///w/a.py"
  path := "/w/a.py"
  dotName := "a"
  filename := "a.py"
  source := .text "x: 'b:9:2: c d'\n"

/-- A notice that says what the annotation is. -/
def quoting : Notice flake8 where
  path := "stdin".toList
  line := 1
  column := 4
  code := "F722".toList
  message := "syntax error in forward annotation 'b:9:2: c d'".toList
  path_unbroken := by decide
  message_unbroken := by decide
  code_ne_nil := by decide
  code_word := by decide
  code_begins := by decide
  column_le := by decide

/-- A notice with colons that are no part of a printed finding. -/
def harmless : Notice pylint where
  path := "c:/w/a.py".toList
  line := 1
  column := 0
  code := "E0602".toList
  message := "Undefined variable 'b:9:2' (undefined-variable)".toList
  path_unbroken := by decide
  message_unbroken := by decide
  code_ne_nil := by decide
  code_word := by decide
  code_begins := by decide
  column_le := by decide

/-- A notice is told again although it has many colons. Another one is not, because its message
quotes a finding: that finding is read in its place, and it is on a line that the document does not
have. -/
theorem quoted_finding_read_instead :
    let lines := ["x: 'b:9:2: c d'\n".toList]
    annotated.lines {} = .ok lines ∧
    (∃ ds, pylint.diagnostics (annotated.lines {}) (output [harmless]) = .ok ds ∧
      List.Forall₂ Notice.Tells [harmless] ds) ∧
    (¬ ∃ ds, flake8.diagnostics (annotated.lines {}) (output [quoting]) = .ok ds ∧
      List.Forall₂ Notice.Tells [quoting] ds) ∧
    flake8.diagnostics (annotated.lines {}) (output [quoting]) = .error .outOfRange := by
  intro lines
  have hlines : annotated.lines {} = .ok lines := eq_ok_of_toOption (by decide +kernel)
  refine ⟨hlines, ?_, ?_, ?_⟩
  · rw [told_iff_faithful hlines (List.forall_mem_singleton.2 ⟨by decide, by decide⟩)]
    refine List.forall_mem_singleton.2 ?_
    exact ⟨by decide +kernel, by decide +kernel, by decide +kernel⟩
  · rw [told_iff_faithful hlines (List.forall_mem_singleton.2 ⟨by decide, by decide⟩)]
    exact fun h => (List.forall_mem_singleton.1 h).unquoted (by decide +kernel)
  · rw [hlines]
    rfl

end Printer

end LangServer.Lint
