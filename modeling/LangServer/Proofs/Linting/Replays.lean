import LangServer.Proofs.Linting.Answers

/-!
# Findings that are shown again

pylint looks at saved files only. Between two saves it shows again what it found in the file the
last time, and all documents share what is remembered for this.

* `Call` is one lint, with all that it can depend on but what is remembered. `answers` runs calls
  one after the other, and each of them may fail.
* A call changes what is remembered about a file only if it is for the saved file and does not fail
  (`Call.lookup_remembered`), so that what is remembered is the answer of the last such call
  (`lookup_memoryAfter`).
* That answer is shown for a document that was not saved (`unsaved_shows_last_save`).
-/

namespace LangServer.Lint.Pylint

/-- The findings that are remembered, by path. -/
abbrev Memory := List (String × List Diagnostic)

/-- A lint of a document in the server. Of the host at that time, all but what is remembered. -/
structure Call where
  host : Host
  document : Document
  isSaved : Bool
  flags : String

namespace Call

/-- The desk that the call is made at. -/
def desk (c : Call) (memory : Memory) : Desk where
  host := { c.host with lastFindings := memory }
  document := some c.document

def run (c : Call) (memory : Memory) : EStateM.Result Fault Desk (List Diagnostic) :=
  lintFile c.isSaved c.flags (c.desk memory)

/-- What the call answers, if it does not fail. -/
def answer? (c : Call) (memory : Memory) : Option (List Diagnostic) :=
  match c.run memory with
  | .ok found _ => some found
  | .error _ _ => none

/-- What is remembered after the call, also if it fails. -/
def remembered (c : Call) (memory : Memory) : Memory :=
  match c.run memory with
  | .ok _ desk | .error _ desk => desk.host.lastFindings

/-- Is the call for a saved file with the path? -/
def saves (path : String) (c : Call) : Bool := c.isSaved && c.document.path == path

end Call

/-- What calls answer that are made one after the other. -/
def answers (memory : Memory) : List Call → List (Call × Option (List Diagnostic))
  | [] => []
  | c :: rest => (c, c.answer? memory) :: answers (c.remembered memory) rest

/-- What is remembered after calls. -/
def memoryAfter (memory : Memory) (cs : List Call) : Memory :=
  cs.foldl (fun memory c => c.remembered memory) memory

/-- The answer of a call for the saved file with the path. -/
def saved? (path : String) : Call × Option (List Diagnostic) → Option (List Diagnostic)
  | (c, answer) => if c.saves path then answer else none

/-- **What was found at the last save** of a file that did not fail; nothing, if there was none. -/
def lastSave (path : String) (past : List (Call × Option (List Diagnostic))) : List Diagnostic :=
  (past.reverse.findSome? (saved? path)).getD []

/-! ## Single calls -/

section

variable {c : Call} {path : String}

/-- A call for a document that was not saved does nothing but to look up what is remembered. -/
theorem Call.run_of_unsaved (hc : c.isSaved = false) (memory : Memory) :
    c.run memory =
      .ok ((Value.lookup c.document.path memory).getD []) (c.desk memory) := by
  rw [run, hc]
  rfl

/-- **What one call does to what is remembered.** -/
theorem Call.lookup_remembered (memory : Memory) :
    Value.lookup path (c.remembered memory) =
      (saved? path (c, c.answer? memory)).or (Value.lookup path memory) := by
  have hrun := ensures_lintFile c.isSaved c.flags (c.desk memory)
  rw [remembered, answer?, saved?, saves]
  cases hresult : c.run memory with
  | error fault desk' =>
    have hretains := hrun.error hresult
    dsimp only
    rw [hretains.lastFindings, ite_self]
    rfl
  | ok found desk' =>
    obtain ⟨-, d, hd, hfound⟩ := hrun.ok hresult
    obtain rfl : c.document = d := Option.some_inj.1 hd
    dsimp only
    cases hsaved : c.isSaved with
    | false =>
      rw [hsaved, if_neg Bool.false_ne_true] at hfound
      rw [hfound.1]
      rfl
    | true =>
      rw [hsaved, if_pos rfl] at hfound
      rw [hfound, Value.lookup_insert, Bool.true_and]
      by_cases hpath : path = c.document.path
      · rw [if_pos hpath, if_pos (beq_iff_eq.2 hpath.symm)]
        rfl
      · rw [if_neg hpath, if_neg fun h => hpath (beq_iff_eq.1 h).symm]
        rfl

end

/-! ## Calls one after the other -/

section

variable {path : String}

theorem answers_append (memory : Memory) (cs later : List Call) :
    answers memory (cs ++ later) = answers memory cs ++ answers (memoryAfter memory cs) later := by
  induction cs generalizing memory with
  | nil => rfl
  | cons c rest ih => exact congrArg ((c, c.answer? memory) :: ·) (ih (c.remembered memory))

/-- **What is remembered about a file is the answer of the last call that saved it**, or what was
remembered before. -/
theorem lookup_memoryAfter (memory : Memory) (cs : List Call) :
    Value.lookup path (memoryAfter memory cs) =
      ((answers memory cs).reverse.findSome? (saved? path)).or (Value.lookup path memory) := by
  induction cs generalizing memory with
  | nil => rfl
  | cons c rest ih =>
    have hrest : memoryAfter memory (c :: rest) = memoryAfter (c.remembered memory) rest := rfl
    rw [hrest, ih, Call.lookup_remembered, answers, List.reverse_cons, List.findSome?_append,
      List.findSome?_singleton, Option.or_assoc]

theorem lastSave_append {past later : List (Call × Option (List Diagnostic))}
    (h : ∀ e ∈ later, saved? path e = none) :
    lastSave path (past ++ later) = lastSave path past := by
  have hnone : later.reverse.findSome? (saved? path) = none :=
    List.findSome?_eq_none_iff.2 fun e he => h e (List.mem_reverse.1 he)
  rw [lastSave, List.reverse_append, List.findSome?_append, hnone]
  rfl

/-- **A document that was not saved shows what was found at the last save of its file.** After any
calls, of which some may have failed, a call for a document that was not saved runs no engine and
changes nothing. It answers with what the last call found that was for the saved file and did not
fail, or with nothing, if there was no such call. Calls that fail and calls for other files,
however many follow, do not change this answer. -/
theorem unsaved_shows_last_save (cs : List Call) {c : Call} (hc : c.isSaved = false) :
    c.run (memoryAfter [] cs) =
        .ok (lastSave c.document.path (answers [] cs)) (c.desk (memoryAfter [] cs)) ∧
      ∀ later : List Call,
        (∀ e ∈ answers (memoryAfter [] cs) later,
          e.2 = none ∨ e.1.document.path ≠ c.document.path ∨ e.1.isSaved = false) →
        c.answer? (memoryAfter [] (cs ++ later)) = c.answer? (memoryAfter [] cs) := by
  have hanswer : ∀ cs, c.run (memoryAfter [] cs) =
      .ok (lastSave c.document.path (answers [] cs)) (c.desk (memoryAfter [] cs)) := by
    intro cs
    have hempty : Value.lookup c.document.path ([] : Memory) = none := rfl
    rw [Call.run_of_unsaved hc, lookup_memoryAfter, hempty, Option.or_none, lastSave]
  refine ⟨hanswer cs, fun later hlater => ?_⟩
  have hsame : lastSave c.document.path (answers [] (cs ++ later)) =
      lastSave c.document.path (answers [] cs) := by
    rw [answers_append]
    refine lastSave_append fun e he => ?_
    rw [saved?, Call.saves]
    rcases hlater e he with hfailed | hother | hunsaved
    · rw [hfailed, ite_self]
    · rw [beq_false_of_ne hother, Bool.and_false]
      rfl
    · rw [hunsaved]
      rfl
  rw [Call.answer?, Call.answer?, hanswer, hanswer, hsame]

/-- A lint of a document of one line, of which pylint says `out`. -/
def oneLine (path out : String) (isSaved : Bool) (fault : Option Fault) : Call where
  host := { engines := { linter := { out }, linterFault := fault } }
  document := { uri := "file://" ++ path, path, dotName := "a", filename := path
                source := .text "x = y\n" }
  isSaved
  flags := ""

/-- What pylint says about a name, with the line it gives. -/
def undefinedName (line : String) : String :=
  r#"[{"line":"# ++ line ++ r#","column":4,"type":"error","symbol":"undefined","message":"y","# ++
    r#""message-id":"E0602"}]"#

/-- Saves of a file that fail in three ways, and a save of another file. -/
def laterSaves : List Call :=
  [oneLine "/w/a.py" "" true (some .mismatch), oneLine "/w/a.py" "Traceback" true none,
    oneLine "/w/a.py" (undefinedName "2") true none, oneLine "/w/b.py" "" true none]

/-- What was found at the first save of a file is shown again after saves of it that failed, and
after a save of another file. -/
theorem first_save_shown_again :
    let first := oneLine "/w/a.py" (undefinedName "1") true none
    let shown := oneLine "/w/a.py" "" false none
    let found : List Diagnostic :=
      [{ source := "pylint", line := 0, column := .int 4, endColumn := 6, severity := .error
         message := "[undefined] y", code := some (.str "E0602") }]
    (∀ e ∈ answers (memoryAfter [] [first]) laterSaves,
      e.2 = none ∨ e.1.document.path ≠ shown.document.path ∨ e.1.isSaved = false) ∧
    shown.run (memoryAfter [] [first]) = .ok found (shown.desk (memoryAfter [] [first])) ∧
    shown.answer? (memoryAfter [] (first :: laterSaves)) = some found := by
  intro first shown found
  have hfound : lastSave "/w/a.py" (answers [] [first]) = found := by decide +kernel
  have hfail : ∀ e ∈ answers (memoryAfter [] [first]) laterSaves,
      e.2 = none ∨ e.1.document.path ≠ shown.document.path ∨ e.1.isSaved = false := by
    decide +kernel
  obtain ⟨hrun, hlater⟩ := unsaved_shows_last_save [first] (rfl : shown.isSaved = false)
  have hrun : shown.run (memoryAfter [] [first]) =
      .ok found (shown.desk (memoryAfter [] [first])) := hrun.trans (by rw [← hfound]; rfl)
  refine ⟨hfail, hrun, (hlater laterSaves hfail).trans ?_⟩
  rw [Call.answer?, hrun]

end

end LangServer.Lint.Pylint
