import LangServer.Proofs.Edit.Sent
import LangServer.Proofs.Hooks
import Mathlib.Data.List.Forall2

/-!
# Edits of whole documents, applied back

Formatters and renames answer with whole texts, which reach the editor as edits from the first line
to the start of a line after the last one. This file follows such an edit back into a document.

* `Document.rewrites_wholeEdit`: whatever its lines are, a document has them all replaced, so long
  as the edit counts at least as many lines.
* A formatter is asked once, and its answer makes at most one edit (`Formatter.Formatted`). A text
  whose first line end is a lone carriage return (`Text.ReturnFirst`) is given to the formatter with
  line feeds, and the answer gets carriage returns back.
* A rename makes one edit for each file that the engine names (`Refactoring.RewritesFile`).
-/

namespace LangServer

open Relation

/-! ## Line ends -/

namespace Text

/-- The first line end of the text is a carriage return alone. -/
def ReturnFirst (s : List Char) : Prop :=
  ∃ line rest, s = line ++ '\r' :: rest ∧ (∀ c ∈ line, c ≠ '\n' ∧ c ≠ '\r') ∧
    rest.head? ≠ some '\n'

theorem returnFirst_cons_of_not_isEol {c : Char} (hc : isEol c = false) (s : List Char) :
    ReturnFirst (c :: s) ↔ ReturnFirst s := by
  have hne : c ≠ '\n' ∧ c ≠ '\r' := by simpa [isEol] using hc
  constructor
  · rintro ⟨_ | ⟨c', line⟩, rest, hs, hline, hrest⟩
    · exact absurd (List.cons.inj hs).1 hne.2
    · exact ⟨line, rest, (List.cons.inj hs).2,
        fun d hd => hline d (List.mem_cons_of_mem _ hd), hrest⟩
  · rintro ⟨line, rest, rfl, hline, hrest⟩
    refine ⟨c :: line, rest, rfl, fun d hd => ?_, hrest⟩
    rcases List.mem_cons.1 hd with rfl | hd
    · exact hne
    · exact hline d hd

theorem returnFirst_cons_of_isEol {c : Char} (hc : isEol c = true) (s : List Char) :
    ReturnFirst (c :: s) ↔ c = '\r' ∧ s.head? ≠ some '\n' := by
  constructor
  · rintro ⟨_ | ⟨c', line⟩, rest, hs, hline, hrest⟩
    · obtain ⟨rfl, rfl⟩ := List.cons.inj hs
      exact ⟨rfl, hrest⟩
    · obtain ⟨rfl, -⟩ := List.cons.inj hs
      have hne := hline c List.mem_cons_self
      simp [isEol, hne] at hc
  · rintro ⟨rfl, hs⟩
    exact ⟨[], s, rfl, by simp, hs⟩

theorem firstEol?_eq_return_iff (s : List Char) : firstEol? s = some ['\r'] ↔ ReturnFirst s := by
  fun_induction firstEol? s with
  | case1 => simp [ReturnFirst]
  | case2 rest => simp [returnFirst_cons_of_isEol (c := '\r') rfl]
  | case3 c rest hnot hc =>
    rw [returnFirst_cons_of_isEol hc]
    have hhead : c = '\r' → rest.head? ≠ some '\n' := by
      rintro rfl hhead
      obtain ⟨more, rfl⟩ := List.head?_eq_some_iff.1 hhead
      exact hnot more rfl rfl
    simpa using hhead
  | case4 c rest hnot hc ih => rw [ih, returnFirst_cons_of_not_isEol (by simpa using hc)]

instance (s : List Char) : Decidable (ReturnFirst s) :=
  decidable_of_iff _ (firstEol?_eq_return_iff s)

/-- The text with every `a` replaced by `b`. -/
def exchange (a b : Char) (s : String) : String :=
  String.ofList (s.toList.map fun c => if c = a then b else c)

theorem replaceFrom_singleton (a b : Char) (s : List Char) :
    replaceFrom [a] [b] 0 s = s.map fun c => if c = a then b else c := by
  induction s with
  | nil => rfl
  | cons c s ih =>
    rw [replaceFrom, List.map_cons]
    by_cases h : a = c
    · subst h
      simp [ih]
    · simp [ih, h, Ne.symm h]

end Text

namespace Format

open Text

theorem hasReturns_iff (s : List Char) : hasReturns s = true ↔ ReturnFirst s := by
  rw [hasReturns, beq_iff_eq, firstEol?_eq_return_iff]

theorem ofList_replace (s new : String) (a b : Char) :
    String.ofList (if hasReturns s.toList then replace [a] [b] new.toList else new.toList) =
      if ReturnFirst s.toList then exchange a b new else new := by
  by_cases h : ReturnFirst s.toList
  · rw [if_pos h, if_pos ((hasReturns_iff _).2 h), replace, replaceFrom_singleton, exchange]
  · rw [if_neg h, if_neg (mt (hasReturns_iff _).1 h), String.ofList_toList]

theorem ofList_prepare (s : String) :
    String.ofList (prepare s.toList) =
      if ReturnFirst s.toList then exchange '\r' '\n' s else s := ofList_replace s s _ _

theorem ofList_restore (s new : String) :
    String.ofList (restore s.toList new.toList) =
      if ReturnFirst s.toList then exchange '\n' '\r' new else new := ofList_replace s new _ _

end Format

/-! ## Applying an edit -/

namespace Document

theorem splice_whole {n : Nat} {s : List Char} (h : (Text.lines s).length ≤ n) (text : List Char) :
    splice ⟨⟨0, 0⟩, ⟨n, 0⟩⟩ text s = text := by
  have hstart : spot (Text.lines s) 0 0 = 0 := by
    cases Text.lines s with
    | nil => rfl
    | cons line rest => exact Nat.zero_min _
  have hs : (Text.lines s).flatten = s := Text.flatten_linesBy Text.isBoundary s
  rw [splice_eq_spots (by simp) (by simp) (by simp) (by simp) (by simp), Position.spot,
    Position.spot]
  simp only [Int.toNat_zero, Int.toNat_natCast]
  rw [hstart, spot_of_length_le h, hs, List.take_zero, List.drop_length, List.nil_append,
    List.append_nil]

/-- The edit has the text `new`, and applied to a document that holds `old`, it leaves the document
with this text and changes nothing else of it. -/
def Rewrites (edit : Value) (old new : String) : Prop :=
  edit.item "newText" = .ok (.str new) ∧ ∃ range, edit.item "range" = .ok range ∧
    ∀ (fs : Files) (d : Document), d.read fs = .ok old →
      d.change fs (.object [("range", range), ("text", .str new)]) =
        .ok { d with source := .text new }

theorem rewrites_wholeEdit {n : Nat} {old : String} (h : lineCount old ≤ n) (new : String) :
    Rewrites (wholeEdit n new) old new := by
  refine ⟨rfl, _, rfl, fun fs d hread => ?_⟩
  have hsent : Change.SentAs ⟨some ⟨⟨0, 0⟩, ⟨n, 0⟩⟩, new.toList⟩ (.object
      [("range", .range (.position 0 (.int 0)) (.position n (.int 0))), ("text", .str new)]) :=
    ⟨by rw [String.ofList_toList]; rfl, _, rfl, rfl, rfl⟩
  rw [change_of_sentAs hread hsent]
  show Except.ok { d with source := .text (String.ofList (splice _ new.toList old.toList)) } = _
  rw [splice_whole h, String.ofList_toList]

/-- A text that can be read can be read whatever the fault would be. -/
theorem readOr_of_read {fs : Files} {d : Document} {s : String} (h : d.read fs = .ok s)
    (fault : Fault) : d.readOr fault fs = .ok s := by
  cases hd : d.source with
  | file | text =>
    simp only [read, readOr, hd] at h ⊢
    exact h
  | other => simp [read, readOr, hd] at h

end Document

/-! ## Formatters -/

/-- The plugins that format. -/
inductive Formatter where
  | autopep8
  | yapf
  deriving DecidableEq

namespace Formatter

open Document Text

def toPlugin : Formatter → Plugin
  | autopep8 => .autopep8
  | yapf => .yapf

/-- What the formatter's engine answers: none if it has nothing to change. -/
def answer : Formatter → Engines → Reply (Option String)
  | autopep8, engines => engines.mended
  | yapf, engines => engines.reformatted

/-- The text that a request gives to the formatter's engine. -/
def given? : Formatter → Request → Option String
  | autopep8, .mend source _ => some source
  | yapf, .reformat source .. => some source
  | _, _ => none

/-- What comes of formatting a document that holds `source`. The engine was asked once, about a
text with line ends that it knows. If it has something to change, the answer `v` is one edit;
autopep8 compares for itself. -/
def Formatted (f : Formatter) (source : String) (desk desk' : Desk) (v : Value) : Prop :=
  ∃ q given new?,
    desk'.host.asked = desk.host.asked ++ [q] ∧ f.given? q = some given ∧
    given = (if ReturnFirst source.toList then exchange '\r' '\n' source else source) ∧
    f.answer desk.host.engines = .ok new? ∧
    (v = .list [] ∧ (new? = none ∨ f = autopep8 ∧ new? = some given) ∨
      ∃ new edit, new? = some new ∧ v = .list [edit] ∧
        Rewrites edit source (if ReturnFirst source.toList then exchange '\n' '\r' new else new))

theorem exists_edits (source new : String) :
    ∃ edit, Format.edits source new = .list [edit] ∧
      Rewrites edit source (if ReturnFirst source.toList then exchange '\n' '\r' new else new) := by
  refine ⟨_, rfl, ?_⟩
  rw [Format.ofList_restore]
  exact rewrites_wholeEdit (Nat.le_refl _) _

theorem ensures_autopep8_formatted (c : Caller) (lines : Option (Int × Int)) {desk : Desk}
    {source : String} (hsource : Format.textAt desk = .ok source) :
    Ensures (Format.autopep8 c lines) desk (fun v t => Formatted autopep8 source desk t v)
      fun _ _ => True := by
  unfold Format.autopep8
  refine ((Format.ensures_options_cache c desk).and (Format.moves_options c desk)).bind ?_
    fun _ _ _ => trivial
  rintro opts t ⟨⟨cache, hcache⟩, hmoves⟩
  obtain ⟨htext, -, -⟩ := Format.textAt_of_consult hmoves
  simp only [Format.borrowCheck, ensures_bind, ensures_get]
  split
  · rw [ensures_set, Format.ensures_sourceOr]
    refine ⟨fun text htext' => ?_, fun _ _ => trivial⟩
    obtain rfl : text = source := Except.ok.inj (htext'.symm.trans (htext.trans hsource))
    simp only [Job.ask, Host.ask, ensures_liftJob, ensures_modify, Job.engines, ensures_bind,
      ensures_get, ensures_pure, ensures_liftExcept, Format.returnCheck, if_true, ensures_set]
    refine ⟨fun new? hnew => ?_, fun _ _ => trivial⟩
    rw [hcache] at hnew
    refine ⟨_, _, new?, by rw [hcache], rfl, Format.ofList_prepare text, hnew, ?_⟩
    cases new? with
    | none => exact .inl ⟨if_pos rfl, .inl rfl⟩
    | some new =>
      rw [Option.getD_some]
      split
      · next h => exact .inl ⟨rfl, .inr ⟨rfl, congrArg some h⟩⟩
      · obtain ⟨edit, hedit, hrewrites⟩ := exists_edits text new
        exact .inr ⟨new, edit, rfl, hedit, hrewrites⟩
  · trivial

theorem ensures_yapf_formatted (lines : Option (Int × Int)) {desk : Desk} {source : String}
    (hsource : Format.textAt desk = .ok source) :
    Ensures (Format.yapf lines) desk (fun v t => Formatted yapf source desk t v)
      fun _ _ => True := by
  rw [Format.yapf, ensures_bind, Format.ensures_sourceOr]
  refine ⟨fun text htext => ?_, fun _ _ => trivial⟩
  obtain rfl : text = source := Except.ok.inj (htext.symm.trans hsource)
  simp only [Job.document, ensures_bind, ensures_get]
  split
  · simp only [Job.ask, Host.ask, ensures_pure, ensures_bind, ensures_liftJob, ensures_modify,
      Job.engines, ensures_get, ensures_liftExcept]
    refine ⟨fun new? hnew => ?_, fun _ _ => trivial⟩
    cases new? with
    | none =>
      exact ⟨_, _, none, rfl, rfl, Format.ofList_prepare text, hnew, .inl ⟨rfl, .inl rfl⟩⟩
    | some new =>
      obtain ⟨edit, hedit, hrewrites⟩ := exists_edits text new
      exact ⟨_, _, some new, rfl, rfl, Format.ofList_prepare text, hnew,
        Or.inr ⟨new, edit, rfl, hedit, hrewrites⟩⟩
  · trivial

/-- **A formatter gives at most one edit**, whatever it is asked to format. -/
theorem formatted_of_implementation? (f : Formatter) {c : Caller} {hook : Hook} {job : Job Value}
    (hjob : Hook.implementation? c f.toPlugin hook = some job) {desk : Desk} {d : Document}
    (hd : desk.document = some d) {source : String}
    (hread : d.read desk.host.machine.files = .ok source) :
    Ensures job desk (fun v t => Formatted f source desk t v) fun _ _ => True := by
  have hsource : Format.textAt desk = .ok source := by
    rw [Format.textAt, hd]
    exact Document.readOr_of_read hread .mismatch
  have hrange : ∀ {range : Value} {format : Option (Int × Int) → Job Value},
      (∀ lines, Ensures (format lines) desk (fun v t => Formatted f source desk t v)
        fun _ _ => True) →
      Ensures (do format (some (← liftExcept (Format.linesOf range)))) desk
        (fun v t => Formatted f source desk t v) fun _ _ => True := by
    intro range format hformat
    rw [ensures_bind, ensures_liftExcept]
    exact ⟨fun lines _ => hformat (some lines), fun _ _ => trivial⟩
  cases f with
  | autopep8 =>
    cases hook <;> cases hjob
    · exact ensures_autopep8_formatted c none hsource
    · exact hrange fun lines => ensures_autopep8_formatted c lines hsource
  | yapf =>
    cases hook <;> cases hjob
    · exact ensures_yapf_formatted none hsource
    · exact hrange fun lines => ensures_yapf_formatted lines hsource

end Formatter

theorem ensures_bind_of_moves {α β : Type} {x : Job α} (hx : Moves (Desk.Along Host.Work) x)
    {f : α → Job β} {h : Host} {desk : Desk} {good : β → Desk → Prop}
    (hsame : h.Intact desk.host)
    (hf : ∀ a t, h.Intact t.host → Ensures (f a) t good fun _ _ => True) :
    Ensures (x >>= f) desk good fun _ _ => True := by
  refine hx.ensures_bind .refl (fun a t ht => hf a t ?_) fun _ _ _ => trivial
  exact hsame.trans (Host.intact_of_steps (Desk.host_of_along ht))

/-! ## Renames -/

namespace Refactoring

open Document Host Job

/-- The change names the file with this path and has one edit, which gives the file the text `new`
whichever of the texts `fits` it held before. -/
def RewritesFile (m : Machine) (path : String) (fits : String → Prop) (new : String)
    (change : Value) : Prop :=
  ∃ uri document edit, m.uriOf path = .ok uri ∧ change.item "textDocument" = .ok document ∧
    document.item "uri" = .ok (.str uri) ∧ change.item "edits" = .ok (.list [edit]) ∧
    ∀ old, fits old → Rewrites edit old new

theorem rewritesFile_documentChange {m : Machine} {w : Workspace} {path : String} {lines : Nat}
    {new : String} {change : Value} (h : documentChange m w path lines new = .ok change) :
    RewritesFile m path (fun old => lineCount old ≤ lines) new change := by
  rw [documentChange] at h
  obtain ⟨uri, huri, hchange⟩ := exists_of_bind_eq_ok h
  obtain rfl := Except.ok.inj hchange
  exact ⟨uri, _, _, huri, rfl, rfl, rfl, fun old hold => rewrites_wholeEdit hold new⟩

theorem ensures_mapM_liftExcept {ε σ α β : Type} (f : α → Except ε β) (xs : List α) (s : σ) :
    Ensures (xs.mapM fun x => (liftExcept (f x) : EStateM ε σ β)) s
      (fun ys _ => List.Forall₂ (fun x y => f x = .ok y) xs ys) fun _ _ => True := by
  induction xs with
  | nil => exact .nil
  | cons x xs ih =>
    simp only [List.mapM_cons, ensures_bind, ensures_liftExcept, ensures_pure]
    refine ⟨fun y hy => ih.imp (fun ys _ hys => .cons hy hys), fun _ _ => trivial⟩

theorem ensures_changes {α : Type} (path new : α → String) (lines : α → Nat) (n : Nat)
    (files : List α) (desk : Desk) :
    Ensures (do
        let m ← Job.machine
        let w ← Host.space n
        return documentChanges (← files.mapM fun f =>
          liftExcept (documentChange m w (path f) (lines f) (new f))) : Job Value) desk
      (fun v _ => ∃ changes, v = documentChanges changes ∧ List.Forall₂ (fun f change =>
        RewritesFile desk.host.machine (path f) (fun old => lineCount old ≤ lines f) (new f) change)
          files changes)
      fun _ _ => True := by
  simp only [Job.machine, ensures_bind, ensures_get, ensures_pure, ensures_liftJob,
    Host.ensures_space]
  refine ⟨fun w _ => ?_, fun _ => trivial⟩
  refine (ensures_mapM_liftExcept _ files _).mono (fun changes _ h => ?_) fun _ _ _ => trivial
  exact ⟨changes, rfl, h.imp fun _ _ hx => rewritesFile_documentChange hx⟩

theorem ensures_renameByAnalysis (c : Caller) (position name : Value) (desk : Desk) :
    Ensures (renameByAnalysis c position name) desk
      (fun v _ => ∃ files changes, desk.host.engines.renamed = .ok files ∧
        v = documentChanges changes ∧ List.Forall₂ (fun (f : String × String) change =>
          RewritesFile desk.host.machine f.1 (fun old => lineCount old ≤ lineCount f.2) f.2 change)
            files changes)
      fun _ _ => True := by
  refine ensures_bind_of_moves moves_document (.refl _) fun d t hsame => ?_
  refine ensures_bind_of_moves moves_files hsame fun fs t hsame => ?_
  refine ensures_bind_of_moves (Moves.ofExcept _) hsame fun _ t hsame => ?_
  refine ensures_bind_of_moves (Engine.moves_place position) hsame fun place t hsame => ?_
  rw [ensures_bind]
  refine ensures_tryCatch ((Engine.ensures_query _ _ _ _ _).mono ?_ ?_)
  · rintro files t' ⟨hfiles, hsteps⟩
    have hsame' := Host.intact_of_steps (Desk.host_of_along hsteps)
    refine (ensures_changes Prod.fst Prod.snd (fun f => lineCount f.2) c.space files t').imp ?_
    rintro v _ ⟨changes, rfl, hchanges⟩
    rw [hsame.engines] at hfiles
    rw [hsame'.machine, hsame.machine] at hchanges
    exact ⟨files, changes, hfiles, rfl, hchanges⟩
  · intro f t' _
    cases f <;> trivial

theorem ensures_renameByRefactoring (c : Caller) (position name : Value) (desk : Desk) :
    Ensures (renameByRefactoring c position name) desk
      (fun v _ => ∃ files changes, desk.host.engines.changes = .ok files ∧
        v = documentChanges changes ∧ List.Forall₂ (fun (f : FileChange) change =>
          RewritesFile desk.host.machine f.path (· = f.old) f.new change) files changes)
      fun _ _ => True := by
  refine ensures_bind_of_moves (moves_settings c) (.refl _) fun _ t hsame => ?_
  refine ensures_bind_of_moves (moves_ensureProject _ _).liftJob hsame fun _ t hsame => ?_
  refine ensures_bind_of_moves moves_checkResource hsame fun _ t hsame => ?_
  refine ensures_bind_of_moves moves_document hsame fun d t hsame => ?_
  refine ensures_bind_of_moves moves_files hsame fun fs t hsame => ?_
  refine ensures_bind_of_moves (Moves.ofExcept _) hsame fun offset t hsame => ?_
  refine ensures_bind_of_moves (Engine.moves_ask _) hsame fun _ t hsame => ?_
  refine ensures_bind_of_moves moves_files hsame fun fs t hsame => ?_
  refine ensures_bind_of_moves (Moves.ofExcept _) hsame fun _ t hsame => ?_
  refine ensures_bind_of_moves (Engine.moves_ask _) hsame fun _ t hsame => ?_
  rw [ensures_bind, Job.engines, ensures_bind, ensures_get, ensures_pure, ensures_bind,
    ensures_liftExcept]
  refine ⟨fun files hfiles => ?_, fun _ _ => trivial⟩
  refine (ensures_changes FileChange.path FileChange.new (fun f => lineCount f.old) c.space files
    t).imp ?_
  rintro v _ ⟨changes, rfl, hchanges⟩
  rw [hsame.engines] at hfiles
  rw [hsame.machine] at hchanges
  refine ⟨files, changes, hfiles, rfl, hchanges.imp ?_⟩
  rintro f change ⟨uri, document, edit, huri, hdocument, hnamed, hedits, hrewrites⟩
  refine ⟨uri, document, edit, huri, hdocument, hnamed, hedits, ?_⟩
  rintro old rfl
  exact hrewrites _ (Nat.le_refl _)

end Refactoring

/-! ## The edits of every plugin -/

/-- **Applied back, an edit gives exactly the new text.** When a formatter succeeds, it has asked
its engine once, about the text of the document with line ends that the engine knows, and its answer
is empty, or one edit that leaves the document with what the engine answered in the document's own
line ends. When a rename succeeds, it has one edit for each file that the engine names, in order:
it leaves a document that holds the old text with the new one. The analysis engine does not tell
the old text; there the edit fits every text that has no more lines than the new one. -/
theorem edit_gives_new_text {c : Caller} {job : Job Value} {desk desk' : Desk} {v : Value}
    (hrun : job desk = .ok v desk') :
    (∀ (f : Formatter) (hook : Hook) (d : Document) (source : String),
      Hook.implementation? c f.toPlugin hook = some job → desk.document = some d →
        d.read desk.host.machine.files = .ok source → f.Formatted source desk desk' v) ∧
    (∀ position name : Value,
      Hook.implementation? c .ropeRename (.rename position name) = some job →
        ∃ files changes, desk.host.engines.changes = .ok files ∧
          v = Refactoring.documentChanges changes ∧ List.Forall₂ (fun (f : FileChange) change =>
            Refactoring.RewritesFile desk.host.machine f.path (· = f.old) f.new change)
            files changes) ∧
    (∀ position name : Value,
      Hook.implementation? c .jediRename (.rename position name) = some job →
        ∃ files changes, desk.host.engines.renamed = .ok files ∧
          v = Refactoring.documentChanges changes ∧
          List.Forall₂ (fun (f : String × String) change =>
              Refactoring.RewritesFile desk.host.machine f.1
                (fun old => Document.lineCount old ≤ Document.lineCount f.2) f.2 change)
            files changes) := by
  refine ⟨fun f hook d source hjob hd hread => ?_, fun position name hjob => ?_,
    fun position name hjob => ?_⟩
  · exact (Formatter.formatted_of_implementation? f hjob hd hread).ok hrun
  · obtain rfl := Option.some_inj.1 hjob
    exact (Refactoring.ensures_renameByRefactoring c position name desk).ok hrun
  · obtain rfl := Option.some_inj.1 hjob
    exact (Refactoring.ensures_renameByAnalysis c position name desk).ok hrun

namespace Desk

/-- A document with a carriage return and a form feed and without a final line end, and engines that
change it. -/
def pages : Desk where
  host := { StyleCall.lone with engines := {
    mended := .ok (some "x = 1\n\x0cy\n"), reformatted := .ok (some "x = 1\n\x0cy\n")
    changes := .ok [⟨"/w/a.py", "x=1\r\x0cy", "z=1\r\x0cy"⟩]
    renamed := .ok [("/w/a.py", "z=1\r\x0cy")] } }
  document := some { uri := "file:///w/a.py", path := "/w/a.py", dotName := "a", filename := "a.py"
                     source := .text "x=1\r\x0cy" }

/-- The start of a document. -/
def origin : Value := .position 0 (.int 0)

theorem edits_of_pages :
    (∀ f : Formatter, ∃ job v desk',
      Hook.implementation? ⟨0, 0⟩ f.toPlugin .formatDocument = some job ∧
        job pages = .ok v desk' ∧ f.Formatted "x=1\r\x0cy" pages desk' v) ∧
    (∃ v desk', Refactoring.renameByRefactoring ⟨0, 0⟩ origin (.str "z") pages = .ok v desk' ∧
      ∃ change, v = Refactoring.documentChanges [change] ∧
        Refactoring.RewritesFile {} "/w/a.py" (· = "x=1\r\x0cy") "z=1\r\x0cy" change) ∧
    ∃ v desk', Refactoring.renameByAnalysis ⟨0, 0⟩ origin (.str "z") pages = .ok v desk' ∧
      ∃ change, v = Refactoring.documentChanges [change] ∧
        Refactoring.RewritesFile {} "/w/a.py" (fun old => Document.lineCount old ≤ 3) "z=1\r\x0cy"
          change := by
  refine ⟨fun f => ?_, ?_, ?_⟩
  · cases f with
    | autopep8 =>
      have hok : Ensures (Format.autopep8 ⟨0, 0⟩ none) pages (fun _ _ => True)
          fun _ _ => False := by
        decide +kernel
      obtain ⟨v, t, hrun, -⟩ := hok.exists_ok
      exact ⟨_, v, t, rfl, hrun, (edit_gives_new_text (c := ⟨0, 0⟩) hrun).1 .autopep8
        .formatDocument _ _ rfl rfl rfl⟩
    | yapf =>
      have hok : Ensures (Format.yapf none) pages (fun _ _ => True) fun _ _ => False := by
        decide +kernel
      obtain ⟨v, t, hrun, -⟩ := hok.exists_ok
      exact ⟨_, v, t, rfl, hrun, (edit_gives_new_text (c := ⟨0, 0⟩) hrun).1 .yapf
        .formatDocument _ _ rfl rfl rfl⟩
  · have hok : Ensures (Refactoring.renameByRefactoring ⟨0, 0⟩ origin (.str "z")) pages
        (fun _ _ => True) fun _ _ => False := by
      decide +kernel
    obtain ⟨v, t, hrun, -⟩ := hok.exists_ok
    obtain ⟨files, changes, hfiles, rfl, hchanges⟩ :=
      (edit_gives_new_text (c := ⟨0, 0⟩) hrun).2.1 origin (.str "z") rfl
    obtain rfl := Except.ok.inj hfiles
    obtain ⟨change, _, hchange, hnil, rfl⟩ := List.forall₂_cons_left_iff.1 hchanges
    obtain rfl := List.forall₂_nil_left_iff.1 hnil
    exact ⟨_, t, hrun, change, rfl, hchange⟩
  · have hok : Ensures (Refactoring.renameByAnalysis ⟨0, 0⟩ origin (.str "z")) pages
        (fun _ _ => True) fun _ _ => False := by
      decide +kernel
    obtain ⟨v, t, hrun, -⟩ := hok.exists_ok
    obtain ⟨files, changes, hfiles, rfl, hchanges⟩ :=
      (edit_gives_new_text (c := ⟨0, 0⟩) hrun).2.2 origin (.str "z") rfl
    obtain rfl := Except.ok.inj hfiles
    obtain ⟨change, _, hchange, hnil, rfl⟩ := List.forall₂_cons_left_iff.1 hchanges
    obtain rfl := List.forall₂_nil_left_iff.1 hnil
    exact ⟨_, t, hrun, change, rfl, hchange⟩

end Desk
end LangServer
