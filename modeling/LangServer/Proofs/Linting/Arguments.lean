import LangServer.Proofs.Linting.Ignores

/-!
# What flake8 is told to ignore

A request is answered, and flake8 told to ignore some codes (`LintCall.Ignores`), by what is on the
command line: where flake8 can be run at all, `LintCall.ignores_iff` says which codes these are.
-/

namespace LangServer

/-! ## Running flake8 -/

namespace Lint

/-- Is the program of a command missing? -/
def isMissing (engines : Engines) : List Value → Bool
  | .str program :: _ => engines.missingPrograms.contains program
  | _ => false

/-- The requests that start a program, or else another one. -/
def starts (engines : Engines) (command otherwise : List Value) : List Request :=
  if isMissing engines command then [.start command, .start otherwise] else [.start command]

section

variable {h : Host} {command otherwise : List Value}

theorem isMissing_cons (engines : Engines) (program : Value) (args : List Value) :
    isMissing engines (program :: args) = isMissing engines [program] := by
  cases program <;> rfl

theorem ensures_start (h : Host) (command : List Value) :
    Ensures (start command) h
      (fun _ h' => isMissing h.engines command = false ∧
        h' = { h with asked := h.asked ++ [.start command] })
      fun f h' => isMissing h.engines command = true ∧ (∃ program, f = .noFile program) ∧
        h' = { h with asked := h.asked ++ [.start command] } := by
  unfold start
  rw [ensures_bind, Host.ask, ensures_modify]
  split
  · next program rest =>
    rw [ensures_bind, ensures_get]
    split
    · next hmissing => exact ⟨hmissing, ⟨program, rfl⟩, rfl⟩
    · next hthere => exact ⟨eq_false_of_ne_true hthere, rfl⟩
  · next hnot =>
    refine ⟨?_, rfl⟩
    unfold isMissing
    split
    · exact absurd rfl (hnot _ _)
    · rfl

theorem ensures_startOr (h : Host) (hstarts : isMissing h.engines command = false ∨
      isMissing h.engines otherwise = false) :
    Ensures (startOr command otherwise) h
      (fun _ h' => h' = { h with asked := h.asked ++ starts h.engines command otherwise })
      fun _ _ => False := by
  refine ensures_tryCatch ((ensures_start h command).mono ?_ ?_)
  · rintro _ h' ⟨hthere, rfl⟩
    rw [starts, hthere, if_neg Bool.false_ne_true]
  · rintro f h' ⟨hmissing, ⟨program, rfl⟩, rfl⟩
    refine (ensures_start _ otherwise).mono ?_ ?_
    · rintro _ h' ⟨-, rfl⟩
      rw [starts, if_pos hmissing]
      simp
    · rintro _ h' ⟨hmissing', -⟩
      rcases hstarts with hthere | hthere
      · rw [hmissing] at hthere
        cases hthere
      · rw [hthere] at hmissing'
        cases hmissing'

end

namespace Flake8

/-- What is asked when flake8 is run: it is started and fed the document. -/
def requests (engines : Engines) (path : Value) (args : List Value) (source : String) :
    List Request :=
  starts engines (path :: args) ([.str "python", .str "-m", .str "flake8"] ++ args) ++
    [.feed source]

theorem start_mem_requests (engines : Engines) (path : Value) (args : List Value)
    (source : String) :
    Request.start (path :: args) ∈ requests engines path args source := by
  rw [requests, starts]
  split <;> simp

/-- However flake8 is started, its arguments give it the same codes. -/
theorem filter_of_mem_requests {engines : Engines} {path : Value} {args command : List Value}
    {source : String} (h : Request.start command ∈ requests engines path args source) :
    command.tail.filter isIgnoring = args.filter isIgnoring := by
  have hcommand : command = path :: args ∨
      command = [.str "python", .str "-m", .str "flake8"] ++ args := by
    rw [requests, starts] at h
    split at h <;> simp at h
    · exact h
    · exact .inl h
  rcases hcommand with rfl | rfl
  · rfl
  · exact (List.filter_cons_of_neg (by decide)).trans (List.filter_cons_of_neg (by decide))

theorem ensures_runOn {desk : Desk} {d : Document} {program path : Value}
    {args cleaned : List Value} {source : String} (hd : desk.document = some d)
    (hclean : cleanArguments args = .ok cleaned)
    (hpath : executable desk.host.machine.files program = .ok path)
    (hstarts : isMissing desk.host.engines [path] = false ∨
      isMissing desk.host.engines [.str "python"] = false)
    (hsource : d.read desk.host.machine.files = .ok source) :
    Ensures (runOn program args) desk
      (fun out desk' => out = desk.host.engines.program.out ∧
        desk'.host.machine = desk.host.machine ∧
        desk'.host.asked = desk.host.asked ++ requests desk.host.engines path cleaned source)
      fun _ _ => False := by
  have hboth : isMissing desk.host.engines (path :: cleaned) = false ∨
      isMissing desk.host.engines ([.str "python", .str "-m", .str "flake8"] ++ cleaned) =
        false := by
    rwa [isMissing_cons, List.cons_append, isMissing_cons]
  rw [runOn, hclean, ensures_bind, ensures_liftExcept_ok, ensures_bind, Job.files, ensures_bind,
    ensures_get, ensures_pure, hpath, ensures_bind, ensures_liftExcept_ok, run, ensures_bind,
    ensures_liftJob]
  refine (ensures_startOr desk.host hboth).imp ?_
  rintro _ _ rfl
  simp only [Job.source, Job.sourceOr, Job.document, Job.files, Job.ask, Job.engines, Host.ask,
    ensures_bind, ensures_get, ensures_pure, ensures_liftJob, ensures_modify, hd]
  rw [Document.read] at hsource
  rw [hsource, ensures_liftExcept_ok]
  exact ⟨rfl, rfl, List.append_assoc _ _ _⟩

theorem ensures_prepare_aside (h : Host) (home : Nat) (path : String) :
    Ensures (prepare home path) h (fun _ h' => h.Aside h') fun _ h' => h.Aside h' := by
  have hgrow : ∀ n query codes, Moves Host.Aside (Host.extendIgnores n query codes) :=
    fun n query codes h => (Host.ensures_extendIgnores_aside h n query codes).mono
      (fun _ _ => .single) fun _ _ => .single
  rw [prepare]
  refine (Host.ensures_pluginSettings_cache h home "flake8" (.str path)).bind ?_ ?_
  · rintro settings _ ⟨cache, rfl⟩
    have hrest := (moves_ignored hgrow home path settings).bind
      fun ignores => Moves.ofExcept (commandLine settings ignores)
    have hcache : h.Aside { h with cache } := ⟨_, _, rfl⟩
    exact (hrest { h with cache }).mono (fun _ _ hsteps => .of_steps (.head hcache hsteps))
      fun _ _ hsteps => .of_steps (.head hcache hsteps)
  · rintro _ _ ⟨cache, rfl⟩
    exact ⟨_, _, rfl⟩

end Flake8
end Lint

namespace LintCall

open Lint Lint.Flake8

/-- The request is answered, and flake8 is started with just these codes to ignore. -/
def Ignores (h : Host) (r : LintCall) (codes : List String) : Prop :=
  ∃ found asked, r.outcome h = (.ok found, asked) ∧ (∃ command, .start command ∈ asked) ∧
    ∀ command, Request.start command ∈ asked → command.tail.filter isIgnoring = ignoring codes

/-- With the other settings flake8 can be run on the document: it has a command line, the program or
the interpreter is there, the document can be read and so can what flake8 prints. -/
structure CanRun (h : Host) (r : LintCall) (settings : Value) : Prop where
  starts : ∃ program args path, commandLine settings .null = .ok (program, args) ∧
    executable h.machine.files program = .ok path ∧
    (isMissing r.engines [path] = false ∨ isMissing r.engines [.str "python"] = false)
  readable : ∃ source, r.document.read h.machine.files = .ok source
  printed : ∃ found,
    diagnostics (r.document.lines h.machine.files) r.engines.program.out = .ok found

variable {h : Host} {r : LintCall} {settings : Value} {actual expected : List String}

/-- **What comes of a request** whose command line is known. -/
theorem outcome_of_command (hh : h.Coherent) {program path : Value} {args cleaned : List Value}
    {source : String} {found : List Diagnostic}
    (hcommand : commandOf h r.caller.space r.document.path = .ok (program, args))
    (hclean : cleanArguments args = .ok cleaned)
    (hpath : executable h.machine.files program = .ok path)
    (hstarts : isMissing r.engines [path] = false ∨ isMissing r.engines [.str "python"] = false)
    (hsource : r.document.read h.machine.files = .ok source)
    (hfound : diagnostics (r.document.lines h.machine.files) r.engines.program.out = .ok found) :
    r.outcome h = (.ok found, requests r.engines path cleaned source) := by
  have hcoherent : ({ h with engines := r.engines } : Host).Coherent := ⟨hh.eq_of_id, hh.settled⟩
  have hlint : Ensures (lint r.caller) (r.deskAt h)
      (fun found' desk => found' = found ∧
        desk.host.asked = h.asked ++ requests r.engines path cleaned source)
      fun _ _ => False := by
    rw [ensures_lint_iff]
    refine ((ensures_prepare_of_coherent hcoherent _ _).and
      (ensures_prepare_aside _ _ _)).mono ?_ ?_
    · rintro x _ ⟨hx, spaces, cache, rfl⟩
      obtain rfl := Except.ok.inj (hcommand.symm.trans hx)
      refine (ensures_runOn rfl hclean hpath hstarts hsource).bind ?_ fun _ _ hfalse => hfalse
      rintro _ desk ⟨rfl, hmachine, hasked⟩
      rw [ensures_bind, Job.files, ensures_bind, ensures_get, ensures_pure, hmachine, hfound,
        ensures_liftExcept_ok]
      exact ⟨rfl, hasked⟩
    · rintro f _ ⟨hf, -⟩
      cases hcommand.symm.trans hf
  obtain ⟨_, desk, hrun, rfl, hasked⟩ := hlint.exists_ok
  rw [outcome, hrun]
  dsimp only
  rw [hasked, List.drop_left]

theorem not_ignores_of_error (hh : h.Coherent) {f : Fault}
    (hcommand : commandOf h r.caller.space r.document.path = .error f) :
    ¬ r.Ignores h expected := by
  rintro ⟨found, asked, houtcome, -⟩
  have hcoherent : ({ h with engines := r.engines } : Host).Coherent := ⟨hh.eq_of_id, hh.settled⟩
  have hlint : Ensures (lint r.caller) (r.deskAt h) (fun _ _ => False) fun _ _ => True := by
    rw [ensures_lint_iff]
    refine (ensures_prepare_of_coherent hcoherent _ _).mono ?_ fun _ _ _ => trivial
    intro x _ hx
    cases hcommand.symm.trans hx
  rw [outcome] at houtcome
  cases hrun : lint r.caller (r.deskAt h) with
  | ok found' desk => exact hlint.ok hrun
  | error f desk =>
    rw [hrun] at houtcome
    cases houtcome

/-- **Which codes flake8 is told to ignore**: those that were found, if no code has a semicolon in
it. -/
theorem ignores_iff (hh : h.Coherent)
    (hsettings : h.settingsOf r.caller.space "flake8" (.str r.document.path) = .ok settings)
    (hrun : r.CanRun h settings)
    (hcodes : ignoredCodes r.document.path settings = .ok (.list (actual.map .str)))
    (hsub : actual.Sublist expected) :
    r.Ignores h expected ↔ actual = expected ∧ ∀ code ∈ expected, ';' ∉ code.toList := by
  obtain ⟨program, args, path, hother, hpath, hstarts⟩ := hrun.starts
  obtain ⟨source, hsource⟩ := hrun.readable
  obtain ⟨found, hfound⟩ := hrun.printed
  obtain ⟨first, last, hplain, hparts⟩ := exists_parts hother
  obtain ⟨cleaned, hclean, hfilter⟩ := exists_cleanArguments hplain actual
  have hcommand : commandOf h r.caller.space r.document.path =
      .ok (program, first ++ (ignoring actual ++ last)) := by
    rw [commandOf, hsettings, ok_bind, hcodes, ok_bind, hparts]
  have houtcome := outcome_of_command hh hcommand hclean hpath hstarts hsource hfound
  rw [← filter_ignoring_eq_iff hsub, ← hfilter]
  constructor
  · rintro ⟨found', asked, houtcome', -, hall⟩
    obtain ⟨-, rfl⟩ := Prod.mk.inj (houtcome.symm.trans houtcome')
    have hstarted := start_mem_requests r.engines path cleaned source
    exact (filter_of_mem_requests hstarted).symm.trans (hall _ hstarted)
  · intro hall
    exact ⟨found, _, houtcome, ⟨_, start_mem_requests _ _ _ _⟩,
      fun command hcommand => (filter_of_mem_requests hcommand).trans hall⟩

end LintCall
end LangServer
