import LangServer.Proofs.Session.Runs

/-!
# Does the style checker get its check back?

While autopep8 formats, its own version of a check stands in the style checker's table. It is put
there after the options were read, and it is taken out after the formatter has answered. If the
text of the document cannot be read, or if the formatter fails, nobody takes it out: the request
*strands* the check (`StyleCall.Strands`).

* A request leaves the table as it should be just if it does not strand the check
  (`StyleCall.step_cases`).
* Once the check is stranded, it stays so, and from then on every request to autopep8 fails before
  the formatter is asked (`StyleCall.stranded_step`).
* A request to autopep8 or to the style checker makes a difference to later ones just if it strands
  the check.
-/

namespace LangServer

open Relation

/-- The table while the formatter's check stands in it. -/
def CheckTable.borrowed : CheckTable := { own := false, formatters := true }

/-! ## What leaves the table alone -/

theorem Host.Consult.checks {h h' : Host} (hstep : h.Consult h') : h'.checks = h.checks := by
  cases hstep <;> rfl

theorem Host.Amend.checks {h h' : Host} (hstep : h.Amend h') : h'.checks = h.checks := by
  cases hstep with
  | consulted hstep => exact hstep.checks
  | grown hrun =>
    obtain ⟨spaces, cache, rfl⟩ := exists_of_extendIgnores hrun
    rfl

theorem Host.Touch.checks {h h' : Host} (hstep : h.Touch h') : h'.checks = h.checks := by
  cases hstep with
  | amended hstep => exact hstep.checks
  | found => rfl

theorem Host.checks_of_touch {h h' : Host} (hsteps : ReflTransGen Touch h h') :
    h'.checks = h.checks := by
  induction hsteps with
  | refl => rfl
  | tail _ hstep ih => exact hstep.checks.trans ih

theorem Host.agree_of_consult {h h' : Host} (hh : h.Coherent) (hsteps : ReflTransGen Consult h h') :
    Agree h.asked h'.asked h h' := by
  have hsame : h' = { h with cache := h'.cache, asked := h'.asked } ∧ h'.Coherent := by
    induction hsteps with
    | refl => exact ⟨rfl, hh⟩
    | tail _ hstep ih =>
      obtain ⟨heq, hcoherent⟩ := ih
      cases hstep with
      | asked => exact ⟨by rw [heq], hcoherent.eq_of_id, hcoherent.settled⟩
      | settled hc query => exact ⟨by rw [heq], (hcoherent.recalled_fetch hc query).coherent⟩
  exact ⟨hsame.1, ⟨[], by simp, by simp⟩, hh, hsame.2⟩

namespace Format

theorem moves_yapf (lines : Option (Int × Int)) : Moves (Desk.Along Host.Consult) (yapf lines) := by
  refine (Job.moves_sourceOr _).bind fun _ => Job.moves_document.bind fun _ => ?_
  refine (Job.moves_ask _).bind fun _ => Job.moves_engines.bind fun _ => ?_
  refine (Moves.ofExcept _).bind fun new => ?_
  cases new <;> exact Moves.pure _

theorem moves_options (c : Caller) : Moves (Desk.Along Host.Consult) (options c) :=
  Moves.get.bind fun _ => (Host.moves_pluginSettings _ _ _).liftJob.bind fun _ => Moves.ofExcept _

/-! ## autopep8 -/

/-- The text of the document at a desk. -/
def textAt (desk : Desk) : Except Fault String :=
  match desk.document with
  | some d => d.readOr .mismatch desk.host.machine.files
  | none => .error .noMember

theorem ensures_sourceOr (desk : Desk) (good : String → Desk → Prop) (bad : Fault → Desk → Prop) :
    Ensures (Job.sourceOr .mismatch) desk good bad ↔
      (∀ text, textAt desk = .ok text → good text desk) ∧
        ∀ f, textAt desk = .error f → bad f desk := by
  rw [Job.sourceOr, ensures_bind, Job.document, ensures_bind, ensures_get, textAt]
  cases desk.document with
  | none => simp
  | some d =>
    simp only [ensures_pure, Job.files, ensures_bind, ensures_get]
    exact ensures_liftExcept _ _ _ _

/-- The formatter can read its options, but then the text cannot be read, or the engine fails. -/
def Strands (c : Caller) (desk : Desk) : Prop :=
  (∃ opts t, options c desk = .ok opts t) ∧
    ((∃ f, textAt desk = .error f) ∨ ∃ f, desk.host.engines.mended = .error f)

theorem textAt_of_consult {desk t : Desk} (h : ReflTransGen (Desk.Along Host.Consult) desk t) :
    textAt t = textAt desk ∧ t.host.engines = desk.host.engines ∧
      t.host.checks = desk.host.checks := by
  induction h with
  | refl => exact ⟨rfl, rfl, rfl⟩
  | tail _ hstep ih =>
    obtain ⟨htext, hengines, hchecks⟩ := ih
    have hsame : ∀ {h h' : Host}, h.Consult h' →
        h'.machine = h.machine ∧ h'.engines = h.engines ∧ h'.checks = h.checks := by
      rintro h h' (_ | _) <;> exact ⟨rfl, rfl, rfl⟩
    obtain ⟨hm, he, hc⟩ := hsame hstep.host
    rw [← htext, ← hengines, ← hchecks, textAt, textAt, hstep.document, hm, he, hc]
    exact ⟨rfl, rfl, rfl⟩

theorem ensures_options_cache (c : Caller) (desk : Desk) :
    Ensures (options c) desk (fun _ t => ∃ cache, t.host = { desk.host with cache })
      fun _ t => ∃ cache, t.host = { desk.host with cache } := by
  simp only [options, ensures_bind, ensures_get, ensures_liftJob, ensures_liftExcept]
  refine (Host.ensures_pluginSettings_cache _ _ _ _).imp ?_
  intro settings h hcache
  exact ⟨fun _ _ => hcache, fun _ _ => hcache⟩

/-- **Formatting with the table as it should be**: it is so again in the end, or the check is
stranded. -/
theorem ensures_autopep8 (c : Caller) (lines : Option (Int × Int)) {desk : Desk}
    (hchecks : desk.host.checks = {}) :
    Ensures (autopep8 c lines) desk
      (fun v t => v.isNull = false ∧ ¬ Strands c desk ∧
        ReflTransGen (Desk.Along Host.Consult) desk t ∧ ∃ q, t.host.asked = desk.host.asked ++ [q])
      fun _ t => ¬ Strands c desk ∧ ReflTransGen (Desk.Along Host.Consult) desk t ∧
          (∀ opts t, options c desk ≠ .ok opts t) ∨
        Strands c desk ∧ t.host.checks = .borrowed := by
  unfold autopep8
  rw [ensures_bind, Ensures]
  cases hopts : options c desk with
  | error f t =>
    refine .inl ⟨?_, (moves_options c desk).error hopts, fun opts t' hok => nomatch hok⟩
    rintro ⟨⟨opts, t', hok⟩, -⟩
    cases hopts.symm.trans hok
  | ok opts t =>
    have hrun := (moves_options c desk).ok hopts
    obtain ⟨cache, hcache⟩ := (ensures_options_cache c desk).ok hopts
    obtain ⟨htext, hengines, htable⟩ := textAt_of_consult hrun
    rw [hchecks] at htable
    simp only [borrowCheck, ensures_bind, ensures_get, htable, if_true, ensures_set,
      ensures_sourceOr]
    have htext' : textAt { t with host := { t.host with checks := .borrowed } } = textAt desk :=
      htext
    refine ⟨fun source hsource => ?_, fun f hf => ?_⟩
    · simp only [Job.ask, Host.ask, ensures_liftJob, ensures_modify, Job.engines, ensures_bind,
        ensures_get, ensures_pure, ensures_liftExcept, hengines]
      refine ⟨fun answer hanswer => ?_, fun f hf => ?_⟩
      · simp only [returnCheck, ensures_bind, ensures_get, if_true, ensures_set]
        refine ⟨by split <;> rfl, ?_, ?_, ⟨_, by rw [hcache]⟩⟩
        · rintro ⟨-, ⟨f, hf⟩ | ⟨f, hf⟩⟩
          · cases hf.symm.trans (htext'.symm.trans hsource)
          · cases hf.symm.trans hanswer
        · have hstep := Host.Consult.asked t.host
          simp only [htable, hengines] at hstep
          exact hrun.tail ⟨rfl, hstep _⟩
      · exact .inr ⟨⟨⟨opts, t, hopts⟩, .inr ⟨f, hf⟩⟩, rfl⟩
    · exact .inr ⟨⟨⟨opts, t, hopts⟩, .inl ⟨f, htext'.symm.trans hf⟩⟩, rfl⟩

/-- **Formatting with a stranded check** fails, and the formatter is not asked. -/
theorem ensures_autopep8_of_borrowed (c : Caller) (lines : Option (Int × Int)) {desk : Desk}
    (hchecks : desk.host.checks = .borrowed) :
    Ensures (autopep8 c lines) desk (fun _ _ => False) fun _ t =>
      ∃ cache, t.host = { desk.host with cache } := by
  unfold autopep8
  refine (ensures_options_cache c desk).bind ?_ fun _ _ h => h
  rintro opts t ⟨cache, ht⟩
  have hown : t.host.checks.own = false := by
    rw [ht, hchecks]
    rfl
  simp only [borrowCheck, ensures_bind, ensures_get, hown, Bool.false_eq_true, if_false,
    ensures_throw]
  exact ⟨cache, ht⟩

/-! ## Two runs of the formatter -/

variable {before before' : List Request}

theorem agree_setChecks {h h' : Host} (ha : Host.Agree before before' h h') (checks : CheckTable) :
    Host.Agree before before' { h with checks } { h' with checks } := by
  refine ⟨?_, ha.asked, ⟨ha.coherent.eq_of_id, ha.coherent.settled⟩,
    ⟨ha.coherent'.eq_of_id, ha.coherent'.settled⟩⟩
  rw [ha.eq]

theorem steady_exchange {x : Job Unit} (ready : CheckTable → Bool) (checks : CheckTable)
    (hx : ∀ desk, x desk =
      if ready desk.host.checks then .ok () { desk with host := { desk.host with checks } }
      else .error (.missingKey (.str "continued_indentation")) desk) :
    Steady (Desk.Agree before before') x := by
  intro desk desk' hR
  have hsame : desk'.host.checks = desk.host.checks := by rw [hR.host.eq]
  rw [Alike, hx, hx, hsame]
  split
  · exact .inl ⟨_, _, _, rfl, rfl, hR.document, agree_setChecks hR.host _⟩
  · exact .inr ⟨_, _, _, rfl, rfl, hR⟩

theorem steady_borrowCheck : Steady (Desk.Agree before before') borrowCheck := by
  refine steady_exchange (·.own) .borrowed fun desk => ?_
  show (if _ then (_ : Job Unit) else _) desk = _
  split <;> rfl

theorem steady_returnCheck : Steady (Desk.Agree before before') returnCheck := by
  refine steady_exchange (·.formatters) {} fun desk => ?_
  show (if _ then (_ : Job Unit) else _) desk = _
  split <;> rfl

/-- The path of the document at a desk, as the formatter asks for its settings. -/
def pathAt (desk : Desk) : Value :=
  match desk.document with
  | some d => .str d.path
  | none => .null

theorem options_ok_iff {desk : Desk} (hh : desk.host.Coherent) (c : Caller) :
    (∃ opts t, options c desk = .ok opts t) ↔
      ∃ settings opts, desk.host.settingsOf c.config "pycodestyle" (pathAt desk) = .ok settings ∧
        optionsOf settings = .ok opts := by
  have hrun : Ensures (options c) desk
      (fun opts _ => ∃ settings,
        desk.host.settingsOf c.config "pycodestyle" (pathAt desk) = .ok settings ∧
          optionsOf settings = .ok opts)
      fun _ _ => ∀ settings opts,
        desk.host.settingsOf c.config "pycodestyle" (pathAt desk) = .ok settings →
          optionsOf settings ≠ .ok opts := by
    simp only [options, ensures_bind, ensures_get, ensures_liftJob, ensures_liftExcept]
    refine (Host.ensures_pluginSettings hh c.config "pycodestyle" (pathAt desk)).mono ?_ ?_
    · rintro settings t ⟨hsettings, -⟩
      refine ⟨fun opts hopts => ⟨settings, hsettings, hopts⟩,
        fun f hf settings' opts h' hopts => ?_⟩
      obtain rfl : settings = settings' := Except.ok.inj (hsettings.symm.trans h')
      cases hf.symm.trans hopts
    · rintro f t ⟨hf, -⟩ settings opts hsettings
      cases hf.symm.trans hsettings
  constructor
  · rintro ⟨opts, t, hok⟩
    obtain ⟨settings, hsettings, hopts⟩ := hrun.ok hok
    exact ⟨settings, opts, hsettings, hopts⟩
  · rintro ⟨settings, opts, hsettings, hopts⟩
    cases hdone : options c desk with
    | ok opts t => exact ⟨opts, t, rfl⟩
    | error f t => exact absurd hopts (hrun.error hdone settings opts hsettings)

theorem steady_options (c : Caller) : Steady (Desk.Agree before before') (options c) := by
  have hread : Steady (Desk.Agree before before') (do return pathAt (← get) : Job Value) := by
    refine Steady.read fun desk desk' hR => ?_
    rw [pathAt, pathAt, hR.document]
  exact hread.bind fun path => (Steady.pluginSettings c.config "pycodestyle" path).liftJob.bind
    fun settings => Steady.ofExcept (optionsOf settings)

theorem steady_autopep8 (c : Caller) (lines : Option (Int × Int)) :
    Steady (Desk.Agree before before') (autopep8 c lines) := by
  unfold autopep8
  refine (steady_options c).bind fun opts => steady_borrowCheck.bind fun _ => ?_
  refine (Steady.sourceOr _).bind fun source => (Steady.ask _).bind fun _ => ?_
  refine Steady.engines.bind fun engines => (Steady.ofExcept _).bind fun answer => ?_
  exact steady_returnCheck.bind fun _ => Steady.pure _

end Format

theorem Lint.Pycodestyle.steady_lint {before before' : List Request} (c : Caller) :
    Steady (Desk.Agree before before') (Lint.Pycodestyle.lint c) := by
  refine Steady.document.bind fun d => (Steady.pluginSettings _ _ _).liftJob.bind fun _ => ?_
  refine (Steady.ofExcept _).bind fun _ => (Steady.ask _).bind fun _ => ?_
  refine Steady.engines.bind fun _ => (Steady.ofExcept _).bind fun _ =>
    Steady.lines.bind fun _ => ?_
  exact (Steady.ofExcept _).bind fun _ => (Steady.mapM (fun _ => Steady.ofExcept _) _).bind fun _ =>
    Steady.pure _

/-! ## Requests -/

/-- What is asked for. -/
inductive StyleTask where
  | format
  | formatRange (range : Value)
  | lint (isSaved : Bool)

namespace StyleTask

def toHook : StyleTask → Hook
  | format => .formatDocument
  | formatRange range => .formatRange range
  | lint isSaved => .lint isSaved

/-- The lines to format: all or some of them. A lint formats none. -/
def lines? : StyleTask → Option (Except Fault (Option (Int × Int)))
  | format => some (.ok none)
  | formatRange range => some ((Format.linesOf range).map some)
  | lint _ => none

/-- **The formatter is called first**, and its answer is enough. -/
theorem perform_of_mem {task : StyleTask} {lines : Except Fault (Option (Int × Int))}
    (hlines : task.lines? = some lines) (c : Caller) {plugins : List Plugin}
    (hmem : .autopep8 ∈ plugins) :
    ∃ rest, task.toHook.perform c plugins =
      Hook.first ((do Format.autopep8 c (← liftExcept lines)) :: rest) := by
  have himpl : Hook.implementation? c .autopep8 task.toHook =
      some (do Format.autopep8 c (← liftExcept lines)) := by
    cases task with
    | format =>
      obtain rfl := Option.some_inj.1 hlines
      rfl
    | formatRange range =>
      obtain rfl := Option.some_inj.1 hlines
      show some (Format.autopep8Range c range) = _
      rw [Format.autopep8Range]
      cases Format.linesOf range <;> rfl
    | lint isSaved => cases hlines
  have hfirst : task.toHook.takesFirst = true := by
    cases task with
    | format | formatRange => rfl
    | lint => cases hlines
  have hpreferred : ∀ p, Hook.isPreferred p task.toHook = true ↔ p = .autopep8 := by
    intro p
    cases task with
    | format | formatRange => cases p <;> simp [Hook.isPreferred, toHook]
    | lint => cases hlines
  have hin : .autopep8 ∈ plugins.reverse.filter (Hook.isPreferred · task.toHook) := by
    rw [List.mem_filter, List.mem_reverse]
    exact ⟨hmem, (hpreferred _).2 rfl⟩
  obtain ⟨p, more, hmore⟩ := List.exists_cons_of_ne_nil (List.ne_nil_of_mem hin)
  have hp : p = .autopep8 := by
    rw [← hpreferred]
    refine (List.mem_filter.1 (?_ : p ∈ plugins.reverse.filter (Hook.isPreferred · task.toHook))).2
    rw [hmore]
    exact List.mem_cons_self
  subst hp
  refine ⟨(more ++ plugins.reverse.filter fun p => !Hook.isPreferred p task.toHook).filterMap
    (Hook.implementation? c · task.toHook), ?_⟩
  rw [Hook.perform, hfirst, Hook.order, hmore, List.cons_append,
    List.filterMap_cons_some (f := (Hook.implementation? c · task.toHook)) himpl]
  rfl

end StyleTask

/-- A request: a task, the caller, the plugins that are switched on, the document, and the engines
as they answer this time. -/
structure StyleCall where
  task : StyleTask
  caller : Caller
  plugins : List Plugin
  document : Option Document
  engines : Engines

namespace StyleCall

/-- The desk at which a request is worked on. -/
def deskAt (h : Host) (r : StyleCall) : Desk := ⟨{ h with engines := r.engines }, r.document⟩

/-- What is answered. -/
def answer (h : Host) (r : StyleCall) : Value :=
  (r.task.toHook.call r.caller r.plugins (r.deskAt h)).1

/-- The host after the request. -/
def step (h : Host) (r : StyleCall) : Host :=
  (r.task.toHook.call r.caller r.plugins (r.deskAt h)).2.host

/-- autopep8 is asked for. -/
def Formats (r : StyleCall) : Prop := .autopep8 ∈ r.plugins ∧ r.task.lines?.isSome = true

/-- autopep8 gets as far as to put its check in the table, and then the text cannot be read, or the
engine fails. -/
def Strands (h : Host) (r : StyleCall) : Prop :=
  .autopep8 ∈ r.plugins ∧ (∃ lines, r.task.lines? = some (.ok lines)) ∧
    Format.Strands r.caller (r.deskAt h)

variable {h : Host} {r : StyleCall}

theorem moves_of_not_formats (hr : ¬ r.Formats) :
    Moves (Desk.Along Host.Touch) (r.task.toHook.perform r.caller r.plugins) := by
  obtain ⟨task, caller, plugins, document, engines⟩ := r
  refine Hook.moves_perform fun p hp job hjob => ?_
  cases task with
  | lint isSaved => exact Hook.moves_lint hjob
  | format =>
    cases p <;> cases hjob
    · exact absurd ⟨hp, rfl⟩ hr
    · exact (Format.moves_yapf none).amend.touch
  | formatRange range =>
    cases p <;> cases hjob
    · exact absurd ⟨hp, rfl⟩ hr
    · exact ((Moves.ofExcept _).bind fun _ => Format.moves_yapf _).amend.touch

theorem ensures_perform (hr : r.Formats) (hchecks : h.checks = {}) :
    Ensures (r.task.toHook.perform r.caller r.plugins) (r.deskAt h)
      (fun _ t => ¬ r.Strands h ∧ ReflTransGen (Desk.Along Host.Consult) (r.deskAt h) t ∧
        ∃ q, t.host.asked = h.asked ++ [q])
      fun _ t => ¬ r.Strands h ∧ ReflTransGen (Desk.Along Host.Consult) (r.deskAt h) t ∧
          (r.task.lines? = some (.ok none) →
            ∀ opts t, Format.options r.caller (r.deskAt h) ≠ .ok opts t) ∨
        r.Strands h ∧ t.host.checks = .borrowed := by
  obtain ⟨lines, hlines⟩ := Option.isSome_iff_exists.1 hr.2
  obtain ⟨rest, hrest⟩ := StyleTask.perform_of_mem hlines r.caller hr.1
  rw [hrest, Hook.first, ensures_bind, ensures_bind]
  cases lines with
  | error f =>
    refine .inl ⟨?_, .refl, fun hnone => ?_⟩
    · rintro ⟨-, ⟨lines, hok⟩, -⟩
      cases hlines.symm.trans hok
    · cases hlines.symm.trans hnone
  | ok lines =>
    have hstrands : r.Strands h ↔ Format.Strands r.caller (r.deskAt h) :=
      ⟨fun hs => hs.2.2, fun hs => ⟨hr.1, ⟨lines, hlines⟩, hs⟩⟩
    rw [ensures_liftExcept_ok, hstrands]
    refine (Format.ensures_autopep8 r.caller lines hchecks).mono ?_ ?_
    · rintro v t ⟨hnull, hsafe, hsteps, hasked⟩
      rw [hnull]
      exact ⟨hsafe, hsteps, hasked⟩
    · rintro f t (⟨hsafe, hsteps, hopts⟩ | hs)
      · exact .inl ⟨hsafe, hsteps, fun _ => hopts⟩
      · exact .inr hs

theorem call_of_ensures {c : Caller} {hook : Hook} {plugins : List Plugin} {desk : Desk}
    {P : Desk → Prop}
    (hrun : Ensures (hook.perform c plugins) desk (fun _ t => P t) fun _ t => P t) :
    P (hook.call c plugins desk).2 := by
  rw [Hook.call]
  cases hdone : hook.perform c plugins desk with
  | ok answer t => exact hrun.ok hdone
  | error f t => exact hrun.error hdone

/-- **One request** keeps the table just if it does not strand the check. -/
theorem step_cases (hchecks : h.checks = {}) :
    r.Strands h ∧ (r.step h).checks = .borrowed ∨ ¬ r.Strands h ∧ (r.step h).checks = {} := by
  by_cases hr : r.Formats
  · refine call_of_ensures (P := fun t => r.Strands h ∧ t.host.checks = .borrowed ∨
      ¬ r.Strands h ∧ t.host.checks = {}) ((ensures_perform hr hchecks).mono ?_ ?_)
    · rintro _ t ⟨hsafe, hsteps, -⟩
      exact .inr ⟨hsafe, (Format.textAt_of_consult hsteps).2.2.trans hchecks⟩
    · rintro _ t (⟨hsafe, hsteps, -⟩ | hs)
      · exact .inr ⟨hsafe, (Format.textAt_of_consult hsteps).2.2.trans hchecks⟩
      · exact .inl hs
  · refine .inr ⟨fun hs => hr ⟨hs.1, ?_⟩, ?_⟩
    · obtain ⟨lines, hlines⟩ := hs.2.1
      rw [hlines]
      rfl
    · have hsteps := Hook.reflTransGen_call (moves_of_not_formats hr) (r.deskAt h)
      exact (Host.checks_of_touch (Desk.host_of_along hsteps)).trans hchecks

theorem Strands.checks (hs : r.Strands h) (hchecks : h.checks = {}) :
    (r.step h).checks = .borrowed := by
  rcases step_cases (r := r) hchecks with ⟨-, hborrowed⟩ | ⟨hnot, -⟩
  · exact hborrowed
  · exact absurd hs hnot

/-- **A stranded check** stays where it is, and autopep8 answers nothing and asks nothing. -/
theorem stranded_step (hchecks : h.checks = .borrowed) :
    (r.step h).checks = .borrowed ∧
      (r.Formats → r.answer h = .list [] ∧ (r.step h).asked = h.asked) := by
  by_cases hr : r.Formats
  · obtain ⟨lines, hlines⟩ := Option.isSome_iff_exists.1 hr.2
    obtain ⟨rest, hrest⟩ := StyleTask.perform_of_mem hlines r.caller hr.1
    have hrun : Ensures (r.task.toHook.perform r.caller r.plugins) (r.deskAt h) (fun _ _ => False)
        fun _ t => ∃ cache, t.host = { (r.deskAt h).host with cache } := by
      rw [hrest, Hook.first, ensures_bind, ensures_bind, ensures_liftExcept]
      refine ⟨fun lines _ => ?_, fun _ _ => ⟨_, rfl⟩⟩
      exact (Format.ensures_autopep8_of_borrowed r.caller lines hchecks).mono
        (fun _ _ hfalse => hfalse.elim) fun _ _ hcache => hcache
    rw [step, answer, Hook.call]
    cases hdone : r.task.toHook.perform r.caller r.plugins (r.deskAt h) with
    | ok answer t => exact (hrun.ok hdone).elim
    | error f t =>
      obtain ⟨cache, ht⟩ := hrun.error hdone
      dsimp only
      rw [ht]
      exact ⟨hchecks, fun _ => ⟨rfl, rfl⟩⟩
  · refine ⟨?_, fun hformats => absurd hformats hr⟩
    have hsteps := Hook.reflTransGen_call (moves_of_not_formats hr) (r.deskAt h)
    exact (Host.checks_of_touch (Desk.host_of_along hsteps)).trans hchecks

/-! ## What makes a difference to later requests -/

/-- Only autopep8 and the style checker are switched on. -/
def IsPlain (r : StyleCall) : Prop := ∀ p ∈ r.plugins, p = .autopep8 ∨ p = .pycodestyle

/-- What requests answer in turn, and what they ask the engines. -/
def outcomes : Host → List StyleCall → List (Value × List Request)
  | _, [] => []
  | h, r :: rs => (r.answer h, (r.step h).asked.drop h.asked.length) :: outcomes (r.step h) rs

variable {h' : Host} {before before' : List Request}

theorem steady_first {R : Desk → Desk → Prop} {jobs : List (Job Value)}
    (hjobs : ∀ job ∈ jobs, Steady R job) : Steady R (Hook.first jobs) := by
  induction jobs with
  | nil => exact Steady.pure _
  | cons job rest ih =>
    refine (hjobs job List.mem_cons_self).bind fun answer => ?_
    split
    · exact ih fun job hjob => hjobs job (List.mem_cons_of_mem _ hjob)
    · exact Steady.pure _

theorem steady_collect {R : Desk → Desk → Prop} {jobs : List (Job Value)}
    (hjobs : ∀ job ∈ jobs, Steady R job) : Steady R (Hook.collect jobs) := by
  induction jobs with
  | nil => exact Steady.pure _
  | cons job rest ih =>
    exact (hjobs job List.mem_cons_self).bind fun _ =>
      (ih fun job hjob => hjobs job (List.mem_cons_of_mem _ hjob)).bind fun _ => Steady.pure _

theorem IsPlain.job_cases (hr : r.IsPlain) {p : Plugin} (hp : p ∈ r.plugins) {job : Job Value}
    (hjob : Hook.implementation? r.caller p r.task.toHook = some job) :
    r.Formats ∧ (∃ lines : Except Fault (Option (Int × Int)),
        job = do Format.autopep8 r.caller (← liftExcept lines)) ∨
      ¬ r.Formats ∧ job = do return Diagnostic.listValue (← Lint.Pycodestyle.lint r.caller) := by
  obtain ⟨task, caller, plugins, document, engines⟩ := r
  rcases hr p hp with rfl | rfl
  · left
    cases task with
    | format =>
      cases hjob
      exact ⟨⟨hp, rfl⟩, .ok none, rfl⟩
    | formatRange range =>
      cases hjob
      refine ⟨⟨hp, rfl⟩, (Format.linesOf range).map some, ?_⟩
      rw [Format.autopep8Range]
      cases Format.linesOf range <;> rfl
    | lint => cases hjob
  · right
    cases task with
    | format | formatRange => cases hjob
    | lint =>
      cases hjob
      exact ⟨fun hformats => Bool.false_ne_true hformats.2, rfl⟩

theorem IsPlain.steady_perform (hr : r.IsPlain) :
    Steady (Desk.Agree before before') (r.task.toHook.perform r.caller r.plugins) := by
  have hall : ∀ job ∈ (r.task.toHook.order r.plugins).filterMap
      (Hook.implementation? r.caller · r.task.toHook), Steady (Desk.Agree before before') job := by
    intro job hjob
    obtain ⟨p, hp, hsome⟩ := List.mem_filterMap.1 hjob
    rw [Hook.order, List.mem_append, List.mem_filter, List.mem_filter, List.mem_reverse] at hp
    rcases hr.job_cases (hp.elim And.left And.left) hsome with ⟨-, lines, rfl⟩ | ⟨-, rfl⟩
    · exact (Steady.ofExcept _).bind fun _ => Format.steady_autopep8 _ _
    · exact (Lint.Pycodestyle.steady_lint _).bind fun _ => Steady.pure _
  rw [Hook.perform]
  split
  · exact steady_first hall
  · exact (steady_collect hall).bind fun _ => Steady.pure _

/-- **Two hosts that agree answer a request alike**, ask the same, and agree afterwards. -/
theorem IsPlain.step_agree (hr : r.IsPlain)
    (ha : Host.Agree before before' (r.deskAt h).host (r.deskAt h').host) :
    r.answer h' = r.answer h ∧ Host.Agree before before' (r.step h) (r.step h') := by
  rw [answer, answer, step, step, Hook.call, Hook.call]
  rcases hr.steady_perform (r.deskAt h) (r.deskAt h') ⟨rfl, ha⟩ with
    ⟨v, t, t', ht, ht', hR⟩ | ⟨f, t, t', ht, ht', hR⟩
  · rw [ht, ht']
    exact ⟨rfl, hR.host⟩
  · rw [ht, ht']
    exact ⟨rfl, hR.host⟩

theorem outcomes_congr {rs : List StyleCall} (hrs : ∀ r ∈ rs, r.IsPlain)
    (ha : Host.Agree h.asked h'.asked { h with engines := {} } { h' with engines := {} }) :
    outcomes h' rs = outcomes h rs := by
  induction rs generalizing h h' with
  | nil => rfl
  | cons r rs ih =>
    have hagree : Host.Agree h.asked h'.asked (r.deskAt h).host (r.deskAt h').host :=
      ha.setEngines r.engines
    obtain ⟨hanswer, hstep⟩ := (hrs r List.mem_cons_self).step_agree hagree
    obtain ⟨new, hnew, hnew'⟩ := hstep.asked
    have hrebased : Host.Agree (r.step h).asked (r.step h').asked (r.step h) (r.step h') :=
      ⟨hstep.eq, ⟨[], by simp, by simp⟩, hstep.coherent, hstep.coherent'⟩
    rw [outcomes, outcomes, hanswer, hnew, hnew', List.drop_left, List.drop_left,
      ih (fun r hr => hrs r (List.mem_cons_of_mem _ hr)) (hrebased.setEngines {})]

theorem IsPlain.consult_of_not_strands (hr : r.IsPlain) (hchecks : h.checks = {})
    (hs : ¬ r.Strands h) : ReflTransGen Host.Consult (r.deskAt h).host (r.step h) := by
  by_cases hformats : r.Formats
  · refine call_of_ensures (P := fun t => ReflTransGen Host.Consult (r.deskAt h).host t.host)
      ((ensures_perform hformats hchecks).mono ?_ ?_)
    · rintro _ t ⟨-, hsteps, -⟩
      exact Desk.host_of_along hsteps
    · rintro _ t (⟨-, hsteps, -⟩ | ⟨hstrands, -⟩)
      · exact Desk.host_of_along hsteps
      · exact absurd hstrands hs
  · refine Desk.host_of_along (Hook.reflTransGen_call (Hook.moves_perform ?_) (r.deskAt h))
    intro p hp job hjob
    rcases hr.job_cases hp hjob with ⟨hf, -⟩ | ⟨-, rfl⟩
    · exact absurd hf hformats
    · exact (Lint.Pycodestyle.moves_lint _).bind fun _ => Moves.pure _

/-- The request to format the text of a document, whatever it is, with an engine that works. -/
def probe (r : StyleCall) (d : Document) : StyleCall where
  task := .format
  caller := r.caller
  plugins := [.autopep8]
  document := some { d with source := .text "" }
  engines := { mended := .ok none }

theorem Strands.outcomes_ne (hh : h.Coherent) (hchecks : h.checks = {}) {d : Document}
    (hd : r.document = some d) (hs : r.Strands h) :
    outcomes (r.step h) [r.probe d] ≠ outcomes h [r.probe d] := by
  have hformats : (r.probe d).Formats := ⟨List.mem_singleton_self _, rfl⟩
  have hcoherent : ∀ engines, ({ h with engines } : Host).Coherent := fun _ =>
    ⟨hh.eq_of_id, hh.settled⟩
  have hopts : ∃ opts t, Format.options r.caller ((r.probe d).deskAt h) = .ok opts t := by
    -- the settings are asked for with the path of the document, which has not changed
    have hread := hs.2.2.1
    rw [Format.options_ok_iff (hcoherent _)] at hread ⊢
    have hpath : Format.pathAt (r.deskAt h) = Format.pathAt ((r.probe d).deskAt h) := by
      rw [Format.pathAt, deskAt, hd]
      rfl
    rw [hpath] at hread
    exact hread
  have hsafe : ¬ (r.probe d).Strands h := by
    rintro ⟨-, -, -, ⟨f, hf⟩ | ⟨f, hf⟩⟩ <;> cases hf
  have hasked : ∃ q, ((r.probe d).step h).asked = h.asked ++ [q] := by
    have hrun := ensures_perform hformats hchecks
    rw [step, Hook.call]
    cases hdone : (r.probe d).task.toHook.perform (r.probe d).caller (r.probe d).plugins
        ((r.probe d).deskAt h) with
    | ok answer t => exact (hrun.ok hdone).2.2
    | error f t =>
      rcases hrun.error hdone with ⟨-, -, hfail⟩ | ⟨hstrands, -⟩
      · obtain ⟨opts, t, hok⟩ := hopts
        exact absurd hok (hfail rfl opts t)
      · exact absurd hstrands hsafe
  obtain ⟨q, hq⟩ := hasked
  obtain ⟨-, hlost⟩ := (stranded_step (r := r.probe d) (hs.checks hchecks)).2 hformats
  simp only [outcomes, hq, hlost, List.drop_left, List.drop_length]
  simp

/-! ## The exact condition -/

/-- **When the style checker gets its check back.** From a host whose table is as it should be:
every run of requests leaves the table so after every request just if no request strands the check.
After a request that does, the check stays stranded, and autopep8 is never asked again: it answers
the empty list. And a request to autopep8 or the style checker makes a difference to what later
requests answer or ask just if it strands the check, so that one that fails otherwise makes none. -/
theorem check_returned_iff_never_strands (h : Host) (hchecks : h.checks = {}) :
    (∀ rs : List StyleCall, Always step (fun h r => (r.step h).checks = {}) h rs ↔
      Always step (fun h r => ¬ r.Strands h) h rs) ∧
    (∀ r : StyleCall, r.Strands h → ∀ rs : List StyleCall,
      Always step (fun h r => (r.step h).checks = .borrowed ∧
        (r.Formats → r.answer h = .list [] ∧ (r.step h).asked = h.asked)) (r.step h) rs) ∧
    (h.Coherent → ∀ r : StyleCall, r.IsPlain → r.document.isSome = true →
      ((∀ rs : List StyleCall, (∀ r' ∈ rs, r'.IsPlain) → outcomes (r.step h) rs = outcomes h rs) ↔
        ¬ r.Strands h)) := by
  have hiff : ∀ {h : Host} {r : StyleCall}, h.checks = {} →
      ((r.step h).checks = {} ↔ ¬ r.Strands h) := by
    intro h r hchecks
    rcases step_cases (r := r) hchecks with ⟨hs, hborrowed⟩ | ⟨hs, hintact⟩
    · rw [hborrowed]
      exact ⟨fun h => (nomatch h), fun hnot => absurd hs hnot⟩
    · exact ⟨fun _ => hs, fun _ => hintact⟩
  refine ⟨fun rs => ?_, fun r hs rs => ?_,
    fun hh r hr hd => ⟨fun hsame hs => ?_, fun hs rs hrs => ?_⟩⟩
  · exact Always.iff (I := fun h => h.checks = {}) (A := fun _ _ => True)
      (fun h r hchecks _ => ⟨hiff hchecks, fun h => h⟩) hchecks
      (Always.of_forall fun _ _ => trivial)
  · exact Always.of_inv (I := fun h => h.checks = .borrowed) (A := fun _ _ => True)
      (P := fun _ _ => True) (fun h r hb _ _ => (stranded_step hb).1)
      (fun h r hb _ => stranded_step hb) (hs.checks hchecks) (Always.of_forall fun _ _ => trivial)
      (Always.of_forall fun _ _ => trivial)
  · obtain ⟨d, hd⟩ := Option.isSome_iff_exists.1 hd
    refine hs.outcomes_ne hh hchecks hd (hsame _ fun r' hr' => ?_)
    rw [List.mem_singleton.1 hr']
    intro p hp
    exact Or.inl (List.mem_singleton.1 hp)
  · have hcoherent : (r.deskAt h).host.Coherent := ⟨hh.eq_of_id, hh.settled⟩
    have hagree := Host.agree_of_consult hcoherent (hr.consult_of_not_strands hchecks hs)
    exact outcomes_congr hrs (hagree.setEngines {})

/-- A host with one workspace. -/
def lone : Host where
  spaces := [{ rootUri := "file:///w", scheme := "file", rootPath := "/w"
               config := some { id := 1, rootUri := "file:///w", rootPath := "/w" } }]

/-- A request to format a document, with an engine that answers as given. -/
def formatting (mended : Except Fault (Option String)) : StyleCall where
  task := .format
  caller := ⟨0, 0⟩
  plugins := [.autopep8, .pycodestyle]
  document := some { uri := "file:///w/a.py", path := "/w/a.py", dotName := "a", filename := "a.py"
                     source := .text "x=1\n" }
  engines := { mended }

theorem coherent_lone : lone.Coherent := Host.coherent_of_single rfl rfl

theorem strands_lone (f : Fault) : (formatting (.error f)).Strands lone := by
  have hcoherent : ((formatting (.error f)).deskAt lone).host.Coherent :=
    ⟨coherent_lone.eq_of_id, coherent_lone.settled⟩
  refine ⟨List.mem_cons_self, ⟨none, rfl⟩, ?_, .inr ⟨f, rfl⟩⟩
  rw [Format.options_ok_iff hcoherent]
  have hsome : (lone.settingsOf 0 "pycodestyle" (.str "/w/a.py")).toOption = some (.object []) := by
    decide +kernel
  exact ⟨.object [], [], eq_ok_of_toOption hsome, by rfl⟩

/-- An engine that fails once: the next request, which would be answered, is not. -/
theorem check_stranded_by_failing_engine :
    let fails := formatting (.error .mismatch)
    let works := formatting (.ok (some "x = 1\n"))
    lone.checks = {} ∧ lone.Coherent ∧ fails.Strands lone ∧
      (fails.step lone).checks = .borrowed ∧
      works.answer lone ≠ .list [] ∧ works.answer (fails.step lone) = .list [] ∧
      ¬ Always step (fun h r => (r.step h).checks = {}) lone [fails, works] ∧
      ¬ ∀ rs : List StyleCall, (∀ r ∈ rs, r.IsPlain) →
        outcomes (fails.step lone) rs = outcomes lone rs := by
  intro fails works
  obtain ⟨hruns, hlater, hdifference⟩ := check_returned_iff_never_strands lone rfl
  have hs : fails.Strands lone := strands_lone .mismatch
  have hplain : ∀ mended, (formatting mended).IsPlain := by
    intro mended p hp
    simpa [formatting] using hp
  obtain ⟨⟨-, hanswer⟩, -⟩ := hlater fails hs [works]
  refine ⟨rfl, coherent_lone, hs, hs.checks rfl, by decide +kernel,
    (hanswer ⟨List.mem_cons_self, rfl⟩).1, ?_, ?_⟩
  · rw [hruns]
    rintro ⟨hfirst, -⟩
    exact hfirst hs
  · rw [hdifference coherent_lone fails (hplain _) rfl]
    exact fun hnot => hnot hs

end StyleCall
end LangServer
