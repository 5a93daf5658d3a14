import LangServer.Proofs.Linting.ClientSettings

/-!
# What is published

A lint of an open document calls the linters that are switched on, one after the other, and sends
the client what they found. `Linted` says what linters find together, from the answer of each. A
call of the linters answers with just that (`Hook.exists_linted_call`), and so a lint publishes it
(`Session.ensures_lintNow`). A document that is not open is not linted, and nothing is sent
(`Session.ensures_lintNow_of_closed`).
-/

namespace LangServer

open Relation

/-- The linters, in the order in which they are called. -/
def Plugin.linters : List Plugin :=
  [.pylint, .pyflakes, .pydocstyle, .pycodestyle, .mccabe, .flake8]

/-- What linters find that are called one after the other at a desk, and the desk they leave. One
that does not answer adds nothing; once one has failed, nothing was found, and the rest is not
called. -/
inductive Linted (c : Caller) (isSaved : Bool) :
    List Plugin → Desk → Option (List Value) → Desk → Prop where
  | done (desk : Desk) : Linted c isSaved [] desk (some []) desk
  | silent {p : Plugin} {ps : List Plugin} {desk desk' desk'' : Desk} {job : Job Value}
      {found : Option (List Value)} (hjob : Hook.implementation? c p (.lint isSaved) = some job)
      (hrun : job desk = .ok .null desk') (hrest : Linted c isSaved ps desk' found desk'') :
      Linted c isSaved (p :: ps) desk found desk''
  | found {p : Plugin} {ps : List Plugin} {desk desk' desk'' : Desk} {job : Job Value}
      {own : List Value} {found : Option (List Value)}
      (hjob : Hook.implementation? c p (.lint isSaved) = some job)
      (hrun : job desk = .ok (.list own) desk') (hrest : Linted c isSaved ps desk' found desk'') :
      Linted c isSaved (p :: ps) desk (found.map (own ++ ·)) desk''
  | failed {p : Plugin} {ps : List Plugin} {desk desk' : Desk} {job : Job Value} {f : Fault}
      (hjob : Hook.implementation? c p (.lint isSaved) = some job)
      (hrun : job desk = .error f desk') : Linted c isSaved (p :: ps) desk none desk'

/-! ## What is remembered -/

/-- A lint remembers findings only if it is for a saved document, and only those in its file. -/
structure Desk.Remembers (isSaved : Bool) (desk desk' : Desk) : Prop where
  document : desk'.document = desk.document
  lastFindings : ∀ path,
    Value.lookup path desk'.host.lastFindings = Value.lookup path desk.host.lastFindings ∨
      isSaved = true ∧ ∃ d, desk.document = some d ∧ d.path = path

/-- The desk has the same document, and no findings were remembered. -/
structure Desk.Retains (desk desk' : Desk) : Prop where
  document : desk'.document = desk.document
  lastFindings : desk'.host.lastFindings = desk.host.lastFindings

theorem Desk.Retains.trans {desk desk' desk'' : Desk} (h1 : desk.Retains desk')
    (h2 : desk'.Retains desk'') : desk.Retains desk'' :=
  ⟨h2.document.trans h1.document, h2.lastFindings.trans h1.lastFindings⟩

theorem Desk.Retains.remembers {desk desk' : Desk} (h : desk.Retains desk') (isSaved : Bool) :
    Remembers isSaved desk desk' :=
  ⟨h.document, fun _ => .inl (by rw [h.lastFindings])⟩

theorem Desk.Remembers.trans {isSaved : Bool} {desk desk' desk'' : Desk}
    (h1 : Remembers isSaved desk desk') (h2 : Remembers isSaved desk' desk'') :
    Remembers isSaved desk desk'' := by
  refine ⟨h2.document.trans h1.document, fun path => ?_⟩
  rcases h2.lastFindings path with hsame | hfound
  · rw [hsame]
    exact h1.lastFindings path
  · rw [h1.document] at hfound
    exact .inr hfound

theorem Desk.remembers_of_steps {isSaved : Bool} {desk desk' : Desk}
    (hsteps : ReflTransGen (Remembers isSaved) desk desk') : Remembers isSaved desk desk' := by
  induction hsteps with
  | refl => exact ⟨rfl, fun _ => .inl rfl⟩
  | tail _ hstep ih => exact ih.trans hstep

theorem Host.Amend.lastFindings {h h' : Host} (hstep : h.Amend h') :
    h'.lastFindings = h.lastFindings := by
  cases hstep with
  | consulted hstep => cases hstep <;> rfl
  | grown hrun =>
    obtain ⟨spaces, cache, rfl⟩ := exists_of_extendIgnores hrun
    rfl

theorem Desk.Along.retains {desk desk' : Desk} (h : Along Host.Amend desk desk') :
    desk.Retains desk' :=
  ⟨h.document, h.host.lastFindings⟩

theorem Moves.remembers {α : Type} {x : Job α} (hx : Moves (Desk.Along Host.Amend) x)
    (isSaved : Bool) : Moves (Desk.Remembers isSaved) x :=
  hx.mono fun _ _ h => h.retains.remembers isSaved

theorem Moves.retains {α : Type} {x : Job α} (hx : Moves (Desk.Along Host.Consult) x)
    (desk : Desk) : Ensures x desk (fun _ t => desk.Retains t) fun _ t => desk.Retains t := by
  have hkept : ∀ t, ReflTransGen (Desk.Along Host.Consult) desk t → desk.Retains t := by
    intro t ht
    induction ht with
    | refl => exact ⟨rfl, rfl⟩
    | tail _ hstep ih => exact ih.trans (Desk.Along.retains ⟨hstep.document, .consulted hstep.host⟩)
  exact (hx desk).mono (fun _ t ht => hkept t ht) fun _ t ht => hkept t ht

namespace Lint.Pylint

/-- The settings name a program to run. -/
def IsProgram (c : Caller) (h : Host) : Prop :=
  ∃ settings h' program, Host.pluginSettings c.config "pylint" .null h = .ok settings h' ∧
    settings.get "executable" = .ok program ∧ program.truthy = true

/-- What pylint finds in the server. A document that was not saved is not looked at: what was found
in its file before is found again. What is found in one that was saved is remembered. -/
def FromFile (isSaved : Bool) (desk : Desk) (found : List Diagnostic) (desk' : Desk) : Prop :=
  ∃ d, desk.document = some d ∧
    if isSaved then desk'.host.lastFindings = Value.insert d.path found desk.host.lastFindings
    else desk'.host.lastFindings = desk.host.lastFindings ∧
      found = (Value.lookup d.path desk.host.lastFindings).getD []

theorem ensures_lintFile (isSaved : Bool) (flags : String) (desk : Desk) :
    Ensures (lintFile isSaved flags) desk
      (fun found t => t.document = desk.document ∧ FromFile isSaved desk found t)
      fun _ t => desk.Retains t := by
  simp only [lintFile, Job.document, FromFile, ensures_bind, ensures_get]
  cases hd : desk.document with
  | none => exact ⟨rfl, rfl⟩
  | some d =>
    simp only [ensures_pure]
    cases isSaved with
    | false => exact ⟨hd, d, rfl, rfl, rfl⟩
    | true =>
      simp only [Job.machine, Job.ask, Job.files, Job.engines, Host.ask, Bool.not_true,
        Bool.false_eq_true, if_false, ensures_bind, ensures_get, ensures_pure, ensures_liftJob,
        ensures_modify]
      split
      · exact ⟨rfl, rfl⟩
      · simp only [ensures_bind, ensures_get, ensures_pure, ensures_modify, ensures_liftExcept]
        exact ⟨fun found _ => ⟨hd, d, rfl, rfl⟩, fun _ _ => ⟨rfl, rfl⟩⟩

/-- **pylint is a program, or looks at saved files only.** -/
theorem ensures_lint (c : Caller) (isSaved : Bool) (desk : Desk) :
    Ensures (lint c isSaved) desk
      (fun found t => IsProgram c desk.host ∧ desk.Retains t ∨
        t.document = desk.document ∧ FromFile isSaved desk found t)
      fun _ t => desk.Retains t := by
  have hmoves : Moves (Desk.Along Host.Consult)
      (liftM (Host.pluginSettings c.config "pylint" .null) : Job Value) :=
    (Host.moves_pluginSettings _ _ _).liftJob
  have hrun : Ensures (liftM (Host.pluginSettings c.config "pylint" .null) : Job Value) desk
      (fun settings _ => ∃ h', Host.pluginSettings c.config "pylint" .null desk.host =
        .ok settings h') fun _ _ => True := by
    rw [ensures_liftJob, Ensures]
    cases Host.pluginSettings c.config "pylint" .null desk.host with
    | ok settings h' => exact ⟨h', rfl⟩
    | error f h' => trivial
  rw [lint]
  refine ((hmoves.retains desk).and hrun).bind ?_ fun _ _ h => h.1
  rintro settings desk' ⟨hretains, h', hsettings⟩
  rw [ensures_bind, ensures_liftExcept]
  refine ⟨fun program hprogram => ?_, fun _ _ => hretains⟩
  split
  · rename_i htruthy
    have hprogram : IsProgram c desk.host := ⟨settings, h', program, hsettings, hprogram, htruthy⟩
    rw [ensures_bind, ensures_liftExcept]
    refine ⟨fun args _ => ?_, fun _ _ => hretains⟩
    exact ((moves_lintByProgram program args).retains desk').mono
      (fun _ _ h => .inl ⟨hprogram, hretains.trans h⟩) fun _ _ h => hretains.trans h
  · rw [ensures_bind, ensures_liftExcept]
    refine ⟨fun flags _ => ?_, fun _ _ => hretains⟩
    refine (ensures_lintFile isSaved flags desk').mono ?_ fun _ _ h => hretains.trans h
    rintro found t ⟨hdocument, hfile⟩
    rw [FromFile, hretains.document, hretains.lastFindings] at hfile
    exact .inr ⟨hdocument.trans hretains.document, hfile⟩

theorem moves_remembers (c : Caller) (isSaved : Bool) :
    Moves (Desk.Remembers isSaved) (lint c isSaved) := by
  intro desk
  refine (ensures_lint c isSaved desk).mono ?_ fun _ _ h => .single (h.remembers isSaved)
  rintro found t (⟨-, hretains⟩ | ⟨hdocument, d, hd, hfile⟩)
  · exact .single (hretains.remembers isSaved)
  · split at hfile
    · rename_i hsaved
      refine .single ⟨hdocument, fun path => ?_⟩
      rw [hfile, Value.lookup_insert]
      split
      · rename_i hpath
        exact .inr ⟨hsaved, d, hd, hpath.symm⟩
      · exact .inl rfl
    · exact .single (Desk.Retains.remembers ⟨hdocument, hfile.1⟩ isSaved)

end Lint.Pylint

/-! ## The answer of linters -/

theorem Value.flatten_cons (own : List Value) {answers all : List Value}
    (h : (Value.list answers).flatten = .ok (.list all)) :
    (Value.list (.list own :: answers)).flatten = .ok (.list (own ++ all)) := by
  simp only [flatten, elements, bind, Except.bind, List.mapM_cons] at h ⊢
  cases hlists : answers.mapM elements with
  | error f => simp [hlists] at h
  | ok lists =>
    simp only [hlists, pure, Except.pure, Except.ok.injEq, Value.list.injEq] at h ⊢
    rw [List.flatten_cons, h]

namespace Hook

variable {c : Caller} {isSaved : Bool}

theorem isSome_implementation?_lint (c : Caller) (isSaved : Bool) (p : Plugin) :
    (implementation? c p (.lint isSaved)).isSome = decide (p ∈ Plugin.linters) := by
  cases p <;> rfl

theorem ensures_implementation?_lint {p : Plugin} {job : Job Value}
    (hjob : implementation? c p (.lint isSaved) = some job) (desk : Desk) :
    Ensures job desk (fun v _ => v = .null ∨ ∃ own, v = .list own) fun _ _ => True := by
  have hlist : ∀ x : Job (List Diagnostic), Ensures (return Diagnostic.listValue (← x)) desk
      (fun v _ => v = .null ∨ ∃ own, v = .list own) fun _ _ => True := by
    intro x
    rw [ensures_bind]
    exact Ensures.of_forall (fun _ _ => .inr ⟨_, rfl⟩) fun _ _ => trivial
  cases p <;> cases hjob
  case mccabe =>
    rw [ensures_bind]
    refine Ensures.of_forall (fun answer t => ?_) fun _ _ => trivial
    cases answer with
    | none => exact .inl rfl
    | some found => exact .inr ⟨_, rfl⟩
  all_goals exact hlist _

theorem remembers_lint {p : Plugin} {job : Job Value}
    (hjob : implementation? c p (.lint isSaved) = some job) :
    Moves (Desk.Remembers isSaved) job := by
  cases p <;> cases hjob
  · exact ((Lint.Flake8.moves_lint c).remembers isSaved).bind fun _ => Moves.pure _
  · refine ((Lint.Mccabe.moves_lint c).amend.remembers isSaved).bind fun answer => ?_
    cases answer <;> exact Moves.pure _
  · exact ((Lint.Pycodestyle.moves_lint c).amend.remembers isSaved).bind fun _ => Moves.pure _
  · exact ((Lint.Pydocstyle.moves_lint c).amend.remembers isSaved).bind fun _ => Moves.pure _
  · exact (Lint.Pyflakes.moves_lint.amend.remembers isSaved).bind fun _ => Moves.pure _
  · exact (Lint.Pylint.moves_remembers c isSaved).bind fun _ => Moves.pure _

theorem order_eq_reverse {hook : Hook} (hnone : ∀ p, isPreferred p hook = false)
    (ps : List Plugin) : hook.order ps = ps.reverse := by
  have hnot : (ps.reverse.filter fun p => isPreferred p hook) = [] :=
    List.filter_eq_nil_iff.2 fun p _ => by rw [hnone]; exact Bool.false_ne_true
  have hall : (ps.reverse.filter fun p => !isPreferred p hook) = ps.reverse :=
    List.filter_eq_self.2 fun p _ => by rw [hnone]; rfl
  rw [order, hnot, hall, List.nil_append]

theorem filter_loaded (m : Machine) (config : Config) :
    (m.loaded.filter fun p => config.runs m p) = Plugin.all.filter fun p => config.runs m p := by
  rw [Machine.loaded, List.filter_filter]
  refine List.filter_congr fun p hp => ?_
  cases hruns : config.runs m p with
  | false => rfl
  | true =>
    rw [Config.runs, Bool.and_eq_true, List.contains_iff_mem, Machine.loaded] at hruns
    exact (List.mem_filter.1 hruns.1).2

theorem jobs_eq (c : Caller) {hook : Hook} {doers : List Plugin}
    (hnone : ∀ p, isPreferred p hook = false)
    (hdoers : ∀ p, (implementation? c p hook).isSome = decide (p ∈ doers))
    (horder : (Plugin.all.reverse.filter fun p => decide (p ∈ doers)) = doers)
    (m : Machine) (config : Config) :
    (hook.order (m.loaded.filter fun p => config.runs m p)).filterMap
        (fun p => implementation? c p hook) =
      (doers.filter fun p => config.runs m p).filterMap fun p => implementation? c p hook := by
  have honly : (fun p => if decide (p ∈ doers) = true then implementation? c p hook else none) =
      fun p => implementation? c p hook := by
    funext p
    rw [← hdoers p]
    cases implementation? c p hook <;> rfl
  have hcomm : (Plugin.all.reverse.filter fun p => config.runs m p).filter
      (fun p => decide (p ∈ doers)) = doers.filter fun p => config.runs m p := by
    rw [← horder, List.filter_filter, List.filter_filter, horder]
    exact List.filter_congr fun p _ => Bool.and_comm _ _
  rw [order_eq_reverse hnone, filter_loaded, ← List.filter_reverse, ← hcomm]
  -- those that are left out have no job
  conv =>
    rhs
    rw [List.filterMap_filter, honly]

theorem jobs_lint (c : Caller) (isSaved : Bool) (m : Machine) (config : Config) :
    ((Hook.lint isSaved).order (m.loaded.filter fun p => config.runs m p)).filterMap
        (fun p => implementation? c p (.lint isSaved)) =
      (Plugin.linters.filter fun p => config.runs m p).filterMap
        fun p => implementation? c p (.lint isSaved) :=
  jobs_eq c (by rintro ⟨⟩ <;> rfl) (isSome_implementation?_lint c isSaved) (by decide) m config

theorem exists_linted (c : Caller) (isSaved : Bool) {ps : List Plugin}
    (hps : ∀ p ∈ ps, p ∈ Plugin.linters) (desk : Desk) :
    ∃ found desk', Linted c isSaved ps desk found desk' ∧
      Ensures (collect (ps.filterMap fun p => implementation? c p (.lint isSaved))) desk
        (fun answers t => t = desk' ∧ ∃ all, found = some all ∧
          (Value.list answers).flatten = .ok (.list all))
        fun _ t => t = desk' ∧ found = none := by
  induction ps generalizing desk with
  | nil => exact ⟨some [], desk, .done desk, rfl, [], rfl, rfl⟩
  | cons p ps ih =>
    have hsome : (implementation? c p (.lint isSaved)).isSome = true := by
      rw [isSome_implementation?_lint, decide_eq_true_eq]
      exact hps p List.mem_cons_self
    obtain ⟨job, hjob⟩ := Option.isSome_iff_exists.1 hsome
    have hanswer := ensures_implementation?_lint hjob desk
    have hjobs : (p :: ps).filterMap (fun p => implementation? c p (.lint isSaved)) =
        job :: ps.filterMap fun p => implementation? c p (.lint isSaved) :=
      List.filterMap_cons_some hjob
    rw [hjobs, collect]
    cases hrun : job desk with
    | error f desk' =>
      refine ⟨none, desk', .failed hjob hrun, ?_⟩
      rw [ensures_bind, Ensures, hrun]
      exact ⟨rfl, rfl⟩
    | ok answer desk' =>
      obtain ⟨found, desk'', hrest, hcollect⟩ :=
        ih (fun q hq => hps q (List.mem_cons_of_mem _ hq)) desk'
      rcases hanswer.ok hrun with rfl | ⟨own, rfl⟩
      · refine ⟨found, desk'', .silent hjob hrun hrest, ?_⟩
        rw [ensures_bind, Ensures, hrun]
        dsimp only
        exact hcollect.bind (fun _ _ h => h) fun _ _ h => h
      · refine ⟨found.map (own ++ ·), desk'', .found hjob hrun hrest, ?_⟩
        rw [ensures_bind, Ensures, hrun]
        dsimp only
        refine hcollect.bind ?_ ?_
        · rintro answers t ⟨rfl, all, rfl, hall⟩
          exact ⟨rfl, own ++ all, rfl, Value.flatten_cons own hall⟩
        · rintro _ t ⟨rfl, rfl⟩
          exact ⟨rfl, rfl⟩

/-- **What a call of the linters answers**: what those that are switched on found together, or
nothing if one of them failed. -/
theorem exists_linted_call (c : Caller) (isSaved : Bool) (m : Machine) (config : Config)
    (desk : Desk) :
    ∃ found desk' answer,
      Linted c isSaved (Plugin.linters.filter fun p => config.runs m p) desk found desk' ∧
      (Hook.lint isSaved).call c (m.loaded.filter fun p => config.runs m p) desk = (answer, desk') ∧
      answer.flatten = .ok (.list (found.getD [])) ∧
      ReflTransGen (Desk.Along Host.Touch) desk desk' ∧ Desk.Remembers isSaved desk desk' := by
  obtain ⟨found, desk', hlinted, hcollect⟩ := exists_linted c isSaved
    (fun p hp => (List.mem_filter.1 hp).1) desk
  rw [← jobs_lint c isSaved m config] at hcollect
  have hmoves : ReflTransGen (Desk.Along Host.Touch) desk
      ((Hook.lint isSaved).call c (m.loaded.filter fun p => config.runs m p) desk).2 :=
    reflTransGen_call (moves_perform fun _ _ _ hjob => moves_lint hjob) desk
  have hremembers : Desk.Remembers isSaved desk
      ((Hook.lint isSaved).call c (m.loaded.filter fun p => config.runs m p) desk).2 :=
    Desk.remembers_of_steps
      (reflTransGen_call (moves_perform fun _ _ _ hjob => remembers_lint hjob) desk)
  have hperform : Ensures
      ((Hook.lint isSaved).perform c (m.loaded.filter fun p => config.runs m p)) desk
      (fun answer t => t = desk' ∧ answer.flatten = .ok (.list (found.getD [])))
      fun _ t => t = desk' ∧ found = none := by
    have htakes : (Hook.lint isSaved).takesFirst = false := rfl
    rw [perform, htakes, if_neg Bool.false_ne_true]
    refine hcollect.bind ?_ fun _ _ h => h
    rintro answers _ ⟨rfl, all, rfl, hall⟩
    exact ⟨rfl, hall⟩
  rw [Hook.call] at hmoves hremembers ⊢
  cases hrun : (Hook.lint isSaved).perform c (m.loaded.filter fun p => config.runs m p) desk with
  | ok answer t =>
    rw [hrun] at hmoves hremembers
    obtain ⟨rfl, hflat⟩ := hperform.ok hrun
    exact ⟨found, t, answer, hlinted, rfl, hflat, hmoves, hremembers⟩
  | error f t =>
    rw [hrun] at hmoves hremembers
    obtain ⟨rfl, rfl⟩ := hperform.error hrun
    exact ⟨none, t, .list [], hlinted, rfl, rfl, hmoves, hremembers⟩

end Hook

/-! ## Lints of the server -/

namespace Host

/-- The host has the same documents and configured workspaces, and is as obedient as it was. -/
structure Spared (h h' : Host) : Prop extends Extends h h' where
  isSome_configAt : ∀ n, (h'.configAt n).isSome = (h.configAt n).isSome
  obeys : ∀ client held, h.Obeys client held → h'.Obeys client held

variable {h h' : Host}

theorem spared_of_touch (hsteps : ReflTransGen Touch h h') : h.Spared h' :=
  ⟨(extends_of_touch hsteps).1, (extends_of_touch hsteps).2, fun _ _ ho => ho.of_touch hsteps⟩

theorem Spared.put (hs : h.Spared h') {n : Nat} {uri : String} {d : Document}
    (hd : h'.documentAt n uri = some d) : h.Spared (h'.put n uri d) := by
  have hconfig := configAt_withDocuments h' n (Value.insert uri d)
  refine ⟨⟨hs.machine, ?_, fun m u => ?_, fun m p hp => ?_⟩, fun m => ?_, fun client held ho => ?_⟩
  · exact Nat.le_trans hs.length_le (Nat.le_of_eq (length_withDocuments _).symm)
  · rw [documentAt_put (lt_of_documentAt hd), ← hs.documentAt m u]
    split
    · rename_i hmu
      rw [hmu.1, hmu.2, hd]
    · rfl
  · exact (rootPathAt_withDocuments _ _).trans (hs.rootPathAt m p hp)
  · exact (congrArg Option.isSome (hconfig m)).trans (hs.isSome_configAt m)
  · exact (hs.obeys client held ho).congr rfl hconfig fun _ he => he

end Host

namespace Session

/-- The message that tells the client what was found in a document. -/
def publication (uri : String) (found : List Value) : Value :=
  .object [("jsonrpc", .str "2.0"), ("method", .str Host.diagnosticsMethod),
    ("params", Host.diagnosticsParams (.str uri) (.list found))]

/-- The document that is open under a URI, as a client finds it. -/
def openDocument? (s : Session) (uri : String) : Option Document :=
  (s.spaceOf? uri).bind fun n => s.host.documentAt n uri

variable {s : Session} {uri : String} {n r : Nat} {d : Document} {config : Config}

theorem ensures_settingFor (hn : s.spaceOf? uri = some n) (hd : s.host.documentAt n uri = some d)
    (hr : s.config = some r) :
    Ensures (settingFor (.str uri)) s
      (fun now t => t = s ∧ now.caller = ⟨r, n⟩ ∧
        (uri.isEmpty = true ∧ now.document = none ∧ now.openAs = none ∨
          uri.isEmpty = false ∧ now.document = some d ∧ now.openAs = some uri))
      fun _ _ => False := by
  obtain ⟨w, hw, hlookup⟩ := Option.bind_eq_some_iff.1 hd
  simp only [settingFor, spaceFor, ensures_bind, ensures_get, ensures_pure, hn]
  split
  · rename_i hempty
    simp only [ensures_bind, ensures_get, ensures_pure, ensures_require_some]
    rw [ensures_require]
    refine ⟨fun r' hr' => ?_, fun hnone => by cases hr.symm.trans hnone⟩
    obtain rfl := Option.some_inj.1 (hr'.symm.trans hr)
    exact ⟨rfl, rfl, .inl ⟨hempty, trivial, trivial⟩⟩
  · rename_i hempty
    simp only [ensures_bind, ensures_get, ensures_pure, ensures_require_some, ensures_liftAct,
      Host.ensures_document hd]
    rw [ensures_require]
    refine ⟨fun r' hr' => ?_, fun hnone => by cases hr.symm.trans hnone⟩
    obtain rfl := Option.some_inj.1 (hr'.symm.trans hr)
    refine (Host.ensures_space_of_some hw _).2
      ⟨rfl, rfl, .inr ⟨Bool.eq_false_iff.2 hempty, trivial, ?_⟩⟩
    rw [hlookup]
    rfl

theorem ensures_hook_lint (hn : s.spaceOf? uri = some n) (hd : s.host.documentAt n uri = some d)
    (hr : s.config = some r) (hconfig : s.host.configAt r = some config) (isSaved : Bool) :
    Ensures (hook (.lint isSaved) (.str uri)) s
      (fun answer t => ∃ found desk host, Linted ⟨r, n⟩ isSaved
          (Plugin.linters.filter fun p => config.runs s.host.machine p)
          ⟨s.host, if uri.isEmpty then none else some d⟩ found desk ∧
        s.host.Spared host ∧ (∀ path,
          Value.lookup path host.lastFindings = Value.lookup path s.host.lastFindings ∨
            isSaved = true ∧ d.path = path) ∧
        answer.flatten = .ok (.list (found.getD [])) ∧ t = { s with host })
      fun _ _ => False := by
  rw [hook]
  refine (ensures_settingFor hn hd hr).bind ?_ fun _ _ h => h
  rintro now s ⟨rfl, hcaller, hdocument⟩
  obtain ⟨found, desk, answer, hlinted, hcall, hflat, hmoves, hremembers⟩ :=
    Hook.exists_linted_call ⟨r, n⟩ isSaved s.host.machine config ⟨s.host, now.document⟩
  have htouch := Desk.host_of_along hmoves
  have hkept := Desk.document_of_along hmoves
  have hremembered : ∀ path,
      Value.lookup path desk.host.lastFindings = Value.lookup path s.host.lastFindings ∨
        isSaved = true ∧ d.path = path := by
    intro path
    refine (hremembers.lastFindings path).imp_right ?_
    rintro ⟨hsaved, d', hd', hpath⟩
    rcases hdocument with ⟨-, hdoc, -⟩ | ⟨-, hdoc, -⟩
    · cases hdoc.symm.trans hd'
    · obtain rfl := Option.some_inj.1 (hdoc.symm.trans hd')
      exact ⟨hsaved, hpath⟩
  simp only [plugins, ensures_bind, ensures_get, ensures_pure, ensures_liftAct, hcaller,
    Host.ensures_config_iff, ensures_set]
  refine ⟨fun config' hconfig' => ?_, fun hnone => by cases hconfig.symm.trans hnone⟩
  obtain rfl := Option.some_inj.1 (hconfig'.symm.trans hconfig)
  simp only [hcall, hkept]
  rcases hdocument with ⟨hempty, hdoc, hopen⟩ | ⟨hempty, hdoc, hopen⟩
  · rw [hdoc] at hlinted
    simp only [hdoc, hopen, ensures_pure]
    refine ⟨found, desk, desk.host, ?_, Host.spared_of_touch htouch, hremembered, hflat, rfl⟩
    rwa [if_pos hempty]
  · rw [hdoc] at hlinted
    simp only [hdoc, hopen, ensures_bind, ensures_liftAct, ensures_pure, Host.ensures_storeDocument]
    have hspared := Host.spared_of_touch htouch
    have hkeeps : desk.host.documentAt n uri = some d := (hspared.documentAt n uri).trans hd
    refine ⟨fun _ => ?_, fun hle => absurd (Host.lt_of_documentAt hkeeps) (Nat.not_lt.2 hle)⟩
    refine ⟨found, desk, desk.host.put n uri d, ?_, hspared.put hkeeps, hremembered, hflat, rfl⟩
    rwa [hempty, if_neg Bool.false_ne_true]

/-- **A lint of an open document** publishes what the linters found that the configuration in force
has switched on. They get the document as it is, and leave it so; one without a URI they do not
get. -/
theorem ensures_lintNow (hn : s.spaceOf? uri = some n) (hd : s.host.documentAt n uri = some d)
    (hr : s.config = some r) (hconfig : s.host.configAt r = some config)
    (hopen : s.isClosed = false) (isSaved : Bool) :
    Ensures (lintNow (.str uri) isSaved) s
      (fun _ t => ∃ found desk host, Linted ⟨r, n⟩ isSaved
          (Plugin.linters.filter fun p => config.runs s.host.machine p)
          ⟨s.host, if uri.isEmpty then none else some d⟩ found desk ∧
        s.host.Spared host ∧ (∀ path,
          Value.lookup path host.lastFindings = Value.lookup path s.host.lastFindings ∨
            isSaved = true ∧ d.path = path) ∧
        t = { s with host, sent := s.sent ++ [publication uri (found.getD [])] })
      fun _ _ => False := by
  obtain ⟨w, hw, hlookup⟩ := Option.bind_eq_some_iff.1 hd
  simp only [lintNow, isOpen, spaceFor, ensures_bind, ensures_get, ensures_pure, hn,
    ensures_require_some, ensures_liftAct, Host.ensures_space_of_some hw, hlookup]
  rw [if_pos Option.isSome_some]
  refine (ensures_hook_lint hn hd hr hconfig isSaved).bind ?_ fun _ _ h => h
  rintro answer _ ⟨found, desk, host, hlinted, hspared, hremembered, hflat, rfl⟩
  rw [hflat, ensures_bind, ensures_liftExcept_ok, notify, send, ensures_modify]
  exact ⟨found, desk, host, hlinted, hspared, hremembered, if_neg (Bool.eq_false_iff.1 hopen)⟩

theorem ensures_lintNow_of_closed {uri : Value}
    (hclosed : ∀ u, uri = .str u → s.openDocument? u = none) (isSaved : Bool) :
    Ensures (lintNow uri isSaved) s (fun _ t => t = s) fun _ t => t = s := by
  rw [lintNow]
  refine (ensures_spaceFor s uri).bind ?_ fun _ _ h => h.1
  rintro space s ⟨rfl, -, hspace⟩
  rw [ensures_bind, ensures_require]
  refine ⟨fun n hn => ?_, fun _ => rfl⟩
  have hnot : Ensures (isOpen n uri) s (fun b t => b = false ∧ t = s) fun _ t => t = s := by
    cases uri with
    | str u =>
      have hnone := hclosed u rfl
      rw [openDocument?, ← hspace u rfl, hn, Option.bind_some, Host.documentAt] at hnone
      rw [isOpen, ensures_bind, ensures_liftAct, Host.ensures_space]
      refine ⟨fun w hw => ?_, fun _ => rfl⟩
      rw [hw, Option.bind_some] at hnone
      rw [ensures_pure, hnone]
      exact ⟨rfl, rfl⟩
    | _ => exact ⟨rfl, rfl⟩
  refine hnot.bind ?_ fun _ _ h => h
  rintro _ _ ⟨rfl, rfl⟩
  rfl

end Session
end LangServer
