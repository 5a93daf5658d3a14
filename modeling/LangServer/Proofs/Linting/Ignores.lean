import LangServer.Proofs.Linting.CommandLine

/-!
# Does a lint make a difference to the next one?

Where the settings have a list of codes to ignore, and an entry for single files applies, a lint
with flake8 leaves a longer list behind: the request *adds* codes (`LintCall.Adds`). A request that
adds no codes leaves the settings as they were (`LintCall.undisturbed_step`). One that does leaves
its codes in the settings, and gets them twice the next time (`LintCall.prepared_again`). So flake8
is started with them twice, unless they are hidden by a remark.
-/

namespace LangServer

open Settings Relation

namespace Lint.Flake8

open Host

variable {h h' : Host} {home : Nat} {path : String} {value : Value}

/-! ## Settings with longer lists -/

/-- The settings of the plugin with further ignored codes. -/
def lengthen (codes : List Value) (settings : Value) : Value :=
  settings.modifyAt (extend codes) ["ignore"]

theorem get?_lengthen (codes : List Value) (settings : Value) (key : String) :
    (lengthen codes settings).get? key = (settings.get? key).map fun v =>
      if key = "ignore" then v.map (extend codes) else v := by
  cases settings with
  | object members =>
    rw [lengthen, Value.modifyAt]
    cases hw : Value.lookup "ignore" members with
    | none =>
      simp only [Value.get?, Except.map]
      split
      · rename_i hkey
        rw [hkey, hw]
        rfl
      · rfl
    | some w =>
      simp only [Value.get?, Except.map, Value.modifyAt, Value.lookup_insert]
      by_cases hkey : key = "ignore"
      · simp [hkey, hw]
      · simp [hkey]
  | _ => rfl

theorem get?_lengthen_of_ne (codes : List Value) (settings : Value) {key : String}
    (hkey : key ≠ "ignore") : (lengthen codes settings).get? key = settings.get? key := by
  rw [get?_lengthen]
  simp only [hkey, if_false]
  cases settings.get? key <;> rfl

theorem ofPlugin_grown (codes : List Value) (value : Value) :
    Config.ofPlugin (grown codes value) "flake8" =
      (Config.ofPlugin value "flake8").map (lengthen codes) := by
  cases value with
  | object members =>
    rw [grown, Config.ignorePath, Value.modifyAt]
    cases hplugins : Value.lookup "plugins" members with
    | none =>
      simp only [Config.ofPlugin, Value.getD, Value.get?, hplugins]
      rfl
    | some plugins =>
      simp only [Config.ofPlugin, Value.getD, Value.get?, hplugins, Value.lookup_insert_self]
      cases plugins with
      | object members =>
        rw [Value.modifyAt]
        cases hsettings : Value.lookup "flake8" members with
        | none =>
          simp only [bind, Except.bind, pure, Except.pure, Option.getD_some, hsettings]
          rfl
        | some settings =>
          simp only [bind, Except.bind, pure, Except.pure, Option.getD_some, hsettings,
            Value.lookup_insert_self]
          rfl
      | _ => rfl
  | _ => rfl

theorem path?_plugin {settings : Value} (hsettings : Config.ofPlugin value "flake8" = .ok settings)
    (key : String) : value.path? ["plugins", "flake8", key] = settings.path? [key] := by
  rw [Config.ofPlugin] at hsettings
  obtain ⟨plugins, hplugins, hsettings⟩ := exists_of_bind_eq_ok hsettings
  have hnested : ∀ {v w : Value} {key : String} {rest : List String},
      v.getD key (.object []) = .ok w → (Value.object []).path? rest = none →
        v.path? (key :: rest) = w.path? rest := by
    intro v w key rest hw hrest
    cases v with
    | object members =>
      rw [Value.path?]
      cases hlookup : Value.lookup key members with
      | none =>
        simp only [Value.getD, Value.get?, hlookup, bind, Except.bind, pure, Except.pure,
          Option.getD_none, Except.ok.injEq] at hw
        rw [← hw, hrest]
        rfl
      | some u =>
        simp only [Value.getD, Value.get?, hlookup, bind, Except.bind, pure, Except.pure,
          Option.getD_some, Except.ok.injEq] at hw
        rw [← hw]
        rfl
    | _ => cases hw
  rw [hnested hplugins rfl, hnested hsettings rfl]

theorem path?_ignorePath {settings : Value}
    (hsettings : Config.ofPlugin value "flake8" = .ok settings) {ignores : Option Value}
    (hignores : settings.get? "ignore" = .ok ignores) :
    value.path? Config.ignorePath = ignores := by
  rw [Config.ignorePath, path?_plugin hsettings]
  cases settings with
  | object members =>
    rw [← Except.ok.inj hignores, Value.path?]
    cases Value.lookup "ignore" members <;> rfl
  | _ => cases hignores

theorem commandLine_lengthen (codes : List Value) (settings ignores : Value) :
    commandLine (lengthen codes settings) ignores = commandLine settings ignores := by
  have hget : ∀ key, key ≠ "ignore" → (lengthen codes settings).get key = settings.get key := by
    intro key hkey
    rw [Value.get, Value.get, Value.getD, Value.getD, get?_lengthen_of_ne codes settings hkey]
  have hgetD : ∀ key default, key ≠ "ignore" →
      (lengthen codes settings).getD key default = settings.getD key default := by
    intro key default hkey
    rw [Value.getD, Value.getD, get?_lengthen_of_ne codes settings hkey]
  unfold commandLine
  rw [hget "config" (by decide), hget "exclude" (by decide), hget "filename" (by decide),
    hget "hangClosing" (by decide), hget "maxLineLength" (by decide), hget "indentSize" (by decide),
    hget "select" (by decide), hgetD "executable" _ (by decide)]

theorem entriesOf_lengthen (codes : List Value) (settings : Value) :
    entriesOf (lengthen codes settings) = entriesOf settings := by
  rw [entriesOf, entriesOf, Value.get, Value.get, Value.getD, Value.getD,
    get?_lengthen_of_ne codes settings (by decide)]

theorem ignoredCodes_of_list {settings : Value} {items entries : List Value}
    (hitems : settings.getD "ignore" (.list []) = .ok (.list items))
    (hentries : entriesOf settings = .ok entries) :
    ignoredCodes path settings =
      (codesFor path entries).map fun codes => .list (items ++ codes) := by
  rw [ignoredCodes, hitems, hentries]
  exact addCodes_list path items entries

theorem commandFor_of_ignoredCodes {settings ignores : Value}
    (hsettings : Config.ofPlugin value "flake8" = .ok settings)
    (hignores : ignoredCodes path settings = .ok ignores) :
    commandFor path value = commandLine settings ignores := by
  rw [commandFor, hsettings]
  show (do commandLine settings (← ignoredCodes path settings)) = _
  rw [hignores]
  rfl

/-- **Codes that stay in the settings are given twice.** -/
theorem exists_doubles {settings : Value} {items entries codes : List Value}
    {x : Value × List Value} (hsettings : Config.ofPlugin value "flake8" = .ok settings)
    (hitems : settings.get? "ignore" = .ok (some (.list items)))
    (hentries : entriesOf settings = .ok entries) (hcodes : codesFor path entries = .ok codes)
    (hne : codes ≠ []) (hx : commandFor path value = .ok x) :
    ∃ y, commandFor path (grown codes value) = .ok y ∧ Doubles x y := by
  have hdefault : settings.getD "ignore" (.list []) = .ok (.list items) := by
    rw [Value.getD, hitems]
    rfl
  have hcommand : commandFor path value = commandLine settings (.list (items ++ codes)) := by
    refine commandFor_of_ignoredCodes hsettings ?_
    rw [ignoredCodes_of_list hdefault hentries, hcodes]
    rfl
  have hagain : commandFor path (grown codes value) =
      commandLine settings (.list (items ++ codes ++ codes)) := by
    rw [← commandLine_lengthen codes]
    refine commandFor_of_ignoredCodes (by rw [ofPlugin_grown, hsettings]; rfl) ?_
    have hlonger : (lengthen codes settings).getD "ignore" (.list []) =
        .ok (.list (items ++ codes)) := by
      rw [Value.getD, get?_lengthen, hitems]
      rfl
    rw [ignoredCodes_of_list hlonger ((entriesOf_lengthen codes settings).trans hentries), hcodes]
    rfl
  rw [hcommand] at hx
  obtain ⟨program, args⟩ := x
  obtain ⟨texts, htexts⟩ := exists_codes_of_commandLine hx
  obtain ⟨front, more, rfl, rfl, rfl⟩ := List.map_eq_append_iff.1 htexts.symm
  obtain ⟨first, last, hplain, hparts⟩ := exists_parts hx
  rw [htexts, hparts] at hx
  refine ⟨(program, first ++ (ignoring (front ++ more ++ more) ++ last)), ?_, program, first, last,
    front ++ more, more, hplain, ?_, List.subset_append_right _ _, (Except.ok.inj hx).symm, rfl⟩
  · rw [hagain, ← List.map_append, ← List.map_append, hparts]
  · exact fun hnil => hne (List.map_eq_nil_iff.2 hnil)

/-! ## Coherent hosts -/

/-- What flake8 is to be started with, by settings that are computed afresh. -/
def commandOf (h : Host) (home : Nat) (path : String) : Except Fault (Value × List Value) := do
  let settings ← h.settingsOf home "flake8" (.str path)
  commandLine settings (← ignoredCodes path settings)

theorem exists_of_settingsOf {settings : Value}
    (hsettings : h.settingsOf home "flake8" (.str path) = .ok settings) :
    ∃ c settled, h.configAt home = some c ∧ c.compute h.machine (.str path) = .ok settled ∧
      Config.ofPlugin settled.value "flake8" = .ok settings := by
  rw [settingsOf] at hsettings
  cases hc : h.configAt home with
  | none =>
    rw [hc] at hsettings
    cases hsettings
  | some c =>
    rw [hc] at hsettings
    obtain ⟨settled, hsettled, hplugin⟩ := exists_of_bind_eq_ok hsettings
    exact ⟨c, settled, rfl, hsettled, hplugin⟩

theorem ensures_prepare_of_coherent (hh : h.Coherent) (home : Nat) (path : String) :
    Ensures (prepare home path) h (fun x _ => commandOf h home path = .ok x)
      fun f _ => commandOf h home path = .error f := by
  cases hsettings : h.settingsOf home "flake8" (.str path) with
  | error f =>
    rw [prepare]
    refine (Host.ensures_pluginSettings hh home "flake8" (.str path)).bind ?_ ?_
    · rintro v _ ⟨hv, -⟩
      cases hsettings.symm.trans hv
    · rintro g _ ⟨hg, -⟩
      rw [commandOf, hg]
      rfl
  | ok settings =>
    obtain ⟨c, settled, hc, hsettled, hplugin⟩ := exists_of_settingsOf hsettings
    have hcommand : commandOf h home path = commandFor path settled.value := by
      rw [commandOf, commandFor, hsettings, hplugin]
    rw [hcommand]
    exact (ensures_prepare (hh.gives hc hsettled)).imp (fun _ _ hx => hx.1)

/-- Codes are added to the settings: they have a list of ignored codes, and an entry applies. -/
def Adds (h : Host) (home : Nat) (path : String) : Prop :=
  ∃ settings items entries, h.settingsOf home "flake8" (.str path) = .ok settings ∧
    settings.get? "ignore" = .ok (some (.list items)) ∧ entriesOf settings = .ok entries ∧
    Applies path entries

theorem ensures_prepare_quiet (hh : h.Coherent) (hquiet : ¬ Adds h home path) :
    Ensures (prepare home path) h (fun _ h' => h.Recalled h') fun _ h' => h.Recalled h' := by
  rw [prepare]
  refine (Host.ensures_pluginSettings hh home "flake8" (.str path)).bind ?_ fun _ _ hf => hf.2
  rintro settings h1 ⟨hsettings, hrecalled⟩
  refine (ensures_ignored_quiet ?_).bind ?_ ?_
  · intro items entries hitems hentries happlies
    have hsettings1 := (hrecalled.settingsOf home "flake8" (.str path)).trans hsettings
    obtain ⟨c, settled, hc, hsettled, hplugin⟩ := exists_of_settingsOf hsettings1
    refine ensures_extendIgnores_of_none hrecalled.coherent hc hsettled ?_
    -- a list in the settings would be one to which codes are added
    obtain ⟨found, hfound, hitems⟩ := exists_of_bind_eq_ok hitems
    rw [path?_ignorePath hplugin hfound]
    cases found with
    | none => rfl
    | some v =>
      obtain rfl : v = .list items := Except.ok.inj hitems
      exact absurd ⟨settings, items, entries, hsettings, hfound, hentries, happlies⟩ hquiet
  · rintro ignores _ rfl
    rw [ensures_liftExcept]
    exact ⟨fun _ _ => hrecalled, fun _ _ => hrecalled⟩
  · rintro _ _ rfl
    exact hrecalled

/-- **Codes that are added stay in the answer**, and flake8 would be started otherwise. -/
theorem Adds.ensures_prepare (hh : h.Coherent) (hadds : Adds h home path) {x : Value × List Value}
    (hx : commandOf h home path = .ok x) :
    ∃ value y,
      Ensures (prepare home path) h (fun _ h' => h'.Answers home path value) (fun _ _ => False) ∧
      commandFor path value = .ok y ∧ Doubles x y := by
  obtain ⟨settings, items, entries, hsettings, hitems, hentries, happlies⟩ := hadds
  obtain ⟨c, settled, hc, hsettled, hplugin⟩ := exists_of_settingsOf hsettings
  have hcommand : commandOf h home path = commandFor path settled.value := by
    rw [commandOf, commandFor, hsettings, hplugin]
  rw [hcommand] at hx
  have hrun := Flake8.ensures_prepare (hh.gives hc hsettled)
  rw [hx] at hrun
  have hnever : ∀ f : Fault, Except.ok x ≠ .error f := fun f hbad => by cases hbad
  have hgrows := hrun.mono (fun _ _ hgood => hgood.2) fun f _ hbad => hnever f hbad
  obtain ⟨y, h', hy, settings', entries', codes, hplugin', hentries', hcodes, -⟩ := hgrows.exists_ok
  obtain rfl := Except.ok.inj (hplugin.symm.trans hplugin')
  obtain rfl := Except.ok.inj (hentries.symm.trans hentries')
  obtain ⟨z, hz, hdoubles⟩ := exists_doubles hplugin hitems hentries hcodes
    (codesFor_ne_nil happlies hcodes) hx
  refine ⟨grown codes settled.value, z, hgrows.mono ?_ fun _ _ hfalse => hfalse, hz, hdoubles⟩
  rintro _ h2 ⟨settings', entries', codes', hplugin', hentries', hcodes', hanswers⟩
  obtain rfl := Except.ok.inj (hplugin.symm.trans hplugin')
  obtain rfl := Except.ok.inj (hentries.symm.trans hentries')
  obtain rfl := Except.ok.inj (hcodes.symm.trans hcodes')
  exact hanswers

end Lint.Flake8

/-! ## Two runs -/

namespace Lint

variable {before before' : List Request}

theorem steady_start (command : List Value) :
    Steady (Host.Agree before before') (start command) := by
  have hask : Steady (Host.Agree before before') (Host.ask (.start command)) :=
    fun _ _ ha => .inl ⟨(), _, _, rfl, rfl, ha.ask _⟩
  refine hask.bind fun _ => ?_
  split
  · rename_i program rest
    have hread : Steady (Host.Agree before before') (do return (← get).engines : Act Engines) := by
      refine Steady.read fun h h' ha => ?_
      rw [ha.eq]
    refine hread.bind (f := fun engines =>
      if engines.missingPrograms.contains program then throw (.noFile program) else return ()) ?_
    intro engines
    split
    · exact Steady.throw _
    · exact Steady.pure _
  · exact Steady.pure _

theorem steady_run (program : Value) (module : String) (args : List Value) :
    Steady (Desk.Agree before before') (run program module args) := by
  have hstart : Steady (Host.Agree before before')
      (startOr (program :: args) ([.str "python", .str "-m", .str module] ++ args)) := by
    refine (steady_start _).tryCatch fun f => ?_
    split
    · exact steady_start _
    · exact Steady.throw _
  exact hstart.liftJob.bind fun _ => (Steady.sourceOr _).bind fun _ => (Steady.ask _).bind fun _ =>
    Steady.engines.bind fun _ => Steady.pure _

theorem Flake8.steady_runOn (program : Value) (args : List Value) :
    Steady (Desk.Agree before before') (runOn program args) :=
  (Steady.ofExcept _).bind fun _ => Steady.files.bind fun _ => (Steady.ofExcept _).bind fun _ =>
    steady_run _ _ _

end Lint

/-- The hosts differ only in what is in the cache, which is coherent, in what was asked and in the
engines. -/
structure Host.Undisturbed (h t : Host) : Prop where
  eq : t = { h with cache := t.cache, asked := t.asked, engines := t.engines }
  coherent : t.Coherent

theorem Host.Undisturbed.settingsOf {h t : Host} (ht : h.Undisturbed t) (n : Nat) (plugin : String)
    (path : Value) : t.settingsOf n plugin path = h.settingsOf n plugin path := by
  rw [ht.eq]
  rfl

theorem Host.Undisturbed.agree {h t : Host} (ht : h.Undisturbed t) (hh : h.Coherent)
    (engines : Engines) : Agree h.asked t.asked { h with engines } { t with engines } := by
  refine ⟨?_, ⟨[], by simp, by simp⟩, ⟨hh.eq_of_id, hh.settled⟩,
    ⟨ht.coherent.eq_of_id, ht.coherent.settled⟩⟩
  rw [ht.eq]

/-! ## Requests -/

/-- A request to lint a document with flake8, and the engines as they answer this time. -/
structure LintCall where
  caller : Caller
  document : Document
  engines : Engines

namespace LintCall

open Lint.Flake8

/-- The desk at which a request is worked on. -/
def deskAt (h : Host) (r : LintCall) : Desk := ⟨{ h with engines := r.engines }, some r.document⟩

/-- The program and the arguments for a request, before remarks are taken out of them. -/
def prepared (h : Host) (r : LintCall) : Except Fault (Value × List Value) :=
  match prepare r.caller.space r.document.path h with
  | .ok x _ => .ok x
  | .error f _ => .error f

/-- The program and the arguments that flake8 is started with. -/
def started (h : Host) (r : LintCall) : Except Fault (Value × List Value) := do
  let command ← r.prepared h
  return (command.1, ← cleanArguments command.2)

/-- The host after the request. -/
def step (h : Host) (r : LintCall) : Host :=
  match lint r.caller (r.deskAt h) with
  | .ok _ desk => desk.host
  | .error _ desk => desk.host

/-- What is answered, and what the engines were asked. -/
def outcome (h : Host) (r : LintCall) : Except Fault (List Diagnostic) × List Request :=
  match lint r.caller (r.deskAt h) with
  | .ok found desk => (.ok found, desk.host.asked.drop h.asked.length)
  | .error f desk => (.error f, desk.host.asked.drop h.asked.length)

/-- The request adds codes to the settings. -/
def Adds (h : Host) (r : LintCall) : Prop :=
  Lint.Flake8.Adds h r.caller.space r.document.path

variable {h t : Host} {r : LintCall}

theorem prepared_of_coherent (hh : h.Coherent) (r : LintCall) :
    r.prepared h = commandOf h r.caller.space r.document.path := by
  have hrun := ensures_prepare_of_coherent hh r.caller.space r.document.path
  rw [prepared]
  cases hx : prepare r.caller.space r.document.path h with
  | ok x t => exact (hrun.ok hx).symm
  | error f t => exact (hrun.error hx).symm

/-- What a request does once it is prepared. -/
def reads (r : LintCall) (command : Value × List Value) : Job (List Diagnostic) := do
  let out ← runOn command.1 command.2
  let fs ← Job.files
  liftExcept (diagnostics (r.document.lines fs) out)

theorem ensures_lint_iff (h : Host) (r : LintCall) (good : List Diagnostic → Desk → Prop)
    (bad : Fault → Desk → Prop) :
    Ensures (lint r.caller) (r.deskAt h) good bad ↔
      Ensures (prepare r.caller.space r.document.path) { h with engines := r.engines }
        (fun x t => Ensures (r.reads x) ⟨t, some r.document⟩ good bad)
        fun f t => bad f ⟨t, some r.document⟩ := by
  show Ensures ((liftM (prepare r.caller.space r.document.path) : Job _) >>= r.reads) _ _ _ ↔ _
  rw [ensures_bind, ensures_liftJob]
  exact Iff.rfl

theorem step_of_prepare {P : Host → Prop}
    (hask : ∀ h q, P h → P { h with asked := h.asked ++ [q] })
    (hprepare : Ensures (prepare r.caller.space r.document.path) { h with engines := r.engines }
      (fun _ t => P t) fun _ t => P t) : P (r.step h) := by
  have hkeeps : ∀ {desk desk' : Desk}, P desk.host →
      Relation.ReflTransGen (Desk.Along fun h h' => P h → P h') desk desk' → P desk'.host := by
    intro desk desk' hP hsteps
    induction hsteps with
    | refl => exact hP
    | tail _ hstep ih => exact hstep.host ih
  have hrun : Ensures (lint r.caller) (r.deskAt h) (fun _ desk => P desk.host)
      fun _ desk => P desk.host := by
    rw [ensures_lint_iff]
    refine hprepare.imp (fun x t ht => ?_)
    have hrest : Moves (Desk.Along fun h h' => P h → P h') (r.reads x) :=
      (moves_runOn hask x.1 x.2).bind fun _ => Job.moves_files.bind fun _ => Moves.ofExcept _
    exact (hrest _).mono (fun _ _ hsteps => hkeeps ht hsteps) fun _ _ hsteps => hkeeps ht hsteps
  rw [step]
  cases hx : lint r.caller (r.deskAt h) with
  | ok found desk => exact hrun.ok hx
  | error f desk => exact hrun.error hx

theorem not_adds_of_undisturbed (ht : h.Undisturbed t) (hr : ¬ r.Adds h) :
    ¬ Lint.Flake8.Adds { t with engines := r.engines } r.caller.space r.document.path := by
  rintro ⟨settings, items, entries, hsettings, hadds⟩
  exact hr ⟨settings, items, entries, (ht.settingsOf _ _ _).symm.trans hsettings, hadds⟩

/-- **A request that adds no codes disturbs nothing.** -/
theorem undisturbed_step (ht : h.Undisturbed t) (hr : ¬ r.Adds h) : h.Undisturbed (r.step t) := by
  refine step_of_prepare ?_ ?_
  · intro t q ht
    exact ⟨by rw [ht.eq], ht.coherent.eq_of_id, ht.coherent.settled⟩
  · have hcoherent : ({ t with engines := r.engines } : Host).Coherent :=
      ⟨ht.coherent.eq_of_id, ht.coherent.settled⟩
    refine (ensures_prepare_quiet hcoherent (not_adds_of_undisturbed ht hr)).mono ?_ ?_
    all_goals
      intro _ t' ht'
      exact ⟨by rw [ht'.eq, ht.eq], ht'.coherent⟩

theorem undisturbed_foldl {rs : List LintCall} (hrs : ∀ r ∈ rs, ¬ r.Adds h) (ht : h.Undisturbed t) :
    h.Undisturbed (rs.foldl (fun h r => r.step h) t) := by
  induction rs generalizing t with
  | nil => exact ht
  | cons r rs ih =>
    exact ih (fun r hr => hrs r (List.mem_cons_of_mem _ hr))
      (undisturbed_step ht (hrs r List.mem_cons_self))

/-- **Where nothing is disturbed**, a request that adds no codes is answered as before. -/
theorem outcome_of_undisturbed (hh : h.Coherent) (ht : h.Undisturbed t) (hr : ¬ r.Adds h) :
    r.outcome t = r.outcome h := by
  have ha := ht.agree hh r.engines
  have hprepare : Alike (Host.Agree h.asked t.asked) (prepare r.caller.space r.document.path)
      { h with engines := r.engines } { t with engines := r.engines } := by
    have hrun := (ensures_prepare_of_coherent ha.coherent r.caller.space r.document.path).and
      (ensures_prepare_quiet ha.coherent hr)
    have hrun' := (ensures_prepare_of_coherent ha.coherent' r.caller.space r.document.path).and
      (ensures_prepare_quiet ha.coherent' (not_adds_of_undisturbed ht hr))
    rw [commandOf, ha.settingsOf] at hrun'
    exact .of_ensures hrun hrun' fun _ _ => ha.recalled
  have hlint : Alike (Desk.Agree h.asked t.asked) (lint r.caller) (r.deskAt h) (r.deskAt t) := by
    have hjob : Alike (Desk.Agree h.asked t.asked)
        (liftM (prepare r.caller.space r.document.path) : Job _) (r.deskAt h) (r.deskAt t) :=
      Alike.liftJob hprepare rfl
    show Alike _ (_ >>= r.reads) _ _
    exact hjob.bind fun x => (Lint.Flake8.steady_runOn _ _).bind fun _ =>
      Steady.files.bind fun _ => Steady.ofExcept _
  rw [outcome, outcome]
  rcases hlint with ⟨found, desk, desk', hx, hx', hR⟩ | ⟨f, desk, desk', hx, hx', hR⟩
  all_goals
    obtain ⟨new, hnew, hnew'⟩ := hR.host.asked
    rw [hx, hx']
    dsimp only
    rw [hnew, hnew', List.drop_left, List.drop_left]

/-- **A request that adds codes** gets them twice the next time. -/
theorem prepared_again (hh : h.Coherent) (hadds : r.Adds h) {x : Value × List Value}
    (hx : r.prepared h = .ok x) : ∃ y, r.prepared (r.step h) = .ok y ∧ Doubles x y := by
  have hcoherent : ({ h with engines := r.engines } : Host).Coherent := ⟨hh.eq_of_id, hh.settled⟩
  rw [prepared_of_coherent hh] at hx
  have hadds' : Lint.Flake8.Adds { h with engines := r.engines } r.caller.space r.document.path :=
    hadds
  obtain ⟨value, y, hprepare, hy, hdoubles⟩ := hadds'.ensures_prepare hcoherent hx
  have hanswers : (r.step h).Answers r.caller.space r.document.path value :=
    step_of_prepare (fun _ _ ha => ⟨ha.found⟩)
      (hprepare.mono (fun _ _ ha => ha) fun _ _ hfalse => hfalse.elim)
  refine ⟨y, ?_, hdoubles⟩
  have hrun := ensures_prepare hanswers.gives
  rw [← hy, prepared]
  cases hstep : prepare r.caller.space r.document.path (r.step h) with
  | ok z t => exact (hrun.ok hstep).1.symm
  | error f t => exact (hrun.error hstep).symm

/-- The host after some requests. -/
def after (h : Host) (rs : List LintCall) : Host := rs.foldl (fun h r => r.step h) h

/-- **When lints leave each other alone.** On a host whose cache is coherent, such as a fresh one,
flake8 is prepared for a document with the codes of its settings, followed by the codes of just
those entries that apply to its path. After any requests that add no codes it is prepared and
started just so for every document, and requests that add none are answered as on the fresh host.
But a request that adds codes gets them twice the next time: so for requests that can be prepared,
the arguments are always those of the fresh host just if none of the requests adds codes. That is
so of the arguments without remarks, which flake8 is started with, too, if there are no semicolons
among the codes. -/
theorem same_arguments_iff_never_adds (h : Host) (hh : h.Coherent) :
    (∀ (r : LintCall) (settings : Value) (items entries : List Value),
      h.settingsOf r.caller.space "flake8" (.str r.document.path) = .ok settings →
      settings.getD "ignore" (.list []) = .ok (.list items) → entriesOf settings = .ok entries →
      r.prepared h = do
        commandLine settings (.list (items ++ (← codesFor r.document.path entries)))) ∧
    (∀ rs : List LintCall, (∀ r ∈ rs, ¬ r.Adds h) → ∀ r : LintCall,
      r.prepared (after h rs) = r.prepared h ∧ r.started (after h rs) = r.started h ∧
        (¬ r.Adds h → r.outcome (after h rs) = r.outcome h)) ∧
    (∀ S : Set LintCall, (∀ r ∈ S, ∃ x, r.prepared h = .ok x) →
      ((∀ rs : List LintCall, (∀ r ∈ rs, r ∈ S) → ∀ r ∈ S, r.prepared (after h rs) = r.prepared h) ↔
        ∀ r ∈ S, ¬ r.Adds h)) ∧
    (∀ S : Set LintCall,
      (∀ r ∈ S, ∃ x, r.prepared h = .ok x ∧ ∀ a ∈ x.2, isRemarked a = false) →
      ((∀ rs : List LintCall, (∀ r ∈ rs, r ∈ S) → ∀ r ∈ S, r.started (after h rs) = r.started h) ↔
        ∀ r ∈ S, ¬ r.Adds h)) := by
  have hkept : ∀ rs : List LintCall, (∀ r ∈ rs, ¬ r.Adds h) → ∀ r : LintCall,
      r.prepared (after h rs) = r.prepared h ∧ r.started (after h rs) = r.started h ∧
        (¬ r.Adds h → r.outcome (after h rs) = r.outcome h) := by
    intro rs hrs r
    have hafter : h.Undisturbed (after h rs) := undisturbed_foldl hrs ⟨rfl, hh⟩
    have hprepared : r.prepared (after h rs) = r.prepared h := by
      rw [prepared_of_coherent hafter.coherent, prepared_of_coherent hh, commandOf, commandOf,
        hafter.settingsOf]
    exact ⟨hprepared, by rw [started, started, hprepared], outcome_of_undisturbed hh hafter⟩
  -- what one request changes for itself, a run of this request alone shows
  have hself : ∀ {β : Type} (f : LintCall → Host → β) {S : Set LintCall} {r : LintCall}, r ∈ S →
      (∀ rs : List LintCall, (∀ r ∈ rs, r ∈ S) → ∀ r ∈ S, f r (after h rs) = f r h) →
      f r (r.step h) = f r h := by
    intro β f S r hr hsame
    refine hsame [r] (fun r' hr' => ?_) r hr
    rwa [List.mem_singleton.1 hr']
  refine ⟨fun r settings items entries hsettings hitems hentries => ?_, hkept,
    fun S hS => ⟨fun hsame r hr hadds => ?_, fun hnever rs hrs r hr => ?_⟩,
    fun S hS => ⟨fun hsame r hr hadds => ?_, fun hnever rs hrs r hr => ?_⟩⟩
  · rw [prepared_of_coherent hh, commandOf, hsettings]
    show (do commandLine settings (← ignoredCodes r.document.path settings)) = _
    rw [ignoredCodes_of_list hitems hentries]
    cases codesFor r.document.path entries <;> rfl
  · obtain ⟨x, hx⟩ := hS r hr
    obtain ⟨y, hy, hdoubles⟩ := prepared_again hh hadds hx
    have hsame' := hself (fun r h => r.prepared h) hr hsame
    exact hdoubles.ne (Except.ok.inj (hx.symm.trans (hsame'.symm.trans hy)))
  · exact (hkept rs (fun r hr => hnever r (hrs r hr)) r).1
  · obtain ⟨x, hx, hplain⟩ := hS r hr
    obtain ⟨y, hy, hdoubles⟩ := prepared_again hh hadds hx
    obtain ⟨args, args', hargs, hargs', hne⟩ := hdoubles.cleanArguments_ne hplain
    have hsame' := hself (fun r h => r.started h) hr hsame
    rw [started, started, hx, hy, ok_bind, ok_bind, hargs, hargs'] at hsame'
    exact hne (Prod.mk.inj (Except.ok.inj hsame')).2.symm
  · exact (hkept rs (fun r hr => hnever r (hrs r hr)) r).2.1

/-- A client that ignores a code everywhere, and has an entry for a single file. -/
def sharing (entry : String) : Host where
  spaces := [{ rootUri := "file:///w", scheme := "file", rootPath := "/w"
               config := some { id := 1, rootUri := "file:///w", rootPath := "/w"
                                client := .object [("plugins", .object [("flake8", .object [
                                  ("ignore", .list [.str "E501"]),
                                  ("perFileIgnores", .list [.str entry])])])] } }]

/-- A request to lint a file. -/
def ofFile (name : String) : LintCall where
  caller := ⟨0, 0⟩
  document := { uri := "file:///w/" ++ name, path := "/w/" ++ name, dotName := name
                filename := name, source := .text "x\n" }
  engines := {}

/-- A lint of one file leaves its codes to another: they are in the client's own list. A remark
behind them hides that from flake8 the next time. -/
theorem arguments_leak_to_other_file :
    let shared := sharing "a.py:F401"
    let remarked := sharing "a.py:F401;x"
    let own := ofFile "a.py"
    let other := ofFile "b.py"
    let line (codes : String) : Option (Value × List Value) :=
      some (.str "flake8", [.str "-", .str ("--ignore=" ++ codes)])
    shared.Coherent ∧ own.Adds shared ∧ ¬ other.Adds shared ∧
      (own.started shared).toOption = line "E501,F401" ∧
      (own.started (own.step shared)).toOption = line "E501,F401,F401" ∧
      (other.started shared).toOption = line "E501" ∧
      (other.started (own.step shared)).toOption = line "E501,F401" ∧
      (¬ ∀ rs : List LintCall, (∀ r ∈ rs, r ∈ ({own} : Set LintCall)) →
        ∀ r ∈ ({own} : Set LintCall), r.started (after shared rs) = r.started shared) ∧
      own.Adds remarked ∧
      (own.prepared (own.step remarked)).toOption = line "E501,F401;x,F401;x" ∧
      (own.started remarked).toOption = line "E501,F401" ∧
      (own.started (own.step remarked)).toOption = line "E501,F401" := by
  intro shared remarked own other line
  have hcoherent : shared.Coherent := Host.coherent_of_single rfl rfl
  have hsettings : ∀ entry ∈ ["a.py:F401", "a.py:F401;x"], ∀ name ∈ ["a.py", "b.py"],
      ((sharing entry).settingsOf 0 "flake8" (.str ("/w/" ++ name))).toOption = some (.object [
        ("ignore", .list [.str "E501"]), ("perFileIgnores", .list [.str entry])]) := by
    decide +kernel
  have hadds : ∀ {entry : String} (code : String), entry ∈ ["a.py:F401", "a.py:F401;x"] →
      (fileIgnoresFor "/w/a.py" (.str entry)).toOption = some (some [.str code]) →
      own.Adds (sharing entry) := by
    intro entry code hentry hcode
    exact ⟨_, [.str "E501"], [.str entry],
      eq_ok_of_toOption (hsettings entry hentry "a.py" (by decide)), by rfl, by rfl, .str entry,
      List.mem_singleton_self _, [.str code], eq_ok_of_toOption hcode⟩
  have hown : own.Adds shared := hadds "F401" (by decide) (by decide +kernel)
  refine ⟨hcoherent, hown, ?_, by decide +kernel, by decide +kernel, by decide +kernel,
    by decide +kernel, ?_, hadds "F401;x" (by decide) (by decide +kernel), by decide +kernel,
    by decide +kernel, by decide +kernel⟩
  · rintro ⟨settings, items, entries, hsettings', -, hentries, entry, hentry, codes, hcodes⟩
    obtain rfl := Except.ok.inj ((eq_ok_of_toOption
      (hsettings "a.py:F401" (by decide) "b.py" (by decide))).symm.trans hsettings')
    obtain rfl : [.str "a.py:F401"] = entries := Except.ok.inj hentries
    obtain rfl := List.mem_singleton.1 hentry
    have hnone : (fileIgnoresFor other.document.path (.str "a.py:F401")).toOption = some none := by
      decide +kernel
    cases (eq_ok_of_toOption hnone).symm.trans hcodes
  · rw [(same_arguments_iff_never_adds shared hcoherent).2.2.2 {own} ?_]
    · exact fun hnever => hnever own rfl hown
    · rintro r rfl
      refine ⟨_, eq_ok_of_toOption (by decide +kernel : (own.prepared shared).toOption =
        some (.str "flake8", [.str "-", .str "--ignore=E501,F401"])), ?_⟩
      decide

end LintCall
end LangServer
