import LangServer.Proofs.Completion.Lookups

/-!
# How a completion request goes on

What a request for completions does before it makes the first item is the same for all names: it
reads the settings, asks the engine, and finds out what the client wants. From this comes the plan
of the request (`Plan.of`), and until then no resolver is asked and the engine is asked for no
signatures (`Prepares`). Then the items are made in one round or two (`ensures_offerNames`).
-/

namespace LangServer

open Relation Completion

/-! ## Before the first item -/

namespace Host

variable {h h' : Host}

/-- The engines were asked between the hosts, but not for signatures, and no resolver was. -/
structure Quiet (h h' : Host) : Prop where
  machine : h'.machine = h.machine
  engines : h'.engines = h.engines
  labels : h'.labels = h.labels
  snippets : h'.snippets = h.snippets
  capabilities : ∀ n, (h'.configAt n).map (·.capabilities) = (h.configAt n).map (·.capabilities)
  asked : ∃ others, h'.asked = h.asked ++ others ∧ ∀ name, .signatures name ∉ others

theorem Quiet.refl (h : Host) : h.Quiet h :=
  ⟨rfl, rfl, rfl, rfl, fun _ => rfl, [], (List.append_nil _).symm, fun _ => List.not_mem_nil⟩

theorem Quiet.trans {h'' : Host} (h1 : h.Quiet h') (h2 : h'.Quiet h'') : h.Quiet h'' := by
  obtain ⟨others, hothers, hnot⟩ := h1.asked
  obtain ⟨others', hothers', hnot'⟩ := h2.asked
  refine ⟨h2.machine.trans h1.machine, h2.engines.trans h1.engines, h2.labels.trans h1.labels,
    h2.snippets.trans h1.snippets, fun n => (h2.capabilities n).trans (h1.capabilities n),
    others ++ others', ?_, fun name hmem => ?_⟩
  · rw [hothers', hothers, List.append_assoc]
  · exact (List.mem_append.1 hmem).elim (hnot name) (hnot' name)

theorem capabilities_amendClient (revision : Nat) (path : List String)
    (shared : Settings.Settled → Bool) (f : Value → Value) (h : Host) (n : Nat) :
    ((amendClient revision path shared f h).configAt n).map (·.capabilities) =
      (h.configAt n).map (·.capabilities) := by
  rw [configAt_amendClient, Option.map_map]
  congr 1
  funext c
  rw [Function.comp_apply]
  split <;> rfl

theorem configAt_equipped {n : Nat} {w : Workspace} (hw : h.spaces[n]? = some w)
    (environments : List Value) (hasProject : Bool) (m : Nat) :
    ({ h with spaces := h.spaces.set n { w with environments, hasProject } } : Host).configAt m =
      h.configAt m := by
  obtain ⟨hlt, -⟩ := List.getElem?_eq_some_iff.1 hw
  rw [configAt, configAt, List.getElem?_set]
  by_cases hm : n = m
  · subst hm
    rw [if_pos rfl, if_pos hlt, hw]
    rfl
  · rw [if_neg hm]

theorem Engage.quiet (hstep : h.Engage h') : h.Quiet h' := by
  have hnone : ∃ others : List Request, h.asked = h.asked ++ others ∧
      ∀ name, .signatures name ∉ others :=
    ⟨[], (List.append_nil _).symm, fun _ => List.not_mem_nil⟩
  rcases hstep with ⟨hq⟩ | _ | _ | ⟨hw, _, _⟩
  · refine ⟨rfl, rfl, rfl, rfl, fun _ => rfl, _, rfl, fun name hmem => ?_⟩
    exact hq name (List.mem_singleton.1 hmem).symm
  · exact ⟨rfl, rfl, rfl, rfl, fun _ => rfl, hnone⟩
  · exact ⟨rfl, rfl, rfl, rfl, capabilities_amendClient _ _ _ _ h, hnone⟩
  · exact ⟨rfl, rfl, rfl, rfl, fun m => by rw [configAt_equipped hw], hnone⟩

theorem quiet_of_steps (hsteps : ReflTransGen Engage h h') : h.Quiet h' := by
  induction hsteps with
  | refl => exact .refl h
  | tail _ hstep ih => exact ih.trans hstep.quiet

end Host

/-- The resolver with other modules whose completions are kept, unless they are null. -/
def Completion.Resolver.keeping (modules : Value) (r : Resolver) : Resolver :=
  if modules.isNull then r else Use.act r (.setModules modules)

namespace Host

variable {h h' : Host}

def keeping (modules : Value) (h : Host) : Host :=
  { h with labels := h.labels.keeping modules, snippets := h.snippets.keeping modules }

theorem Quiet.keeping (hq : h.Quiet h') (modules : Value) :
    (h.keeping modules).Quiet (h'.keeping modules) := by
  refine ⟨hq.machine, hq.engines, ?_, ?_, hq.capabilities, hq.asked⟩
  · rw [Host.keeping, Host.keeping, hq.labels]
  · rw [Host.keeping, Host.keeping, hq.snippets]

end Host

namespace Completion

open Host

variable {desk : Desk} {d : Document}

/-- Are snippets offered at a position of the document? -/
def snippetsAt (h : Host) (d : Document) (position : Value) : Bool :=
  (do statementAt (← d.readOr .noMember h.machine.files).toList position :
    Except Fault (List Char)).toOption.any (allowsSnippets h.engines.statementKind)

/-- How the names of a request are offered. -/
structure Plan where
  /-- With snippets. -/
  params : Bool
  /-- Classes once more as objects. -/
  objects : Bool
  /-- With detail and documentation. -/
  eager : Bool
  /-- The places whose names are looked up. -/
  within : Nat → Bool

/-- The plan by the settings of the plugin and the capabilities of the client, where snippets are
offered or not. -/
def Plan.of (settings capabilities : Value) (offered : Bool) : Except Fault Plan := do
  let eager ← settings.getD "eager" (.bool false)
  let support ← snippetSupport capabilities
  let withParams ← settings.get "include_params"
  let withObjects ← settings.getD "include_class_objects" (.bool true)
  let within ← placesBelow (← settings.getD "resolve_at_most" (.int 25))
  return {
    params := support.truthy && withParams.truthy && offered
    objects := support.truthy && withObjects.truthy && offered
    eager := eager.truthy
    within }

/-- The plan of a request and the host before the first item is made. -/
def Prepares (c : Caller) (position : Value) (h : Host) (d : Document) (p : Plan) (h' : Host) :
    Prop :=
  ∃ settings h₀ config modules,
    pluginSettings c.config "jedi_completion" (.str d.path) h = .ok settings h₀ ∧
    h.configAt c.config = some config ∧
    Plan.of settings config.capabilities (snippetsAt h d position) = .ok p ∧
    settings.get "cache_for" = .ok modules ∧ (h.keeping modules).Quiet h'

theorem work_keeping (h : Host) (modules : Value) : ReflTransGen Work h (h.keeping modules) := by
  rw [Host.keeping, Resolver.keeping, Resolver.keeping]
  split
  · exact .refl
  · refine (ReflTransGen.single (.labels h (.setModules modules) rfl)).tail ?_
    exact .snippets { h with labels := Resolver.Use.act h.labels (.setModules modules) }
      (.setModules modules)

theorem ensures_keepModules (modules : Value) (desk : Desk) :
    Ensures (keepModules modules) desk
      (fun _ t => t = { desk with host := desk.host.keeping modules }) fun _ t => t = desk := by
  rw [keepModules, Host.keeping, Resolver.keeping, Resolver.keeping]
  cases modules.isNull with
  | true => rfl
  | false =>
    rw [if_pos (by rfl), ensures_bind, ensures_get]
    simp only [ensures_bind, ensures_liftExcept, ensures_modify, Resolver.Use.act]
    refine ⟨fun labels hlabels => ⟨fun snippets hsnippets => ?_, fun _ _ => trivial⟩,
      fun _ _ => trivial⟩
    rw [hlabels, hsnippets]
    rfl

theorem ensures_usesSnippets_engage (position : Value) (hd : desk.document = some d) :
    Ensures (usesSnippets position) desk
      (fun offered t => offered = snippetsAt desk.host d position ∧
        ReflTransGen (Desk.Along Engage) desk t)
      fun _ t => ReflTransGen (Desk.Along Engage) desk t := by
  rw [usesSnippets, ensures_bind, ensures_liftExcept]
  refine ⟨fun _ _ => ?_, fun _ _ => .refl⟩
  simp only [Job.source, Job.sourceOr, Job.document, Job.files, Job.engines, ensures_bind,
    ensures_get, hd, ensures_pure, ensures_liftExcept, Job.ask, Host.ask, ensures_liftJob,
    ensures_modify]
  refine ⟨fun source hsource => ⟨fun code hcode => ⟨?_, ?_⟩, fun _ _ => .refl⟩, fun _ _ => .refl⟩
  · rw [snippetsAt, hsource, ok_bind, hcode]
    rfl
  · exact .single ⟨hd.symm, .asked desk.host fun _ => Request.noConfusion⟩

theorem ensures_wantsSnippets (wanted : Bool) (position : Value) (hd : desk.document = some d) :
    Ensures (wantsSnippets wanted position) desk
      (fun offered t => offered = (wanted && snippetsAt desk.host d position) ∧
        ReflTransGen (Desk.Along Engage) desk t)
      fun _ t => ReflTransGen (Desk.Along Engage) desk t := by
  cases wanted with
  | false => exact ⟨rfl, .refl⟩
  | true => exact ensures_usesSnippets_engage position hd

theorem snippetsAt_eq {h h' : Host} (hq : h.Quiet h') (d : Document) (position : Value) :
    snippetsAt h' d position = snippetsAt h d position := by
  rw [snippetsAt, snippetsAt, hq.machine, hq.engines]

/-- The classes that are offered once more. -/
def Plan.classes (p : Plan) (names : List Name) : List (Name × Nat) :=
  if p.objects then names.zipIdx.filter fun a => a.1.kind == "class" else []

/-- What is asked for when the item at a place is made. -/
def Plan.wishes (p : Plan) (snippet : Bool) (a : Name × Nat) : Wishes :=
  { snippet, eager := p.eager, resolvers := p.within a.2 }

/-- The look-ups of a round on a machine. -/
def Plan.round (p : Plan) (m : Machine) (snippet : Bool) (xs : List (Name × Nat)) : List Lookup :=
  xs.flatMap fun a => (p.wishes snippet a).lookups m a.1

/-- **The items for names**: they are made in one round, and those for objects in another. -/
theorem ensures_offerNames (p : Plan) (names : List Name) (hd : desk.document = some d) :
    Ensures (offerNames p.params p.objects p.eager p.within names) desk
      (fun v t => ∃ h items extra,
        h = (p.round desk.host.machine p.params names.zipIdx).foldl look desk.host ∧
        t.host = (p.round desk.host.machine false (p.classes names)).foldl look h ∧
        List.Forall₂ (fun a item => ∃ label snippet,
          MadeFor a.1 (p.wishes p.params a) desk.host h label snippet item) names.zipIdx items ∧
        List.Forall₂ (fun a object => ∃ label snippet made,
          MadeFor a.1 (p.wishes false a) h t.host label snippet made ∧ object = asObject made)
          (p.classes names) extra ∧
        v = .list ((items.map (withDocument d.uri) ++
          extra.map (withDocument d.uri)).map .object) ∧
        t.document = some { d with
          offers := some (byLabel ((items.map (withDocument d.uri)).zip names)) })
      fun _ t => ReflTransGen (Desk.Along Work) desk t := by
  have hitems : makeItems p.params p.eager p.within names =
      names.zipIdx.mapM fun a => do return id (← makeItem a.1 (p.wishes p.params a)) := by
    simp only [makeItems, id, bind_pure, Plan.wishes]
  have hobjects : (if p.objects then makeObjects p.eager p.within names else pure []) =
      (p.classes names).mapM fun a => do return asObject (← makeItem a.1 (p.wishes false a)) := by
    rw [Plan.classes]
    cases p.objects <;> rfl
  rw [offerNames, hitems, hobjects, ensures_bind, ensures_liftJob]
  refine (ensures_mapM_makeItem id _ _ _).mono ?_ fun _ _ hl => Desk.along_of_host hl.work
  rintro items h ⟨hh, hitems⟩
  have hlooks : desk.host.Looks h := ⟨_, hh⟩
  rw [ensures_bind, ensures_liftJob]
  refine (ensures_mapM_makeItem asObject _ _ _).mono ?_ fun _ _ hl =>
    Desk.along_of_host (hlooks.trans hl).work
  rintro extra h' ⟨hh', hextra⟩
  rw [hlooks.machine] at hh'
  simp only [Job.document, Job.setDocument, ensures_bind, ensures_get, hd, ensures_pure,
    ensures_modify]
  refine ⟨h, items, extra, hh, hh', hitems.imp ?_, hextra, rfl, rfl⟩
  rintro a item ⟨label, snippet, made, hmade, rfl⟩
  exact ⟨label, snippet, hmade⟩

theorem work_of_engage {u v : Desk} (hsteps : ReflTransGen (Desk.Along Engage) u v) :
    ReflTransGen (Desk.Along Work) u v :=
  ReflTransGen.lift id (fun _ _ hstep => ⟨hstep.document, hstep.host.work⟩) u v hsteps

/-- **What a request does with names**, once it has the settings: it makes a plan, and then it makes
the items. -/
theorem ensures_planned {c : Caller} {position settings eager : Value} {names : List Name}
    {h₀ : Host} {t : Desk} (hd : desk.document = some d)
    (hsettings : pluginSettings c.config "jedi_completion" (.str d.path) desk.host =
      .ok settings h₀)
    (heager : settings.getD "eager" (.bool false) = .ok eager)
    (ht : ReflTransGen (Desk.Along Engage) desk t) :
    Ensures (do
      let support ← liftExcept (snippetSupport (← Host.config c.config).capabilities)
      let withParams ← liftExcept (settings.get "include_params")
      let withObjects ← liftExcept (settings.getD "include_class_objects" (.bool true))
      let limit ← liftExcept (settings.getD "resolve_at_most" (.int 25))
      keepModules (← liftExcept (settings.get "cache_for"))
      let params ← wantsSnippets (support.truthy && withParams.truthy) position
      let objects ← wantsSnippets (support.truthy && withObjects.truthy) position
      offerNames params objects eager.truthy (← liftExcept (placesBelow limit)) names : Job Value) t
      (fun v t' => ∃ p u, Prepares c position desk.host d p u.host ∧
        ReflTransGen (Desk.Along Work) desk u ∧
        offerNames p.params p.objects p.eager p.within names u = .ok v t')
      fun _ t' => ReflTransGen (Desk.Along Work) desk t' := by
  have hquiet := quiet_of_steps (Desk.host_of_along ht)
  have hwork := work_of_engage ht
  rw [ensures_bind, ensures_liftJob, ensures_config_iff]
  refine ⟨fun config hconfig => ?_, fun _ => hwork⟩
  rw [ensures_bind, ensures_liftExcept]
  refine ⟨fun support hsupport => ?_, fun f _ => hwork⟩
  rw [ensures_bind, ensures_liftExcept]
  refine ⟨fun withParams hparams => ?_, fun f _ => hwork⟩
  rw [ensures_bind, ensures_liftExcept]
  refine ⟨fun withObjects hobjects => ?_, fun f _ => hwork⟩
  rw [ensures_bind, ensures_liftExcept]
  refine ⟨fun limit hlimit => ?_, fun f _ => hwork⟩
  rw [ensures_bind, ensures_liftExcept]
  refine ⟨fun modules hmodules => ?_, fun f _ => hwork⟩
  refine (ensures_keepModules modules _).bind ?_ fun f t h => h ▸ hwork
  rintro _ u hu
  -- From here on the resolvers keep the modules, so the steps are no longer those of `Engage`.
  have hwu : ReflTransGen (Desk.Along Work) desk u := by
    rw [hu]
    exact hwork.trans (Desk.along_of_host (work_keeping _ modules))
  have hkept : (desk.host.keeping modules).Quiet u.host := by
    rw [hu]
    exact hquiet.keeping modules
  have hdoc : u.document = some d := (Desk.document_of_along hwu).trans hd
  refine (ensures_wantsSnippets _ position hdoc).bind ?_ fun _ _ h => hwu.trans (work_of_engage h)
  rintro params u' ⟨hparams', hu'⟩
  have hkept' := hkept.trans (quiet_of_steps (Desk.host_of_along hu'))
  replace hwu := hwu.trans (work_of_engage hu')
  refine (ensures_wantsSnippets _ position ((Desk.document_of_along hwu).trans hd)).bind ?_
    fun _ _ h => hwu.trans (work_of_engage h)
  rintro objects u'' ⟨hobjects', hu''⟩
  replace hwu := hwu.trans (work_of_engage hu'')
  rw [ensures_bind, ensures_liftExcept]
  refine ⟨fun within hwithin => ?_, fun _ _ => hwu⟩
  obtain ⟨before, hbefore, hsame⟩ : ∃ before, desk.host.configAt c.config = some before ∧
      before.capabilities = config.capabilities := by
    have hsame := hquiet.capabilities c.config
    rw [hconfig] at hsame
    exact Option.map_eq_some_iff.1 hsame.symm
  have hplan : Plan.of settings before.capabilities (snippetsAt desk.host d position) =
      .ok ⟨params, objects, eager.truthy, within⟩ := by
    rw [snippetsAt_eq hkept] at hparams'
    rw [snippetsAt_eq hkept'] at hobjects'
    rw [Plan.of, heager, ok_bind, hsame, hsupport, ok_bind, hparams, ok_bind, hobjects, ok_bind,
      hlimit, ok_bind, hwithin, ok_bind, hparams', hobjects']
    rfl
  refine ((Ensures.self _ _).and (ensures_offerNames ⟨params, objects, eager.truthy, within⟩ names
    ((Desk.document_of_along hwu).trans hd))).mono ?_ fun _ _ h => hwu.trans h.2
  rintro v t ⟨hrun, -⟩
  exact ⟨_, u'', ⟨settings, h₀, before, modules, hsettings, hbefore, hplan, hmodules,
    hkept'.trans (quiet_of_steps (Desk.host_of_along hu''))⟩, hwu, hrun⟩

/-- **A request**: without names there is no answer, and else the names are offered by a plan. -/
theorem ensures_completions_prepared (c : Caller) (position : Value)
    (hd : desk.document = some d) :
    Ensures (completions c position) desk
      (fun v t => ∃ names, desk.host.engines.completions = .ok names ∧
        (names = [] ∧ v = .null ∧ ReflTransGen (Desk.Along Work) desk t ∨
          names ≠ [] ∧ ∃ p u, Prepares c position desk.host d p u.host ∧
            ReflTransGen (Desk.Along Work) desk u ∧
            offerNames p.params p.objects p.eager p.within names u = .ok v t))
      fun _ t => ReflTransGen (Desk.Along Work) desk t := by
  have hbad : ∀ (f : Fault) t, ReflTransGen (Desk.Along Engage) desk t →
      ReflTransGen (Desk.Along Work) desk t := fun _ _ => work_of_engage
  have hsettings : Ensures
      (liftM (pluginSettings c.config "jedi_completion" (.str d.path)) : Job Value) desk
      (fun settings _ => ∃ h₀,
        pluginSettings c.config "jedi_completion" (.str d.path) desk.host = .ok settings h₀)
      fun _ _ => True := by
    rw [ensures_liftJob]
    exact (Ensures.self _ _).mono (fun _ h₀ h => ⟨h₀, h⟩) fun _ _ _ => trivial
  rw [completions, Job.pathValue, Job.document, ensures_bind, ensures_bind, ensures_bind,
    ensures_get, hd]
  simp only [ensures_pure]
  rw [ensures_bind]
  refine (hsettings.and ((moves_pluginSettings_of (r := Engage) (fun h _ _ hc => .settled h hc)
    _ _ _).liftJob desk)).mono ?_ fun f t h => hbad f t h.2
  rintro settings t ⟨⟨h₀, hsettings⟩, ht⟩
  rw [ensures_bind, ensures_liftExcept]
  refine ⟨fun eager heager => ?_, fun f _ => hbad f _ ht⟩
  refine (Engine.moves_place _).ensures_bind ht (fun place t ht => ?_) hbad
  refine (Moves.ofExcept _).ensures_bind ht (fun fuzzy t ht => ?_) hbad
  refine ((Engine.ensures_query _ _ _ _ t).and (Engine.moves_query_engage _ _ _ _ t)).bind ?_
    fun f _ h => hbad f _ (ht.trans h.2)
  rintro names t' ⟨⟨hnames, -⟩, ht'⟩
  rw [(quiet_of_steps (Desk.host_of_along ht)).engines] at hnames
  by_cases hne : names = []
  · subst hne
    exact ⟨[], hnames, .inl ⟨rfl, rfl, work_of_engage (ht.trans ht')⟩⟩
  rw [if_neg (by rwa [List.isEmpty_iff])]
  exact (ensures_planned hd hsettings heager (ht.trans ht')).imp
    (fun _ _ h => ⟨names, hnames, .inr ⟨hne, h⟩⟩)

end Completion
end LangServer
