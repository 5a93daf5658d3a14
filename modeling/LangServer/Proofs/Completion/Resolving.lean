import LangServer.Proofs.Completion.Offerings
import LangServer.Proofs.Roots

/-!
# What an item is resolved to

When an item of an answer comes back to be resolved, the first plugin that is switched on answers,
whoever made the item, and it goes by the label alone: of equal labels it has the last, and the
items for the objects of classes it has not kept at all. So an item comes back with its own detail
and documentation if its plugin is asked first, has kept it, and offered no later one with the same
label; in all other cases the answer is what the plugin that is asked finds under the label
(`Session.item_resolved_by_its_label`).

Nothing but another request for completions of the same document changes what is found there, as
long as the document stays open (`Session.rel_openDocument?_after`).
-/

namespace LangServer

open Relation Completion

/-! ## Requests about completions -/

namespace Session

variable {s t : Session} {uri : String}

/-- A hook is called with the document that is open under a URI, or else with a new one, on which
nothing has been offered. An empty URI stands for no document. -/
def Fits (s : Session) (uri : String) (now : Setting) : Prop :=
  s.config = some now.caller.config ∧ s.spaceOf? uri = some now.caller.space ∧
    (uri.isEmpty = true ∧ now.document = none ∧ now.openAs = none ∨
      uri.isEmpty = false ∧ ∃ d, now.document = some d ∧
        (s.openDocument? uri = some d ∧ now.openAs = some uri ∨
          s.openDocument? uri = none ∧ now.openAs = none ∧
            d.uri = uri ∧ d.offers = none ∧ d.proposals = none))

theorem ensures_settingFor_fits (hs : s.Rooted) (uri : String) :
    Ensures (settingFor (.str uri)) s (fun now t => t = s ∧ s.Fits uri now)
      fun _ _ => s.openDocument? uri = none := by
  obtain ⟨r, -, hr, hconfig, -⟩ := hs.root
  rcases hopen : s.openDocument? uri with _ | d
  · simp only [settingFor, spaceFor, ensures_bind, ensures_get, ensures_pure]
    split
    · rename_i hempty
      simp only [ensures_bind, ensures_get, ensures_require, ensures_pure]
      exact ⟨fun c hc => ⟨fun n hn => ⟨trivial, hc, hn, .inl ⟨hempty, rfl, rfl⟩⟩,
        fun _ => trivial⟩, fun _ => trivial⟩
    · rename_i hempty
      simp only [Host.document, Host.newDocument, ensures_bind, ensures_get, ensures_require,
        ensures_liftAct, Host.ensures_space]
      refine ⟨fun n hn => ⟨fun w hw => ?_, fun _ => trivial⟩, fun _ => trivial⟩
      have hnone : Value.lookup uri w.documents = none := by
        rw [openDocument?, hn, Option.bind_some, Host.documentAt, hw] at hopen
        exact hopen
      rw [hnone]
      simp only [ensures_bind, ensures_get, ensures_liftExcept, Host.ensures_space, hw,
        ensures_pure]
      refine ⟨fun w₁ hw₁ => ⟨fun d hd => ⟨fun c hc => ⟨fun w₂ hw₂ => ⟨trivial, hc, hn, .inr ?_⟩,
        fun _ => trivial⟩, fun _ => trivial⟩, fun _ _ => trivial⟩, fun _ => trivial⟩
      obtain rfl := Option.some_inj.1 hw₂
      refine ⟨Bool.eq_false_iff.2 hempty, d, rfl, .inr ⟨hopen, ?_, ?_⟩⟩
      swap
      · exact Workspace.blank_of_newDocument hd
      rw [hnone]
      rfl
  · obtain ⟨n, hn, hd⟩ := Option.bind_eq_some_iff.1 hopen
    refine (ensures_settingFor hn hd hconfig).mono ?_ fun _ _ h => h.elim
    rintro now t ⟨rfl, hcaller, ⟨hempty, hdocument, hopenAs⟩ | ⟨hempty, hdocument, hopenAs⟩⟩
    · refine ⟨rfl, ?_, ?_, .inl ⟨hempty, hdocument, hopenAs⟩⟩ <;> rw [hcaller]
      · exact hconfig
      · exact hn
    · refine ⟨rfl, ?_, ?_, .inr ⟨hempty, d, hdocument, .inl ⟨hopen, hopenAs⟩⟩⟩ <;> rw [hcaller]
      · exact hconfig
      · exact hn

/-- The host once a hook has been called: a document that is open keeps what was left on it. -/
def Setting.keep (now : Setting) (desk : Desk) : Host :=
  match now.openAs, desk.document with
  | some u, some d => desk.host.put now.caller.space u d
  | _, _ => desk.host

theorem openDocument?_keep {now : Setting} (hfits : s.Fits uri now) (hempty : uri.isEmpty = false)
    {desk : Desk} (hspares : s.host.Spares desk.host) {d' : Document}
    (hd' : desk.document = some d') :
    ({ s with host := now.keep desk } : Session).openDocument? uri =
      (s.openDocument? uri).map fun _ => d' := by
  obtain ⟨-, hn, ⟨hnot, -⟩ | ⟨-, d, -, hdoc⟩⟩ := hfits
  · cases hempty.symm.trans hnot
  have hspace : ∀ host, ({ s with host } : Session).openDocument? uri =
      host.documentAt now.caller.space uri := by
    intro host
    rw [openDocument?]
    exact congrArg (Option.bind · _) hn
  rcases hdoc with ⟨hopen, hopenAs⟩ | ⟨hclosed, hopenAs, -⟩
  · have hlt := Nat.lt_of_lt_of_le
      (Host.lt_of_documentAt ((hspace s.host).symm.trans hopen)) hspares.length_le
    rw [hspace, Setting.keep, hopenAs, hd', hopen]
    dsimp only
    rw [Host.documentAt_put hlt, if_pos ⟨rfl, rfl⟩]
    rfl
  · rw [hspace, Setting.keep, hopenAs, hclosed]
    exact (hspares.documentAt _ _).trans ((hspace s.host).symm.trans hclosed)

/-- **Calling a hook** can fail only for a document that is not open. -/
theorem ensures_hook_fits (hs : s.Rooted) (hp : s.host.Primed) (h : Hook) (uri : String) :
    Ensures (hook h (.str uri)) s
      (fun v t => ∃ now config desk, s.Fits uri now ∧
        s.host.configAt now.caller.config = some config ∧
        h.call now.caller (s.host.machine.loaded.filter fun p => config.runs s.host.machine p)
          ⟨s.host, now.document⟩ = (v, desk) ∧ t = { s with host := now.keep desk })
      fun _ _ => s.openDocument? uri = none := by
  rw [hook]
  refine (ensures_settingFor_fits hs uri).bind ?_ fun _ _ h => h
  rintro now s ⟨rfl, hfits⟩
  obtain ⟨r, _, -, hr, -, hsite⟩ := hs.root
  obtain ⟨w, hw, hsite⟩ := Option.bind_eq_some_iff.1 hsite
  obtain ⟨config, hconfig, -⟩ := Option.map_eq_some_iff.1 hsite
  have hat : s.host.configAt now.caller.config = some config := by
    rw [← Option.some_inj.1 (hr.symm.trans hfits.1), Host.configAt, hw]
    exact hconfig
  simp only [plugins, ensures_bind, ensures_get, ensures_pure, ensures_liftAct,
    Host.ensures_config_iff, ensures_set, hat, Option.some_inj]
  refine ⟨?_, fun hnone => by cases hnone⟩
  rintro config rfl
  have hwritten := h.written_call now.caller
    (s.host.machine.loaded.filter fun p => config.runs s.host.machine p)
    ⟨s.host, now.document⟩ hp
  rcases hcall : h.call now.caller (s.host.machine.loaded.filter
    fun p => config.runs s.host.machine p) ⟨s.host, now.document⟩ with ⟨answer, desk⟩
  rw [hcall] at hwritten
  have hdone : ∀ host, host = now.keep desk → ∃ now config desk, s.Fits uri now ∧
      s.host.configAt now.caller.config = some config ∧
      h.call now.caller (s.host.machine.loaded.filter fun p => config.runs s.host.machine p)
        ⟨s.host, now.document⟩ = (answer, desk) ∧
      ({ s with host } : Session) = { s with host := now.keep desk } := by
    rintro _ rfl
    exact ⟨now, config, desk, hfits, hat, hcall, rfl⟩
  dsimp only
  rcases hu : now.openAs with _ | u
  · exact hdone _ (by rw [Setting.keep, hu])
  rcases hd' : desk.document with _ | d'
  · exact hdone _ (by rw [Setting.keep, hu, hd'])
  simp only [ensures_bind, ensures_liftAct, Host.ensures_storeDocument, ensures_pure]
  refine ⟨fun _ => hdone _ (by rw [Setting.keep, hu, hd']), fun hle => ?_⟩
  -- a document that is open has a workspace
  obtain ⟨-, hn, ⟨-, -, hnone⟩ | ⟨-, d, -, ⟨hopen, -⟩ | ⟨hnone, -⟩⟩⟩ := hfits
  · cases hu.symm.trans hnone
  · rw [openDocument?, hn, Option.bind_some] at hopen
    have hlen := (Host.spares_of_work hwritten.host).length_le
    exact absurd (Nat.lt_of_lt_of_le (Host.lt_of_documentAt hopen) hlen) (Nat.not_lt.2 hle)
  · exact hnone

/-- The plugins that complete and are switched on, in the order in which they are called. -/
def completing (s : Session) : List Plugin :=
  ((s.config.bind s.host.configAt).map fun config =>
    completers.filter fun p => config.runs s.host.machine p).getD []

theorem completing_eq {r : Nat} {config : Config} (hr : s.config = some r)
    (hconfig : s.host.configAt r = some config) :
    s.completing = completers.filter fun p => config.runs s.host.machine p := by
  rw [completing, hr, Option.bind_some, hconfig]
  rfl

/-- Items that are offered for a document: the plugins that are switched on make them in turn from
what their engines found, and those of `kept` keep them. -/
structure Offers (s : Session) (uri : String) (offered : List (Item × Made)) (kept : List Plugin) :
    Prop where
  drawn : ∃ parts, List.Forall₂ (Made.Drawn s.host.engines) s.completing parts ∧
    offered.map (·.2) = parts.flatten
  isOffered : ∀ o ∈ offered, o.2.IsOffered s.host.engines uri o.1
  maker : ∀ o ∈ offered, o.2.maker ∈ kept
  kept : ∀ p ∈ kept, p ∈ s.completing

theorem Offers.nil (s : Session) (uri : String) : s.Offers uri [] [] :=
  ⟨⟨_, Made.drawn_nils _ _, by simp⟩, by simp, by simp, by simp⟩

/-- **What a request for completions offers**, and what is found on the document afterwards. -/
theorem ensures_completion (hs : s.Rooted) (hp : s.host.Primed) (hnamed : s.host.Named)
    {ps : Params} (huri : documentUri? ps = some uri) :
    Ensures (completion ps) s
      (fun answer t => ∃ offered kept,
        answer = .object [("isIncomplete", .bool false), ("items", itemList offered)] ∧
        s.Offers uri offered kept ∧ (offered = [] ∨ uri.isEmpty = false ∧
          (s.openDocument? uri = none → t.openDocument? uri = none) ∧
          ∀ d, s.openDocument? uri = some d → ∃ d', t.openDocument? uri = some d' ∧
            ∀ label p, finds d' label p =
              if p ∈ kept then some (recalled offered label p) else finds d label p))
      fun _ _ => True := by
  rw [completion, uriArg, ensures_bind, ensures_liftExcept]
  refine ⟨fun v hv => ?_, fun _ _ => trivial⟩
  obtain rfl := Except.ok.inj (hv.symm.trans (documentUri?_eq_some_iff.1 huri))
  rw [ensures_bind, flatHook]
  refine (ensures_hook_fits hs hp _ uri).bind ?_ fun _ _ _ => trivial
  rintro v _ ⟨now, config, desk, hfits, hconfig, hcall, rfl⟩
  rw [ensures_liftExcept]
  refine ⟨fun items hitems => ?_, fun _ _ => trivial⟩
  rcases hfits.2.2 with ⟨-, hnone, -⟩ | ⟨hempty, d, hd, hdoc⟩
  · have hflat := Hook.flatten_call_of_none now.caller (arg ps "position") s.host.machine config
      ⟨s.host, now.document⟩ hnone
    rw [hcall] at hflat
    refine ⟨[], [], ?_, .nil s uri, .inl rfl⟩
    rw [Except.ok.inj (hitems.symm.trans hflat)]
  obtain ⟨offered, kept, parts, hflat, hdrawn, hparts, hkept, hoffered⟩ :=
    Hook.exists_offering_call now.caller (arg ps "position") s.host.machine config hd hp hcall
  rw [Except.ok.inj (hitems.symm.trans hflat)]
  rcases hoffered with rfl | ⟨d', hd', hoffering⟩
  · exact ⟨[], [], rfl, .nil s uri, .inl rfl⟩
  have hduri : d.uri = uri := by
    rcases hdoc with ⟨hopen, -⟩ | ⟨-, -, huri, -⟩
    · rw [openDocument?, hfits.2.1] at hopen
      exact hnamed _ _ _ hopen
    · exact huri
  have hoffers : s.Offers uri offered kept := by
    have hcompleting := completing_eq hfits.1 hconfig
    exact ⟨⟨parts, hcompleting ▸ hdrawn, hparts⟩, hduri ▸ hoffering.isOffered, hoffering.maker,
      hcompleting ▸ hkept⟩
  have hwritten := (Hook.completions (arg ps "position")).written_call now.caller
    (s.host.machine.loaded.filter fun p => config.runs s.host.machine p)
    ⟨s.host, now.document⟩ hp
  rw [hcall] at hwritten
  have hafter := openDocument?_keep hfits hempty (Host.spares_of_work hwritten.host) hd'
  refine ⟨offered, kept, rfl, hoffers, .inr ⟨hempty, fun hnone => ?_, fun d₀ hd₀ => ⟨d', ?_, ?_⟩⟩⟩
  · rw [hafter, hnone, Option.map_none]
  · rw [hafter, hd₀, Option.map_some]
  · rcases hdoc with ⟨hopen, -⟩ | ⟨hclosed, -⟩
    · obtain rfl := Option.some_inj.1 (hopen.symm.trans hd₀)
      exact hoffering.finds
    · exact absurd (hd₀.symm.trans hclosed) (Option.some_ne_none d₀)

/-- How an item is resolved, by what the plugins find under its label: the first plugin that is
switched on answers. -/
def resolution (s : Session) (item : Item)
    (found : Plugin → Option (Option (Except Fault Item))) : Value :=
  match s.completing.head? with
  | none => .null
  | some p => answered item (found p)

theorem resolution_eq_object_iff {item own : Item}
    {found : Plugin → Option (Option (Except Fault Item))} :
    s.resolution item found = .object own ↔ ∃ p, s.completing.head? = some p ∧
      (found p = some (some (.ok own)) ∨ found p = some none ∧ item = own) := by
  rw [resolution]
  rcases s.completing.head? with _ | p
  · simp
  · rcases h : found p with _ | _ | f | own' <;> simp [h, answered]

/-- What a plugin finds under a label after a request for completions, if the document is open. -/
def findsAfter (s : Session) (uri : String) (offered : List (Item × Made)) (kept : List Plugin)
    (label : String) (p : Plugin) : Option (Option (Except Fault Item)) :=
  (s.openDocument? uri).bind fun d =>
    if p ∈ kept then some (recalled offered label p) else finds d label p

/-- **How an item is resolved.** For a document that is not open nothing is found. -/
theorem ensures_resolveCompletion (hs : s.Rooted) (hp : s.host.Primed)
    (hempty : uri.isEmpty = false) {item : Item} {label : String}
    (hlabel : labelOf? item = some label)
    (hdata : Value.lookup "data" item = some (.object [("doc_uri", .str uri)])) :
    Ensures (resolveCompletion item) s
      (fun v _ => v = s.resolution item fun p =>
        (s.openDocument? uri).bind fun d => finds d label p)
      fun _ _ => s.openDocument? uri = none := by
  have huri : ((Value.lookup "data" item).getD (.object [])).get "doc_uri" = .ok (.str uri) := by
    rw [hdata]
    rfl
  rw [resolveCompletion, huri, ensures_bind, ensures_liftExcept_ok]
  refine (ensures_hook_fits hs hp _ uri).imp ?_
  rintro v _ ⟨now, config, desk, ⟨hr, -, hfits⟩, hconfig, hcall, rfl⟩
  have hanswer := Hook.call_resolveCompletion now.caller s.host.machine config hlabel
    ⟨s.host, now.document⟩
  rw [hcall] at hanswer
  refine hanswer.trans ?_
  rw [resolution, completing_eq hr hconfig, List.head?_filter]
  rcases completers.find? fun p => config.runs s.host.machine p with _ | p
  · rfl
  dsimp only
  rcases hfits with ⟨hnot, -⟩ | ⟨-, d, hd, ⟨hopen, -⟩ | ⟨hclosed, -, -, hoffers, hproposals⟩⟩
  · rw [hempty] at hnot
    cases hnot
  · rw [hd, hopen]
  · have hblank : finds d label p = none := by
      rcases p
      case jediCompletion => rw [finds, hoffers]; rfl
      case ropeCompletion => rw [finds, hproposals]; rfl
      all_goals rfl
    rw [hd, hclosed, Option.bind_some, hblank]
    rfl

/-! ## Runs -/

/-- The session has come about by a start and by whatever happened after it but another start. -/
def Reached (s : Session) : Prop :=
  ∃ machine engines checksParent ps answer s₀, ∃ es : List Happening,
    handle ps .start (fresh machine engines checksParent) = .ok answer s₀ ∧
      (∀ e ∈ es, ∀ ps, e ≠ .message .start ps) ∧ s = es.foldl Happening.after s₀

/-- Nothing opens or closes the document or asks for its completions, and a change of folders leaves
it where it is found. -/
def Leaves (uri : String) (s : Session) (e : Happening) : Prop :=
  (∀ ps, e ≠ .message .start ps) ∧ ¬ e.Disturbs uri ∧
    (e.regroups = true → (Happening.after s e).openDocument? uri = s.openDocument? uri)

theorem named_after_change (hs : s.Rooted) (hnamed : s.host.Named) (ps : Params) :
    (Happening.after s (.message .didChangeWorkspaceFolders ps)).host.Named := by
  refine Happening.after_of_ensures (P := fun t => t.host.Named) (Happening.ensures_message.2 ?_)
  rcases hevent : (arg ps "event").isNull with _ | _
  · refine (ensures_didChangeWorkspaceFolders_reorganised hs hevent).mono ?_ ?_
    · rintro _ t ⟨s₁, s₂, r, host, hjoins, hgone, hstays, -, hmigrated, -, -, rfl⟩
      have hhost : s₂.host = s₁.host := by
        by_cases hloses : ∃ uri ∈ departing ps, s.rootUri = .str uri
        · rcases hgone hloses with ⟨-, rfl⟩ | ⟨name, n, -, -, rfl⟩ <;> rfl
        · rw [hstays hloses]
      intro m v d hd
      rw [hmigrated.documentAt] at hd
      have hfrom : ∃ k, s₂.host.documentAt k v = some d := by
        rcases of_handOn hd with hd | ⟨-, -, hd⟩
        · exact ⟨_, hd⟩
        · exact ⟨_, hd⟩
      obtain ⟨k, hk⟩ := hfrom
      rw [hhost, hjoins.gains.documentAt] at hk
      exact hnamed k v d hk
    · rintro _ t ⟨taken, names, u, host, hjoins, hgains, rfl⟩ m v d hd
      rw [hgains.documentAt, hjoins.gains.documentAt] at hd
      exact hnamed m v d hd
  · rw [Ensures, handle_of_isNull hevent]
    exact hnamed

theorem named_after (hs : s.Rooted) (hp : s.host.Primed) (hnamed : s.host.Named) {e : Happening}
    (he : ∀ ps, e ≠ .message .start ps) : (Happening.after s e).host.Named := by
  rcases h : e.regroups with _ | _
  · exact named_of_deeds (Happening.deeds_after hp h) hnamed
  · rcases e with ⟨method, ps⟩ | _ | _
    case message =>
      rcases method
      case start => exact absurd rfl (he ps)
      case didChangeWorkspaceFolders => exact named_after_change hs hnamed ps
      all_goals cases h
    all_goals cases h

theorem Reached.invariants (hs : s.Reached) : s.Rooted ∧ s.host.Primed ∧ s.host.Named := by
  obtain ⟨machine, engines, checksParent, ps, answer, s₀, es, hstart, hes, rfl⟩ := hs
  have hprimed : s₀.host.Primed :=
    Happening.after_of_ok hstart ▸ Happening.primed_after (primed_fresh _ _ _) _
  have hnamed : s₀.host.Named := fun m v d hd =>
    absurd (hd.symm.trans (documentAt_of_start hstart m v)) (Option.some_ne_none d)
  refine Always.inv (I := fun s : Session => s.Rooted ∧ s.host.Primed ∧ s.host.Named)
    (A := fun _ e => ∀ ps, e ≠ .message .start ps) (fun s e hs he => ?_)
    ⟨rooted_of_start hstart, hprimed, hnamed⟩ (Always.of_mem fun e he _ => hes e he)
  exact ⟨hs.1.after hs.2.1 he, Happening.primed_after hs.2.1 e, named_after hs.1 hs.2.1 hs.2.2 he⟩

/-- **What is found on a document is kept**, whatever happens that leaves it. -/
theorem rel_openDocument?_after (hp : s.host.Primed) {e : Happening} (he : Leaves uri s e) :
    Option.Rel Document.Keeps (s.openDocument? uri) ((Happening.after s e).openDocument? uri) := by
  obtain ⟨-, hdisturbs, hregroups⟩ := he
  rcases h : e.regroups with _ | _
  · have hdeeds := Happening.deeds_after hp h
    have hstays := stays_of_deeds hdeeds
    have hspace : (Happening.after s e).spaceOf? uri = s.spaceOf? uri := by
      rw [spaceOf?, spaceOf?, hstays.folders, hstays.root]
    rw [openDocument?, openDocument?, hspace]
    rcases s.spaceOf? uri with _ | n
    · exact .none
    · exact rel_documentAt_of_deeds hdeeds hdisturbs n
  · rw [hregroups h]
    exact Document.Keeps.rel_refl _

/-- **An item is resolved by its label.** An answer to a request for completions consists of items
that are made from what the engines found. When one of them is resolved, after anything that leaves
its document, the first plugin that is switched on answers: by the last item with the same label
that it has kept of the answer, if it has kept any of it, and else by what it had before. For a
document that is not open nothing is found. So the item gets its own detail and documentation if
and only if the first plugin finds these, and it does if the document is open, the plugin has made
the item, keeps it, and has made no later one with the same label. -/
theorem item_resolved_by_its_label {s t : Session} (hs : s.Reached) {ps : Params} {uri : String}
    {answer : Value} (huri : documentUri? ps = some uri)
    (hrun : handle ps .completion s = .ok answer t) :
    ∃ (offered : List (Item × Made)) (kept : List Plugin),
      answer = .object [("isIncomplete", .bool false), ("items", itemList offered)] ∧
      s.Offers uri offered kept ∧
      ∀ es, Always Happening.after (Leaves uri) t es → ∀ o ∈ offered, ∃ label,
        labelOf? o.1 = some label ∧
        Ensures (handle o.1 .resolveCompletion) (es.foldl Happening.after t)
          (fun v _ =>
            v = (es.foldl Happening.after t).resolution o.1 (s.findsAfter uri offered kept label) ∧
            ∀ own, o.2.complete o.1 = .ok own →
              (v = .object own ↔ ∃ p, (es.foldl Happening.after t).completing.head? = some p ∧
                (s.findsAfter uri offered kept label p = some (some (.ok own)) ∨
                  s.findsAfter uri offered kept label p = some none ∧ o.1 = own)) ∧
              (s.openDocument? uri ≠ none →
                (es.foldl Happening.after t).completing.head? = some o.2.maker →
                last? label (offered.filter fun o' => o'.2.isKeptBy o.2.maker) = some o →
                v = .object own))
          fun _ _ => s.openDocument? uri = none := by
  obtain ⟨hrooted, hprimed, hnamed⟩ := hs.invariants
  obtain ⟨offered, kept, rfl, hoffers, hafter⟩ :=
    (ensures_completion hrooted hprimed hnamed huri).ok hrun
  rcases hafter with rfl | ⟨hempty, hclosed, hopen⟩
  · exact ⟨[], kept, rfl, hoffers, fun _ _ _ ho => absurd ho List.not_mem_nil⟩
  refine ⟨offered, kept, rfl, hoffers, fun es hes o ho => ?_⟩
  have hmade := hoffers.isOffered o ho
  obtain ⟨label, hlabel⟩ := hmade.exists_label
  refine ⟨label, hlabel, ?_⟩
  -- what is found under a label stays the same until the item comes back
  have hstart : t.Rooted ∧ t.host.Primed := by
    rw [← Happening.after_of_ok hrun]
    exact ⟨hrooted.after hprimed (fun _ h => by cases h), Happening.primed_after hprimed _⟩
  obtain ⟨⟨hrooted', hprimed'⟩, hrel⟩ := Always.inv (I := fun u : Session =>
      (u.Rooted ∧ u.host.Primed) ∧
        Option.Rel Document.Keeps (t.openDocument? uri) (u.openDocument? uri))
    (fun u e hu he => ⟨⟨hu.1.1.after hu.1.2 he.1, Happening.primed_after hu.1.2 e⟩,
      Document.Keeps.rel_trans hu.2 (rel_openDocument?_after hu.1.2 he)⟩)
    ⟨hstart, Document.Keeps.rel_refl _⟩ hes
  have hfound : (fun p => ((es.foldl Happening.after t).openDocument? uri).bind
      fun d => finds d label p) = s.findsAfter uri offered kept label := by
    funext p
    rw [bind_finds_of_rel hrel, findsAfter]
    rcases hd : s.openDocument? uri with _ | d
    · rw [hclosed hd]
      rfl
    · obtain ⟨d', hd', hfinds⟩ := hopen d hd
      rw [hd']
      exact hfinds label p
  refine (ensures_resolveCompletion hrooted' hprimed' hempty hlabel hmade.lookup_data).mono ?_ ?_
  · rintro v _ rfl
    rw [hfound]
    refine ⟨rfl, fun own hown => ⟨resolution_eq_object_iff, fun hd hfirst hlast => ?_⟩⟩
    obtain ⟨d, hd⟩ := Option.ne_none_iff_exists'.1 hd
    refine resolution_eq_object_iff.2 ⟨_, hfirst, Or.inl ?_⟩
    rw [findsAfter, hd, Option.bind_some, if_pos (hoffers.maker o ho), recalled, hlast,
      Option.map_some, hown]
  · intro _ _ hnone
    rcases hd : s.openDocument? uri with _ | d
    · rfl
    · obtain ⟨d', hd', -⟩ := hopen d hd
      rw [hnone, hd'] at hrel
      cases hrel

/-- A class that an engine finds, and what the engines answer then. -/
def foundClass : Name := { name := "A", kind := "class", doc := .ok "d" }

def classEngines : Engines := { completions := .ok [foundClass] }

/-- The start of an editor that supports snippets. -/
def snippetStart : Params :=
  starting "file:///w" [] ++ [("capabilities", .object [("textDocument", .object [("completion",
    .object [("completionItem", .object [("snippetSupport", .bool true)])])])])]

/-- A request for completions after the first character of a document. -/
def requesting (uri : String) : Params :=
  [("textDocument", .object [("uri", .str uri)]),
    ("position", .object [("line", .int 0), ("character", .int 1)])]

/-- The items for the class and for its objects. -/
def classItem : Item :=
  [("label", .str "A"), ("kind", .int 7), ("sortText", .str "aA"), ("insertText", .str "A"),
    ("data", .object [("doc_uri", .str "file:///w/a.py")])]

def classObject : Item :=
  [("label", .str "A object"), ("kind", .int 25), ("sortText", .str "aA"), ("insertText", .str "A"),
    ("data", .object [("doc_uri", .str "file:///w/a.py")])]

theorem ensures_classObject :
    Ensures (handle snippetStart .start) (fresh {} classEngines false)
      (fun _ s => Ensures (handle (requesting "file:///w/a.py") .completion)
        (Happening.after s (.message .didOpen (opening "file:///w/a.py" "A\n")))
        (fun answer t =>
          answer = .object [("isIncomplete", .bool false),
            ("items", .list [.object classItem, .object classObject])] ∧
          Ensures (handle classObject .resolveCompletion) (Happening.after t (.fire 0))
            (fun v _ => v = .object classObject) fun _ _ => False)
        fun _ _ => False)
      fun _ _ => False := by
  decide +kernel

/-- The item for the objects of a class is not kept: it comes back as it was, without the
documentation of its class. -/
theorem class_object_not_resolved : ∃ s answer t,
    s.Reached ∧ documentUri? (requesting "file:///w/a.py") = some "file:///w/a.py" ∧
    handle (requesting "file:///w/a.py") .completion s = .ok answer t ∧
    Always Happening.after (Leaves "file:///w/a.py") t [.fire 0] ∧
    (∃ offered kept,
      answer = .object [("isIncomplete", .bool false), ("items", itemList offered)] ∧
      s.Offers "file:///w/a.py" offered kept ∧ ∀ o ∈ offered, ∃ label, labelOf? o.1 = some label ∧
        Ensures (handle o.1 .resolveCompletion) (Happening.after t (.fire 0))
          (fun v _ => v = (Happening.after t (.fire 0)).resolution o.1
            (s.findsAfter "file:///w/a.py" offered kept label))
          fun _ _ => s.openDocument? "file:///w/a.py" = none) ∧
    answer = .object [("isIncomplete", .bool false),
      ("items", .list [.object classItem, .object classObject])] ∧
    Ensures (handle classObject .resolveCompletion) (Happening.after t (.fire 0))
      (fun v _ => v = .object classObject) (fun _ _ => False) ∧
    (Made.object foundClass).complete classObject ≠ .ok classObject := by
  obtain ⟨started, s₀, hstart, hasked⟩ := ensures_classObject.exists_ok
  obtain ⟨answer, t, hrun, hanswer, hresolved⟩ := hasked.exists_ok
  have hreached : (Happening.after s₀
      (.message .didOpen (opening "file:///w/a.py" "A\n"))).Reached :=
    ⟨{}, classEngines, false, snippetStart, started, s₀, [_], hstart, by simp, rfl⟩
  have hleaves : Always Happening.after (Leaves "file:///w/a.py") t [.fire 0] :=
    ⟨⟨by simp, id, fun h => by cases h⟩, trivial⟩
  have huri : documentUri? (requesting "file:///w/a.py") = some "file:///w/a.py" := by
    decide +kernel
  obtain ⟨offered, kept, hoffered, hoffers, hall⟩ := item_resolved_by_its_label hreached huri hrun
  refine ⟨_, answer, t, hreached, huri, hrun, hleaves, ⟨offered, kept, hoffered, hoffers, ?_⟩,
    hanswer, hresolved, by decide +kernel⟩
  intro o ho
  obtain ⟨label, hlabel, hens⟩ := hall [.fire 0] hleaves o ho
  exact ⟨label, hlabel, hens.mono (fun _ _ h => h.1) fun _ _ h => h⟩

end Session
end LangServer
