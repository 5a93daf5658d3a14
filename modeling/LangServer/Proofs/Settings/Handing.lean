import LangServer.Proofs.Session.Arrivals

/-!
# Settings that are handed from one configuration to the next

New settings go to the configuration in force, then to the workspace of each folder and to the
configurations that its documents have (`Session.audience`). A configuration keeps the settings
that it is handed even if it cannot be found out what they switch off, and nobody takes them back
from those that had them before it.

* `Config.update_eq` says what becomes of one configuration, and
  `Host.ensures_updateFrom_handed` what one step does: it hands the settings to one workspace,
  whether it fails or not.
* Steps add up (`Host.Passed`, `Host.Stopped`), so that the settings have gone as far as the first
  configuration that cannot have them (`Session.ensures_didChangeConfiguration_handed`).
-/

namespace LangServer

/-! ## One configuration -/

namespace Config

/-- The plugins that the configuration would switch off if the client had these settings. -/
def offUnder (m : Machine) (c : Config) (client : Value) : Except Fault (List (Option Plugin)) := do
  disabledIn m (← compute m { c with client } .null).value

/-- The configuration with settings of the client. Where it cannot be found out what they switch
off, what was switched off stays so. -/
def taking (m : Machine) (client : Value) (revision : Nat) (c : Config) : Config :=
  { c with client, revision, disabled := (c.offUnder m client).toOption.getD c.disabled }

section

variable {m : Machine} {c : Config} {client : Value} {revision : Nat}

theorem taking_of_ok {off : List (Option Plugin)} (h : c.offUnder m client = .ok off) :
    c.taking m client revision = { c with client, revision, disabled := off } := by
  rw [taking, h]
  rfl

theorem taking_of_error {f : Fault} (h : c.offUnder m client = .error f) :
    c.taking m client revision = { c with client, revision } := by
  rw [taking, h]
  rfl

theorem offUnder_taking : (c.taking m client revision).offUnder m client = c.offUnder m client :=
  rfl

theorem taking_taking :
    (c.taking m client revision).taking m client revision = c.taking m client revision := by
  cases hoff : c.offUnder m client with
  | ok off => rw [taking_of_ok (c := c.taking m client revision) hoff, taking_of_ok hoff]
  | error f => rw [taking_of_error (c := c.taking m client revision) hoff]; rfl

/-- **A configuration takes over settings** in any case, and it fails just if it cannot be found out
what they switch off. -/
theorem update_eq (m : Machine) (c : Config) (client : Value) (revision : Nat) :
    ∃ cache, c.update m client revision = (c.taking m client revision, cache,
      match c.offUnder m client with
      | .ok _ => none
      | .error f => some f) := by
  have hrun := ensures_refresh m { c with client, revision }
  rw [update]
  cases hx : refresh m { c with client, revision } {} with
  | ok c' cache =>
    obtain ⟨settled, off, hsettled, hoff, rfl, -⟩ := hrun.ok hx
    have hunder : c.offUnder m client = .ok off := by
      show (do disabledIn m (← compute m { c with client, revision } .null).value) = _
      rw [hsettled]
      exact hoff
    exact ⟨cache, by rw [hunder, taking_of_ok hunder]⟩
  | error f cache =>
    have hunder : c.offUnder m client = .error f := hrun.error hx
    exact ⟨cache, by rw [hunder, taking_of_error hunder]⟩

end
end Config

/-! ## Several configurations -/

namespace Host

/-- What the configuration of a workspace switches off under settings, or why it cannot have
them. -/
def verdict (h : Host) (settings : Value) (n : Nat) : Except Fault (List (Option Plugin)) :=
  match h.configAt n with
  | none => .error .noMember
  | some c => do c.offUnder h.machine (← serverPart settings)

/-- The configuration after it was handed settings. -/
def taken (m : Machine) (settings : Value) (revision : Nat) (c : Config) : Config :=
  match serverPart settings with
  | .ok client => c.taking m client revision
  | .error _ => c

/-- Some workspaces were handed settings. But for the cache, nothing else has changed. -/
structure Handed (settings : Value) (revision : Nat) (ns : List Nat) (h h' : Host) : Prop where
  machine : h'.machine = h.machine
  space : ∀ n, h'.spaces[n]? = h.spaces[n]?.map fun (w : Workspace) => { w with
    config := if n ∈ ns then w.config.map (taken h.machine settings revision) else w.config }

/-- All of these workspaces can have the settings, and were handed them. -/
def Passed (settings : Value) (revision : Nat) (ns : List Nat) (h h' : Host) : Prop :=
  (∀ n ∈ ns, ∃ off, h.verdict settings n = .ok off) ∧ Handed settings revision ns h h'

/-- The settings have gone as far as the first workspace that cannot have them. -/
def Stopped (settings : Value) (revision : Nat) (ns : List Nat) (h : Host) (f : Fault)
    (h' : Host) : Prop :=
  ∃ before n after, ns = before ++ n :: after ∧
    (∀ m ∈ before, ∃ off, h.verdict settings m = .ok off) ∧ h.verdict settings n = .error f ∧
    Handed settings revision (before ++ [n]) h h'

/-- Who is handed settings with a workspace: itself, and the workspaces that its documents were
opened in. -/
def audience (h : Host) (n : Nat) : List Nat :=
  n :: ((h.spaces[n]?.map (·.documents)).getD []).map (·.2.home)

section

variable {settings : Value} {revision : Nat} {ns ns' : List Nat} {h h' h'' : Host} {f : Fault}

theorem taken_taken (m : Machine) (c : Config) :
    taken m settings revision (taken m settings revision c) = taken m settings revision c := by
  unfold taken
  split
  · exact Config.taking_taking
  · rfl

theorem Handed.nil (hmachine : h'.machine = h.machine) (hspaces : h'.spaces = h.spaces) :
    Handed settings revision [] h h' := by
  refine ⟨hmachine, fun n => ?_⟩
  rw [hspaces]
  cases h.spaces[n]? <;> rfl

theorem Handed.configAt (hh : Handed settings revision ns h h') (n : Nat) :
    h'.configAt n = if n ∈ ns then (h.configAt n).map (taken h.machine settings revision)
      else h.configAt n := by
  rw [Host.configAt, hh.space, Host.configAt]
  cases h.spaces[n]? with
  | none => split <;> rfl
  | some w => rfl

theorem Handed.documents (hh : Handed settings revision ns h h') (n : Nat) :
    h'.spaces[n]?.map (·.documents) = h.spaces[n]?.map (·.documents) := by
  rw [hh.space, Option.map_map]
  rfl

theorem Handed.documentAt (hh : Handed settings revision ns h h') (n : Nat) (uri : String) :
    h'.documentAt n uri = h.documentAt n uri := by
  rw [Host.documentAt, hh.space, Host.documentAt]
  cases h.spaces[n]? <;> rfl

theorem Handed.siteAt (hh : Handed settings revision ns h h') (n : Nat) :
    h'.siteAt n = h.siteAt n := by
  rw [Host.siteAt, hh.space, Host.siteAt]
  cases h.spaces[n]? with
  | none => rfl
  | some w =>
    simp only [Option.map_some, Option.bind_some]
    split
    · rw [Option.map_map]
      rfl
    · rfl

theorem Handed.audience (hh : Handed settings revision ns h h') (n : Nat) :
    h'.audience n = h.audience n := by
  rw [Host.audience, hh.documents, Host.audience]

theorem Handed.trans (h1 : Handed settings revision ns h h')
    (h2 : Handed settings revision ns' h' h'') : Handed settings revision (ns ++ ns') h h'' := by
  refine ⟨h2.machine.trans h1.machine, fun n => ?_⟩
  rw [h2.space, h1.space, h1.machine]
  cases h.spaces[n]? with
  | none => rfl
  | some w =>
    simp only [Option.map_some, List.mem_append]
    by_cases hn : n ∈ ns
    · by_cases hn' : n ∈ ns'
      · simp only [hn, hn', if_true, or_true, Option.map_map]
        congr 3
        funext c
        exact taken_taken _ c
      · simp only [hn, hn', if_true, if_false, or_false]
    · by_cases hn' : n ∈ ns' <;> simp only [hn, hn', if_true, if_false, or_true, or_false]

theorem Handed.verdict (hh : Handed settings revision ns h h') (n : Nat) :
    h'.verdict settings n = h.verdict settings n := by
  rw [Host.verdict, hh.configAt, hh.machine, Host.verdict]
  by_cases hn : n ∈ ns
  · rw [if_pos hn]
    cases h.configAt n with
    | none => rfl
    | some c =>
      rw [Option.map_some, taken]
      cases serverPart settings with
      | ok client => exact Config.offUnder_taking
      | error f => rfl
  · rw [if_neg hn]

theorem exists_of_verdict {n : Nat} {off : List (Option Plugin)}
    (hoff : h.verdict settings n = .ok off) :
    ∃ client c, serverPart settings = .ok client ∧ h.configAt n = some c ∧
      c.offUnder h.machine client = .ok off := by
  rw [Host.verdict] at hoff
  split at hoff
  · cases hoff
  · next c hc =>
    obtain ⟨client, hclient, hoff⟩ := exists_of_bind_eq_ok hoff
    exact ⟨client, c, hclient, hc, hoff⟩

theorem exists_space_of_verdict {n : Nat} {off : List (Option Plugin)}
    (hoff : h.verdict settings n = .ok off) : ∃ w, h.spaces[n]? = some w := by
  obtain ⟨_, c, -, hc, -⟩ := exists_of_verdict hoff
  obtain ⟨w, hw, -⟩ := Option.bind_eq_some_iff.1 hc
  exact ⟨w, hw⟩

theorem Passed.nil (hmachine : h'.machine = h.machine) (hspaces : h'.spaces = h.spaces) :
    Passed settings revision [] h h' :=
  ⟨fun _ hn => absurd hn List.not_mem_nil, .nil hmachine hspaces⟩

theorem Passed.trans (h1 : Passed settings revision ns h h')
    (h2 : Passed settings revision ns' h' h'') : Passed settings revision (ns ++ ns') h h'' := by
  refine ⟨fun n hn => ?_, h1.2.trans h2.2⟩
  rcases List.mem_append.1 hn with hn | hn
  · exact h1.1 n hn
  · rw [← h1.2.verdict]
    exact h2.1 n hn

theorem Passed.stopped (h1 : Passed settings revision ns h h')
    (h2 : Stopped settings revision ns' h' f h'') :
    Stopped settings revision (ns ++ ns') h f h'' := by
  obtain ⟨before, n, after, rfl, hbefore, hn, hhanded⟩ := h2
  refine ⟨ns ++ before, n, after, by simp, fun m hm => ?_, by rw [← h1.2.verdict, hn], ?_⟩
  · rcases List.mem_append.1 hm with hm | hm
    · exact h1.1 m hm
    · rw [← h1.2.verdict]
      exact hbefore m hm
  · rw [List.append_assoc]
    exact h1.2.trans hhanded

theorem Stopped.append (hs : Stopped settings revision ns h f h') (ns' : List Nat) :
    Stopped settings revision (ns ++ ns') h f h' := by
  obtain ⟨before, n, after, rfl, hrest⟩ := hs
  exact ⟨before, n, after ++ ns', by simp, hrest⟩

theorem handed_set {n : Nat} {w : Workspace} {c : Config} (hw : h.spaces[n]? = some w)
    (hc : w.config = some c) (settings : Value) (revision : Nat) (cache : Settings.Cache) :
    Handed settings revision [n] h { h with
      cache, spaces := h.spaces.set n { w with
        config := some (taken h.machine settings revision c) } } := by
  refine ⟨rfl, fun m => ?_⟩
  rw [List.getElem?_set]
  by_cases hm : n = m
  · subst hm
    obtain ⟨hlt, -⟩ := List.getElem?_eq_some_iff.1 hw
    simp only [if_true, hlt, hw, Option.map_some, List.mem_singleton, hc]
  · rw [if_neg hm]
    cases h.spaces[m]? with
    | none => rfl
    | some u => simp [Ne.symm hm]

/-- **One step.** -/
theorem ensures_updateFrom_handed (h : Host) (n : Nat) (settings : Value) (revision : Nat) :
    Ensures (updateFrom n settings revision) h (fun _ h' => Passed settings revision [n] h h')
      fun f h' => Stopped settings revision [n] h f h' := by
  have hstop : ∀ {f h'}, h.verdict settings n = .error f → Handed settings revision [n] h h' →
      Stopped settings revision [n] h f h' :=
    fun hf hh => ⟨[], n, [], rfl, fun _ hm => absurd hm List.not_mem_nil, hf, hh⟩
  -- where nothing is taken over, the host is as it was
  have hsame : (∀ c, h.configAt n = some c → taken h.machine settings revision c = c) →
      Handed settings revision [n] h h := by
    refine fun hsame => ⟨rfl, fun m => ?_⟩
    cases hw : h.spaces[m]? with
    | none => rfl
    | some w =>
      rw [Option.map_some]
      split
      · next hm =>
        obtain rfl := List.mem_singleton.1 hm
        cases hc : w.config with
        | none => rw [Option.map_none, ← hc]
        | some c =>
          rw [Option.map_some, hsame c (by rw [Host.configAt, hw, Option.bind_some, hc]), ← hc]
      · rfl
  rw [updateFrom, ensures_bind, ensures_config_iff]
  refine ⟨fun c hc => ?_, fun hc => ?_⟩
  · rw [ensures_bind, ensures_liftExcept]
    refine ⟨fun client hclient => ?_, fun f hf => hstop ?_ (hsame fun c' _ => ?_)⟩
    · obtain ⟨w, hw, hwc⟩ := Option.bind_eq_some_iff.1 hc
      have hverdict : h.verdict settings n = c.offUnder h.machine client := by
        rw [verdict, hc, hclient]
        rfl
      obtain ⟨cache, hupdate⟩ := Config.update_eq h.machine c client revision
      have hhanded := handed_set hw hwc settings revision cache
      rw [taken, hclient] at hhanded
      simp only [updateConfig, ensures_bind, ensures_space_of_some hw, ensures_config_iff,
        ensures_get, hc, Option.some_inj, forall_eq', hupdate, ensures_set]
      refine ⟨?_, fun h => nomatch h⟩
      cases hoff : c.offUnder h.machine client with
      | ok off =>
        refine ⟨fun m hm => ⟨off, ?_⟩, hhanded⟩
        rw [List.mem_singleton.1 hm, hverdict, hoff]
      | error f => exact hstop (hverdict.trans hoff) hhanded
    · rw [verdict, hc, hf]
      rfl
    · rw [taken, hf]
  · refine hstop (by rw [verdict, hc]) (hsame fun c hc' => ?_)
    cases hc.symm.trans hc'

theorem ensures_updateSpace_handed (h : Host) (n : Nat) (settings : Value) (revision : Nat) :
    Ensures (updateSpace n settings revision) h
      (fun _ h' => Passed settings revision (h.audience n) h h')
      fun f h' => Stopped settings revision (h.audience n) h f h' := by
  rw [updateSpace]
  refine (ensures_updateFrom_handed h n settings revision).bind ?_ fun f h' hs => hs.append _
  intro _ h₁ hfirst
  rw [ensures_bind, ensures_space]
  have hdocuments := hfirst.2.documents n
  obtain ⟨off, hoff⟩ := hfirst.1 n (List.mem_singleton_self n)
  obtain ⟨w₀, hw₀⟩ := exists_space_of_verdict hoff
  refine ⟨fun w hw => ?_, fun hnone => ?_⟩
  · rw [hw, hw₀, Option.map_some, Option.map_some, Option.some_inj] at hdocuments
    have haudience : h.audience n = [n] ++ w.documents.map (·.2.home) := by
      rw [audience, hw₀, Option.map_some, ← hdocuments]
      rfl
    rw [ensures_bind, haudience]
    -- the documents that are left
    refine (ensures_forIn (motive := fun rest t => ∃ done, w.documents = done ++ rest ∧
      Passed settings revision ([n] ++ done.map (·.2.home)) h t) ?_ ⟨[], rfl, hfirst⟩).mono ?_
      fun _ _ hs => hs
    · rintro member rest t ⟨done, hdone, hpassed⟩
      refine (ensures_updateFrom_handed t member.2.home settings revision).bind ?_ ?_
      · intro _ t' hpassed'
        refine ⟨rfl, done ++ [member], by rw [hdone]; simp, ?_⟩
        rw [List.map_append, ← List.append_assoc]
        exact hpassed.trans hpassed'
      · intro f t' hs
        have hstopped := (hpassed.stopped hs).append (rest.map (·.2.home))
        rw [hdone, List.map_append]
        simpa using hstopped
    · rintro _ t ⟨done, hdone, hpassed⟩
      rw [List.append_nil] at hdone
      rw [hdone]
      exact hpassed
  · rw [hnone, hw₀] at hdocuments
    cases hdocuments

end

/-! ## What the configurations have -/

/-- The configuration of a workspace has the settings, and switches off what they say. -/
def Follows (settings : Value) (revision : Nat) (h h' : Host) (n : Nat) : Prop :=
  ∃ client c off, serverPart settings = .ok client ∧ h.configAt n = some c ∧
    c.offUnder h.machine client = .ok off ∧
    h'.configAt n = some { c with client, revision, disabled := off }

/-- The configuration of a workspace has the settings, but switches off what it did before, because
it cannot be found out what they say; or there is no configuration. -/
def HalfFollows (settings : Value) (revision : Nat) (h : Host) (f : Fault) (h' : Host)
    (n : Nat) : Prop :=
  (∃ client c, serverPart settings = .ok client ∧ h.configAt n = some c ∧
    c.offUnder h.machine client = .error f ∧ h'.configAt n = some { c with client, revision }) ∨
  h.configAt n = none ∧ h'.configAt n = none ∧ f = .noMember

section

variable {settings : Value} {revision : Nat} {ns : List Nat} {h h' : Host} {f : Fault} {n : Nat}

theorem Handed.follows (hh : Handed settings revision ns h h') (hn : n ∈ ns)
    {off : List (Option Plugin)} (hoff : h.verdict settings n = .ok off) :
    Follows settings revision h h' n := by
  obtain ⟨client, c, hclient, hc, hoff⟩ := exists_of_verdict hoff
  refine ⟨client, c, off, hclient, hc, hoff, ?_⟩
  rw [hh.configAt, if_pos hn, hc, Option.map_some, taken, hclient]
  exact congrArg some (Config.taking_of_ok hoff)

theorem Handed.halfFollows (hh : Handed settings revision ns h h') (hn : n ∈ ns) {client : Value}
    (hclient : serverPart settings = .ok client) (hf : h.verdict settings n = .error f) :
    HalfFollows settings revision h f h' n := by
  have hconfig := hh.configAt n
  rw [if_pos hn] at hconfig
  cases hc : h.configAt n with
  | none =>
    rw [Host.verdict, hc] at hf
    rw [hc] at hconfig
    exact .inr ⟨hc, hconfig, (Except.error.inj hf).symm⟩
  | some c =>
    have hoff : c.offUnder h.machine client = .error f := by
      rwa [Host.verdict, hc, hclient] at hf
    rw [hc, Option.map_some, taken, hclient] at hconfig
    exact .inl ⟨client, c, hclient, hc, hoff,
      hconfig.trans (congrArg some (Config.taking_of_error hoff))⟩

theorem Handed.configAt_of_error (hh : Handed settings revision ns h h')
    (hf : serverPart settings = .error f) (n : Nat) : h'.configAt n = h.configAt n := by
  rw [hh.configAt]
  split
  · have htaken : taken h.machine settings revision = id := by
      funext c
      rw [taken, hf]
      rfl
    rw [htaken, Option.map_id]
    rfl
  · rfl

end
end Host

namespace Session

/-- Who is handed new settings, in order. -/
def audience (s : Session) : List Nat :=
  s.config.toList ++ s.folders.flatMap fun folder => s.host.audience folder.2

/-- The workspaces of the folders are handed settings after the configuration in force. -/
theorem ensures_folders_handed {s : Session} {h : Host} {settings : Value} {revision : Nat}
    (hfirst : Host.Passed settings revision s.config.toList s.host h) :
    Ensures (do
      for (_, n) in s.folders do
        Host.updateSpace n settings revision
        requestLints n []
      return Value.null : Serve Value) { s with host := h }
      (fun _ t => ∃ host timers, Host.Passed settings revision s.audience s.host host ∧
        t = { s with host, timers })
      fun f t => Host.Stopped settings revision s.audience s.host f t.host := by
  rw [ensures_bind]
  -- the folders that are left
  refine (ensures_forIn (motive := fun rest (t : Session) => ∃ host timers done,
    s.folders = done ++ rest ∧ Host.Passed settings revision
      (s.config.toList ++ done.flatMap fun folder => s.host.audience folder.2) s.host host ∧
    t = { s with host, timers }) ?_ ⟨h, s.timers, [], rfl, by simpa using hfirst, rfl⟩).mono ?_
    fun _ _ hs => hs
  · rintro ⟨name, n⟩ rest _ ⟨host, timers, done, hdone, hpassed, rfl⟩
    have haudience := hpassed.2.audience n
    simp only [ensures_bind, ensures_liftAct]
    refine (Host.ensures_updateSpace_handed host n settings revision).mono ?_ ?_
    · intro _ h' hspace
      refine (ensures_requestLints _ n []).mono ?_ fun _ _ hnone => ?_
      · rintro _ t' ⟨hasks, -⟩
        refine ⟨rfl, h', t'.timers, done ++ [(name, n)], by rw [hdone]; simp, ?_, hasks.eq⟩
        rw [List.flatMap_append, ← List.append_assoc, List.flatMap_singleton, ← haudience]
        exact hpassed.trans hspace
      · obtain ⟨off, hoff⟩ := hspace.1 n List.mem_cons_self
        rw [← hspace.2.verdict] at hoff
        obtain ⟨w, hw⟩ := Host.exists_space_of_verdict hoff
        cases hnone.symm.trans hw
    · intro f h' hs
      rw [haudience] at hs
      rw [audience, hdone, List.flatMap_append, List.flatMap_cons, ← List.append_assoc]
      exact hpassed.stopped (hs.append _)
  · rintro _ _ ⟨host, timers, done, hdone, hpassed, rfl⟩
    rw [List.append_nil] at hdone
    refine ⟨host, timers, ?_, rfl⟩
    rwa [audience, hdone]

/-- **New settings are handed out one by one**, up to the first configuration that cannot have
them. -/
theorem ensures_didChangeConfiguration_handed (s : Session) (ps : Params) :
    Ensures (didChangeConfiguration ps) s
      (fun _ t => ∃ host timers, Host.Passed (arg ps "settings") (s.host.revisions + 1) s.audience
        s.host host ∧ t = { s with host, timers })
      fun f t =>
        Host.Stopped (arg ps "settings") (s.host.revisions + 1) s.audience s.host f t.host := by
  simp only [didChangeConfiguration, Host.newRevision, ensures_bind, ensures_liftAct,
    ensures_modify, ensures_get, ensures_pure]
  generalize arg ps "settings" = settings
  generalize s.host.revisions + 1 = revision
  have hnone : Host.Passed settings revision [] s.host { s.host with revisions := revision } :=
    .nil rfl rfl
  split
  · next n hn =>
    have htoList : s.config.toList = [n] := by rw [show s.config = some n from hn]; rfl
    rw [ensures_bind, ensures_liftAct]
    refine (Host.ensures_updateFrom_handed _ n settings revision).mono ?_ ?_
    · intro _ h' hfirst
      rw [ensures_bind, ensures_get]
      refine ensures_folders_handed (s := s) ?_
      rw [htoList]
      exact hnone.trans hfirst
    · intro f h' hs
      rw [audience, htoList]
      exact (hnone.stopped hs).append _
  · next hn =>
    rw [ensures_bind, ensures_get]
    refine ensures_folders_handed (s := s) ?_
    rw [show s.config = none from hn]
    exact hnone

/-- **New settings reach all configurations, or all up to the first that cannot have them.** If
they are handed out without a fault, the configuration in force, those of the folders and those that
the documents in these have follow them, and no other configuration changes; that is so just if it
can be found out for each of them what the settings switch off. If there is a fault, settings that
are no use have changed nothing. Else those before the first configuration that cannot have the
settings follow them, this one has them and switches off what it did before, and no other changes.
-/
theorem settings_reach_up_to_fault (s : Session) (ps : Params) :
    let settings := arg ps "settings"
    let revision := s.host.revisions + 1
    ((∃ answer t, didChangeConfiguration ps s = .ok answer t) ↔
      ∀ n ∈ s.audience, ∃ off, s.host.verdict settings n = .ok off) ∧
    Ensures (didChangeConfiguration ps) s
      (fun _ t => (∀ n ∈ s.audience, Host.Follows settings revision s.host t.host n) ∧
        ∀ n, n ∉ s.audience → t.host.configAt n = s.host.configAt n)
      fun f t =>
        (∃ g, Host.serverPart settings = .error g) ∧
          (∀ n, t.host.configAt n = s.host.configAt n) ∨
        ∃ before n after, s.audience = before ++ n :: after ∧ n ∉ before ∧
          (∀ m ∈ before, Host.Follows settings revision s.host t.host m) ∧
          Host.HalfFollows settings revision s.host f t.host n ∧
          ∀ m, m ∉ before → m ≠ n → t.host.configAt m = s.host.configAt m := by
  intro settings revision
  have hrun := ensures_didChangeConfiguration_handed s ps
  refine ⟨⟨?_, fun hall => ?_⟩, hrun.mono ?_ ?_⟩
  · rintro ⟨answer, t, ht⟩
    obtain ⟨_, _, hpassed, -⟩ := hrun.ok ht
    exact hpassed.1
  · cases ht : didChangeConfiguration ps s with
    | ok answer t => exact ⟨answer, t, rfl⟩
    | error f t =>
      obtain ⟨before, n, after, haudience, -, hf, -⟩ := hrun.error ht
      obtain ⟨off, hoff⟩ := hall n (haudience ▸ List.mem_append_right _ List.mem_cons_self)
      cases hf.symm.trans hoff
  · rintro _ _ ⟨host, timers, ⟨hall, hhanded⟩, rfl⟩
    refine ⟨fun n hn => ?_, fun n hn => (hhanded.configAt n).trans (if_neg hn)⟩
    obtain ⟨off, hoff⟩ := hall n hn
    exact hhanded.follows hn hoff
  · rintro f t ⟨before, n, after, haudience, hbefore, hf, hhanded⟩
    cases hclient : Host.serverPart settings with
    | error g => exact Or.inl ⟨⟨g, rfl⟩, hhanded.configAt_of_error hclient⟩
    | ok client =>
      refine Or.inr ⟨before, n, after, haudience, fun hn => ?_, fun m hm => ?_,
        hhanded.halfFollows (by simp) hclient hf, fun m hm hmn => ?_⟩
      · obtain ⟨off, hoff⟩ := hbefore n hn
        cases hf.symm.trans hoff
      · obtain ⟨off, hoff⟩ := hbefore m hm
        exact hhanded.follows (List.mem_append_left _ hm) hoff
      · exact (hhanded.configAt m).trans (if_neg (by simp [hm, hmn]))

/-- What the configuration of a workspace holds: the client's settings, and what is switched off. -/
def heldAt (s : Session) (n : Nat) : Option (Value × List (Option Plugin)) :=
  (s.host.configAt n).map fun c => (c.client, c.disabled)

/-- The first configuration holds something else, and the second holds new settings of the client
but switches off what it did before. -/
def HalfChanged (s t : Session) (client : Value) : Prop :=
  t.heldAt 0 ≠ s.heldAt 0 ∧ t.heldAt 1 ≠ s.heldAt 1 ∧
    t.heldAt 1 = (s.heldAt 1).map fun held => (client, held.2)

instance (s t : Session) (client : Value) : Decidable (HalfChanged s t client) :=
  inferInstanceAs (Decidable (_ ≠ _ ∧ _ ≠ _ ∧ _ = _))

/-- The parameters with which a client tells its settings. -/
def telling (settings : Value) : Params :=
  [("settings", .object [("pylsp", settings)])]

/-- Settings that switch off the style checker. -/
def switchingOff : Value := Plugin.inSection "pycodestyle" [("enabled", .bool false)]

/-- The session after a folder has got a file of settings that cannot be read. -/
def spoiled (s : Session) : Session :=
  { s with host.machine.files := ⟨[("/v/setup.cfg", "nonsense\n")]⟩ }

/-- A plugin is switched off when a folder has a file of settings that cannot be read. There is a
fault, but the configuration in force has changed altogether, and that of the folder has the new
settings and switches off what it did before. -/
theorem settings_half_changed_by_fault :
    Ensures (handle (starting "file:///w" ["file:///v"]) .start) (fresh {} {} false)
      (fun _ s => s.config = some 0 ∧ s.folders = [("file:///w", 0), ("file:///v", 1)] ∧
        Ensures (didChangeConfiguration (telling switchingOff)) s.spoiled (fun _ _ => False)
          fun _ t => HalfChanged s t switchingOff)
      fun _ _ => False := by
  decide +kernel

end Session
end LangServer
