import LangServer.Proofs.Linting.Pending

/-!
# What keeps the settings cache right

One cache holds the answers of all configurations, and each answer is right as long as the client's
settings and the files are those that it was computed from. Nothing that the server does by itself
puts a wrong answer there: a question puts there what is computed at the time, new settings of the
client empty the cache first, and a new configuration has a number that no answer has
(`Host.Keeps`). This holds of actions that fail as well, since what they have done so far stays
done.

`Session.Keeps` says it of sessions, together with what makes a message about settings files work:
there is a configuration in force as soon as there is a workspace.
-/

namespace LangServer

open Settings Relation

/-! ## What configurations put in the cache -/

namespace Config

/-- All that has come to the cache is what the configuration computes. -/
def Adds (m : Machine) (c : Config) (cache cache' : Cache) : Prop :=
  ∀ e ∈ cache'.entries, e ∈ cache.entries ∨
    e.owner = c.id ∧ c.compute m e.query.path = .ok e.settled

variable {m : Machine} {c : Config}

theorem adds_fetch (cache : Cache) (query : Query) :
    c.Adds m cache (cache.fetch c.id query (c.compute m query.path)).2 := by
  intro e he
  rcases Cache.mem_of_mem_fetch he with he | ⟨settled, hsettled, rfl⟩
  · exact .inl he
  · exact .inr ⟨rfl, hsettled⟩

/-- Finding out which plugins are switched off adds at most one answer, even if it fails. -/
theorem ensures_refresh_adds (m : Machine) (c : Config) (cache : Cache) :
    Ensures (refresh m c) cache
      (fun c' cache' => (∃ disabled, c' = { c with disabled }) ∧ c.Adds m cache cache')
      fun _ cache' => c.Adds m cache cache' := by
  simp only [refresh, settings, ensures_bind, ensures_settled, ensures_pure]
  refine ⟨fun _ => ?_, fun _ e he => .inl he⟩
  have hadds := adds_fetch (m := m) (c := c) cache .plain
  cases hfetch : cache.fetch c.id .plain (c.compute m Query.plain.path) with
  | mk answer cache' =>
    rw [hfetch] at hadds
    cases answer with
    | error f => exact hadds
    | ok settled =>
      dsimp only
      cases disabledIn m settled.value with
      | error f => exact hadds
      | ok disabled => exact ⟨⟨disabled, rfl⟩, hadds⟩

/-- Whether or not settings can be computed from what the client sent, the cache holds nothing
else. -/
theorem update_current (m : Machine) (c : Config) (client : Value) (revision : Nat) :
    (c.update m client revision).1.id = c.id ∧
      ∀ e ∈ (c.update m client revision).2.1.entries, e.owner = c.id ∧
        (c.update m client revision).1.compute m e.query.path = .ok e.settled := by
  have hrun := ensures_refresh_adds m { c with client, revision } {}
  rw [update]
  cases hx : refresh m { c with client, revision } {} with
  | error f cache =>
    exact ⟨rfl, fun e he => (hrun.error hx e he).resolve_left List.not_mem_nil⟩
  | ok c' cache =>
    obtain ⟨⟨disabled, rfl⟩, hadds⟩ := hrun.ok hx
    exact ⟨rfl, fun e he => (hadds e he).resolve_left List.not_mem_nil⟩

theorem ensures_create_adds (m : Machine) (id : Nat) (rootUri : String)
    (initOptions processId capabilities : Value) (cache : Cache) :
    Ensures (create m id rootUri initOptions processId capabilities) cache
      (fun c cache' => c.id = id ∧ c.Adds m cache cache')
      fun _ cache' => ∀ e ∈ cache'.entries, e ∈ cache.entries ∨ e.owner = id := by
  rw [create]
  split
  · refine (ensures_refresh_adds m _ cache).mono ?_ fun _ cache' hadds e he => ?_
    · rintro c cache' ⟨⟨disabled, rfl⟩, hadds⟩
      exact ⟨rfl, hadds⟩
    · exact (hadds e he).imp_right fun h => h.1
  · exact fun e he => .inl he
  · exact fun e he => .inl he

end Config

/-! ## Hosts whose cache stays right -/

namespace Host

variable {h h' h'' : Host}

/-- Configurations have numbers of their own, and the answers in the cache have such numbers. -/
structure Ordered (h : Host) : Prop extends Numbered h where
  owner_lt : ∀ e ∈ h.cache.entries, e.owner < h.configs

theorem Ordered.coherent (ho : h.Ordered)
    (hsettled : ∀ n c, h.configAt n = some c → ∀ e ∈ h.cache.entries, e.owner = c.id →
      c.compute h.machine e.query.path = .ok e.settled) : h.Coherent := by
  refine ⟨fun m n c c' hc hc' hid => ?_, hsettled⟩
  obtain rfl := ho.distinct m n c c' hc hc' hid
  exact Option.some_inj.1 (hc.symm.trans hc')

/-- The completion resolvers are the same. -/
structure SameResolvers (h h' : Host) : Prop where
  labels : h'.labels = h.labels
  snippets : h'.snippets = h.snippets

/-- Order is kept, and so is coherence: no answer has come that is out of date. What completions
remember is no concern of settings. -/
structure Keeps (h h' : Host) : Prop extends SameResolvers h h' where
  ordered : h.Ordered → h'.Ordered
  coherent : h.Ordered → h.Coherent → h'.Coherent

namespace Keeps

theorem refl (h : Host) : h.Keeps h := ⟨⟨rfl, rfl⟩, id, fun _ hh => hh⟩

theorem trans (h1 : h.Keeps h') (h2 : h'.Keeps h'') : h.Keeps h'' :=
  ⟨⟨h2.labels.trans h1.labels, h2.snippets.trans h1.snippets⟩,
    fun ho => h2.ordered (h1.ordered ho),
    fun ho hh => h2.coherent (h1.ordered ho) (h1.coherent ho hh)⟩

end Keeps

/-- The cache is kept right, and no workspace comes. -/
structure Works (h h' : Host) : Prop extends Keeps h h' where
  length : h'.spaces.length = h.spaces.length

namespace Works

theorem refl (h : Host) : h.Works h := ⟨.refl h, rfl⟩

theorem trans (h1 : h.Works h') (h2 : h'.Works h'') : h.Works h'' :=
  ⟨h1.toKeeps.trans h2.toKeeps, h2.length.trans h1.length⟩

theorem of_configAt (hmachine : h'.machine = h.machine) (hconfigs : h'.configs = h.configs)
    (hlength : h'.spaces.length = h.spaces.length) (hconfig : ∀ n, h'.configAt n = h.configAt n)
    (hcache : ∀ e ∈ h'.cache.entries, e ∈ h.cache.entries) (hsame : h.SameResolvers h') :
    h.Works h' := by
  have hordered : h.Ordered → h'.Ordered := by
    intro ho
    refine ⟨⟨fun m n c c' hc hc' => ?_, fun n c hc => ?_⟩, fun e he => ?_⟩
    · rw [hconfig] at hc hc'
      exact ho.distinct m n c c' hc hc'
    · rw [hconfig] at hc
      exact hconfigs ▸ ho.lt n c hc
    · exact hconfigs ▸ ho.owner_lt e (hcache e he)
  refine ⟨⟨hsame, hordered, fun ho hh => (hordered ho).coherent fun n c hc e he howner => ?_⟩,
    hlength⟩
  rw [hconfig] at hc
  rw [hmachine]
  exact hh.settled n c hc e (hcache e he) howner

theorem of_consult (hstep : h.Consult h') : h.Works h' := by
  cases hstep with
  | asked r => exact of_configAt rfl rfl rfl (fun _ => rfl) (fun _ he => he) ⟨rfl, rfl⟩
  | @settled n c hc query =>
    refine ⟨⟨⟨rfl, rfl⟩, fun ho => ⟨⟨ho.distinct, ho.lt⟩, fun e he => ?_⟩, fun _ hh => ?_⟩, rfl⟩
    · rcases Config.adds_fetch h.cache query e he with he | ⟨howner, -⟩
      · exact ho.owner_lt e he
      · exact howner ▸ ho.lt n c hc
    · exact (hh.recalled_fetch hc query).coherent

theorem withDocuments (h : Host) (n : Nat)
    (f : List (String × Document) → List (String × Document)) : h.Works (h.withDocuments n f) :=
  of_configAt rfl rfl (length_withDocuments f) (configAt_withDocuments h n f) (fun _ he => he)
    ⟨rfl, rfl⟩

end Works

theorem works_of_steps (hsteps : ReflTransGen Works h h') : h.Works h' := by
  induction hsteps with
  | refl => exact .refl h
  | tail _ hstep ih => exact ih.trans hstep

theorem moves_works {α : Type} {x : Act α} (hx : Moves Consult x) : Moves Works x :=
  hx.mono fun _ _ => .of_consult

theorem Works.of_set {n : Nat} {w : Workspace} {c c' : Config} {cache : Cache}
    (hw : h.spaces[n]? = some w) (hc : h.configAt n = some c) (hid : c'.id = c.id)
    (hcache : ∀ e ∈ cache.entries, e.owner = c.id ∧
      c'.compute h.machine e.query.path = .ok e.settled) :
    h.Works { h with cache, spaces := h.spaces.set n { w with config := some c' } } := by
  have hordered : h.Ordered → ({ h with
      cache, spaces := h.spaces.set n { w with config := some c' } } : Host).Ordered := by
    intro ho
    refine ⟨⟨fun m k d e hd he hsame => ?_, fun m d hd => ?_⟩, fun e he => ?_⟩
    · obtain ⟨d', hd', hidd⟩ := exists_of_configAt_set hw hc hid hd
      obtain ⟨e', he', hide⟩ := exists_of_configAt_set hw hc hid he
      exact ho.distinct m k d' e' hd' he' (hidd.symm.trans (hsame.trans hide))
    · obtain ⟨d', hd', hidd⟩ := exists_of_configAt_set hw hc hid hd
      exact hidd ▸ ho.lt m d' hd'
    · exact (hcache e he).1 ▸ ho.lt n c hc
  refine ⟨⟨⟨rfl, rfl⟩, hordered,
    fun ho _ => (hordered ho).coherent fun m d hd e he howner => ?_⟩, List.length_set⟩
  obtain ⟨howner', hcompute⟩ := hcache e he
  -- an answer that belongs to this configuration belongs to the new one, whose number it has
  have hm : m = n := by
    obtain ⟨d', hd', hidd⟩ := exists_of_configAt_set hw hc hid hd
    exact ho.distinct m n d' c hd' hc (hidd.symm.trans (howner.symm.trans howner'))
  rw [configAt_set hw, if_pos hm] at hd
  rw [← Option.some_inj.1 hd]
  exact hcompute

/-- **A configuration that gets settings** forgets all answers, and its own new one is right. -/
theorem Updated.works {n : Nat} {client : Value} {revision : Nat} {fault? : Option Fault}
    (hupdated : h.Updated n client revision fault? h') : h.Works h' := by
  obtain ⟨hw, hc⟩ := hupdated
  obtain ⟨hid, hcurrent⟩ := Config.update_current h.machine _ client revision
  refine .of_set hw ?_ hid hcurrent
  rw [configAt, hw, Option.bind_some, hc]

theorem moves_newRevision : Moves Works newRevision := by
  have hcount : Moves Works (modify fun h => { h with revisions := h.revisions + 1 } : Act Unit) :=
    Moves.modify fun _ => .of_configAt rfl rfl rfl (fun _ => rfl) (fun _ he => he) ⟨rfl, rfl⟩
  exact hcount.bind fun _ => Moves.get.bind fun _ => Moves.pure _

theorem Works.of_configs {cache : Cache}
    (hcache : ∀ e ∈ cache.entries, e ∈ h.cache.entries ∨ e.owner = h.configs) :
    h.Works { h with configs := h.configs + 1, cache } := by
  have hordered : h.Ordered → ({ h with configs := h.configs + 1, cache } : Host).Ordered := by
    intro ho
    refine ⟨⟨ho.distinct, fun n c hc => Nat.lt_succ_of_lt (ho.lt n c hc)⟩, fun e he => ?_⟩
    rcases hcache e he with he | howner
    · exact Nat.lt_succ_of_lt (ho.owner_lt e he)
    · exact howner ▸ Nat.lt_succ_self _
  refine ⟨⟨⟨rfl, rfl⟩, hordered,
    fun ho hh => (hordered ho).coherent fun n c hc e he howner => ?_⟩, rfl⟩
  rcases hcache e he with he | hnew
  · exact hh.settled n c hc e he howner
  · exact absurd (ho.lt n c hc) (by rw [← howner, hnew]; exact Nat.lt_irrefl _)

theorem Founded.keeps {n : Nat} {c : Config} (hf : h.Founded n h')
    (hmachine : h'.machine = h.machine) (hsame : h.SameResolvers h')
    (hc : h'.configAt n = some c) (hadds : c.Adds h.machine h.cache h'.cache) : h.Keeps h' := by
  obtain ⟨c', hc', hid, -⟩ := hf.new
  obtain rfl := Option.some_inj.1 (hc.symm.trans hc')
  have hordered : h.Ordered → h'.Ordered := by
    intro ho
    refine ⟨(hf.obeys (ho.toNumbered.obeys (.object []))).toNumbered, fun e he => ?_⟩
    rw [hf.configs]
    rcases hf.cached e he with he | howner
    · exact Nat.lt_succ_of_lt (ho.owner_lt e he)
    · exact howner ▸ Nat.lt_succ_self _
  refine ⟨hsame, hordered, fun ho hh => (hordered ho).coherent fun m d hd e he howner => ?_⟩
  rw [hmachine]
  by_cases hm : m = n
  · -- the number is new, so that no answer from before has it
    subst hm
    obtain rfl := Option.some_inj.1 (hc.symm.trans hd)
    rcases hadds e he with he | ⟨-, hcompute⟩
    · exact absurd (ho.owner_lt e he) (by rw [howner, hid]; exact Nat.lt_irrefl _)
    · exact hcompute
  · rw [hf.old m hm] at hd
    rcases hf.cached e he with he | hnew
    · exact hh.settled m d hd e he howner
    · exact absurd (ho.lt m d hd) (by rw [← howner, hnew]; exact Nat.lt_irrefl _)

/-- **Making a workspace** keeps the cache right, whether or not it succeeds. -/
theorem ensures_createSpace_keeps (h : Host) (rootUri : String)
    (initOptions processId capabilities : Value) :
    Ensures (createSpace rootUri initOptions processId capabilities) h
      (fun _ h' => h.Keeps h') fun _ h' => h.Works h' := by
  have hadds : Ensures (createSpace rootUri initOptions processId capabilities) h
      (fun n h' => (h'.machine = h.machine ∧ h.SameResolvers h') ∧
        ∃ c, h'.configAt n = some c ∧ c.Adds h.machine h.cache h'.cache)
      fun _ h' => h.Works h' := by
    simp only [createSpace, createConfig, addSpace, ensures_bind, ensures_get, ensures_set,
      ensures_onCache_iff]
    refine (Config.ensures_create_adds h.machine h.configs rootUri initOptions processId
      capabilities h.cache).mono ?_ fun _ cache hcache => .of_configs hcache
    rintro c cache ⟨hid, hadds⟩
    rw [ensures_liftExcept]
    refine ⟨fun w hw => ⟨⟨rfl, rfl, rfl⟩, c, ?_, hadds⟩, fun _ _ => .of_configs fun e he => ?_⟩
    · exact configAt_append_create hw
    · exact (hadds e he).imp_right fun h => h.1.trans hid
  refine ((ensures_createSpace_founded h rootUri initOptions processId capabilities).and
    hadds).mono ?_ fun _ _ hworks => hworks.2
  rintro n h' ⟨⟨-, hfounded⟩, ⟨hmachine, hsame⟩, c, hc, hadds⟩
  exact hfounded.keeps hmachine hsame hc hadds

end Host

/-! ## Sessions whose cache stays right -/

namespace Session

variable {s t u : Session} {α : Type}

/-- There is no workspace unless a configuration is in force. -/
def InForce (s : Session) : Prop := s.config = none → s.host.spaces = []

/-- The cache is kept right, and a configuration is in force as before. -/
structure Keeps (s t : Session) : Prop where
  host : s.host.Keeps t.host
  inForce : s.InForce → t.InForce

namespace Keeps

theorem refl (s : Session) : s.Keeps s := ⟨.refl _, id⟩

theorem trans (h1 : s.Keeps t) (h2 : t.Keeps u) : s.Keeps u :=
  ⟨h1.host.trans h2.host, fun h => h2.inForce (h1.inForce h)⟩

/-- Nothing but the configurations and the cache matters. -/
theorem of_works (hhost : s.host.Works t.host) (hconfig : t.config = s.config) : s.Keeps t := by
  refine ⟨hhost.toKeeps, fun hs hnone => ?_⟩
  have hnil := hs (hconfig ▸ hnone)
  exact List.eq_nil_of_length_eq_zero (by rw [hhost.length, hnil]; rfl)

theorem of_host (hhost : t.host = s.host) (hconfig : t.config = s.config) : s.Keeps t :=
  of_works (hhost ▸ .refl _) hconfig

/-- A configuration that is in force stays so. -/
theorem of_config {n : Nat} (hhost : s.host.Keeps t.host) (hconfig : t.config = some n) :
    s.Keeps t :=
  ⟨hhost, fun _ hnone => absurd (hconfig.symm.trans hnone) (Option.some_ne_none n)⟩

end Keeps

theorem keeps_of_steps (hsteps : ReflTransGen Keeps s t) : s.Keeps t := by
  induction hsteps with
  | refl => exact .refl s
  | tail _ hstep ih => exact ih.trans hstep

theorem moves_liftAct {x : Act α} (hx : Moves Host.Works x) : Moves Keeps (liftM x : Serve α) := by
  intro s
  rw [ensures_liftAct]
  exact (hx s.host).mono (fun _ _ h => .single (.of_works (Host.works_of_steps h) rfl))
    fun _ _ h => .single (.of_works (Host.works_of_steps h) rfl)

/-! ### Starting and folders -/

/-- **What starts and changes of folders do** keeps the cache right. -/
theorem Shift.keeps (hstep : s.Shift t) : s.Keeps t := by
  cases hstep with
  | left hhost _ hconfig _ => exact .of_host hhost hconfig
  | consulted hsteps =>
    have hworks := ReflTransGen.mono (fun _ _ => Host.Works.of_consult) _ _ hsteps
    exact .of_works (Host.works_of_steps hworks) rfl
  | failed hrun => exact .of_works ((Host.ensures_createSpace_keeps _ _ _ _ _).error hrun) rfl
  | founded hrun => exact .of_config ((Host.ensures_createSpace_keeps _ _ _ _ _).ok hrun) rfl
  | joined hconfig hrun hupdate _ =>
    have hkeeps := (Host.ensures_createSpace_keeps _ _ _ _ _).ok hrun
    refine .of_config ?_ hconfig
    rcases hupdate with rfl | ⟨_, hupdated⟩
    · exact hkeeps
    · exact hkeeps.trans hupdated.works.toKeeps
  | adopted => exact .of_config (.refl _) rfl

theorem keeps_of_shifts (hsteps : ReflTransGen Shift s t) : ReflTransGen Keeps s t :=
  ReflTransGen.mono (fun _ _ => Shift.keeps) _ _ hsteps

theorem moves_start (ps : Params) : Moves Keeps (start ps) := by
  intro s
  refine (ensures_start_shift s ps).mono ?_ fun _ _ => keeps_of_shifts
  rintro _ t ⟨u, hu, -, ht⟩
  exact keeps_of_shifts (hu.trans ht)

theorem moves_didChangeWorkspaceFolders (ps : Params) :
    Moves Keeps (didChangeWorkspaceFolders ps) := by
  have hmoves : Moves Keeps migrateAll := by
    refine moves_migrateAll.mono ?_
    rintro s _ ⟨n, f, rfl⟩
    exact .of_works (.withDocuments s.host n f) rfl
  intro s
  refine (ensures_didChangeWorkspaceFolders_shift s ps).mono ?_ ?_
  · rintro _ t (⟨-, rfl⟩ | ⟨-, u, hu, hrun⟩)
    · exact .refl
    · exact (keeps_of_shifts hu).trans ((hmoves u).ok hrun)
  · rintro _ t (ht | ⟨u, hu, hrun⟩)
    · exact keeps_of_shifts ht
    · exact (keeps_of_shifts hu).trans ((hmoves u).error hrun)

/-! ### Settings and files -/

theorem moves_forFolders {r : Session → Session → Prop} {body : Nat → Serve (ForInStep PUnit)}
    (hbody : ∀ n, Moves r (body n)) : Moves r (do
      let s ← get
      forIn s.folders PUnit.unit fun folder _ => body folder.2
      return Value.null : Serve Value) :=
  Moves.get.bind fun s => (Moves.forIn (fun folder => hbody folder.2) s.folders).bind fun _ =>
    Moves.pure _

section

variable {r : Session → Session → Prop} (hlint : ∀ uri, Moves r (requestLint (.str uri) false))

include hlint

theorem moves_requestLints_of (n : Nat) (except : List String) :
    Moves r (requestLints n except) := by
  refine (moves_liftAct_space n).bind fun w => ?_
  refine (Moves.forIn (fun member => ?_) w.documents).bind fun _ => Moves.pure _
  exact Moves.ite ((hlint member.1).bind fun _ => Moves.pure _) (Moves.pure _)

theorem moves_requestLints_all_of (except : List String) : Moves r (do
    for folder in (← get).folders do requestLints folder.2 except
    return Value.null : Serve Value) :=
  moves_forFolders fun n => (moves_requestLints_of hlint n except).bind fun _ => Moves.pure _

/-- New settings are told in the steps `q` of the host. -/
theorem moves_didChangeConfiguration_of {q : Host → Host → Prop}
    (hlift : ∀ {α : Type} {x : Act α}, Moves q x → Moves r (liftM x : Serve α))
    (hcount : Moves q Host.newRevision)
    (hupdated : ∀ {h h' : Host} {n : Nat} {client : Value} {revision : Nat}
      {fault? : Option Fault}, h.Updated n client revision fault? h' → q h h') (ps : Params) :
    Moves r (didChangeConfiguration ps) := by
  refine (hlift hcount).bind fun revision => Moves.get.bind fun s => ?_
  have hupdate : ∀ n, Moves r (do
      Host.updateSpace n (arg ps "settings") revision
      requestLints n []
      return .yield ⟨⟩ : Serve (ForInStep PUnit)) := fun n =>
    (hlift (Host.moves_updateSpace_of hupdated _ _ _)).bind fun _ =>
      (moves_requestLints_of hlint _ _).bind fun _ => Moves.pure _
  split
  · exact (hlift (Host.moves_updateFrom_of hupdated _ _ _)).bind fun _ => moves_forFolders hupdate
  · exact moves_forFolders hupdate

theorem moves_didChangeWatchedFiles_of
    (hforget : ∀ s : Session, r s { s with host := { s.host with cache := {} } }) (ps : Params) :
    Moves r (didChangeWatchedFiles ps) := by
  refine (Moves.ofExcept _).bind fun sorted => ?_
  refine Moves.ite ?_ (Moves.ite (Moves.pure _) (moves_requestLints_all_of hlint _))
  refine Moves.get.bind fun s => (moves_require _).bind fun _ => ?_
  exact (Moves.modify hforget).bind fun _ => moves_requestLints_all_of hlint _

end

theorem moves_requestLint_keeps (uri : String) : Moves Keeps (requestLint (.str uri) false) :=
  fun s => (ensures_requestLint_asking s rfl false).mono
    (fun _ _ h => h ▸ .single (.of_host rfl rfl)) fun _ _ h => h.elim

theorem moves_didChangeConfiguration (ps : Params) : Moves Keeps (didChangeConfiguration ps) :=
  moves_didChangeConfiguration_of moves_requestLint_keeps moves_liftAct Host.moves_newRevision
    Host.Updated.works ps

theorem keeps_forget (s : Session) : s.Keeps { s with host := { s.host with cache := {} } } := by
  refine .of_works (.of_configAt rfl rfl rfl (fun _ => rfl) (fun e he => ?_) ⟨rfl, rfl⟩) rfl
  exact absurd he List.not_mem_nil

theorem moves_didChangeWatchedFiles (ps : Params) : Moves Keeps (didChangeWatchedFiles ps) :=
  moves_didChangeWatchedFiles_of moves_requestLint_keeps keeps_forget ps

end Session
end LangServer
