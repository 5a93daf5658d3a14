import LangServer.Proofs.Linting.Codes
import LangServer.Proofs.Session.Documents

/-!
# Whose settings do linters see?

Every configuration keeps what the client sent last, and the cache keeps answers that were computed
from it. A host *obeys* settings of the client when all of this comes from these settings, and from
no earlier ones (`Host.Obeys`): the configurations hold them, the plugins that are switched off were
found out with them, and every answer in the cache was computed from them. Only the codes that
lints add make a difference.

What linters do leaves a host as obedient as it was (`Host.Obeys.touch`), and handing settings to a
configuration makes it obey them (`Host.ensures_updateConfig_obeys`).
-/

namespace LangServer

open Settings Relation Lint.Flake8

/-! ## What configurations compute -/

namespace Config

variable {client path value : Value} {c : Config}

/-- The value is what the configuration computes for a path from settings of the client, with the
files as they were at some time; codes may have been added to the settings before and to the value
since. -/
def Computes (client : Value) (c : Config) (path value : Value) : Prop :=
  ∃ m codes codes' settled,
    ({ c with client := grown codes client } : Config).compute m path = .ok settled ∧
      value = grown codes' settled.value

/-- The configuration has its settings from the client, and switches off what they say. -/
structure Obeys (client : Value) (c : Config) : Prop where
  kept : ∃ codes, c.client = grown codes client
  disabled : ∃ m value, c.Computes client .null value ∧ disabledIn m value = .ok c.disabled

theorem Computes.grown (h : c.Computes client path value) (codes : List Value) :
    c.Computes client path (grown codes value) := by
  obtain ⟨m, before, since, settled, hsettled, rfl⟩ := h
  exact ⟨m, before, since ++ codes, settled, hsettled, grown_grown since codes _⟩

theorem Obeys.computes (h : c.Obeys client) {m : Machine} {settled : Settled}
    (hsettled : c.compute m path = .ok settled) : c.Computes client path settled.value := by
  obtain ⟨codes, hcodes⟩ := h.kept
  refine ⟨m, codes, [], settled, ?_, (grown_nil _).symm⟩
  rw [← hcodes]
  exact hsettled

theorem Obeys.grown (h : c.Obeys client) (codes : List Value) :
    ({ c with client := grown codes c.client } : Config).Obeys client := by
  obtain ⟨before, hbefore⟩ := h.kept
  exact ⟨⟨before ++ codes, by rw [hbefore, grown_grown]⟩, h.disabled⟩

theorem ensures_refresh (m : Machine) (c : Config) :
    Ensures (refresh m c) {}
      (fun c' cache => ∃ settled disabled, c.compute m .null = .ok settled ∧
        disabledIn m settled.value = .ok disabled ∧ c' = { c with disabled } ∧
        cache.entries = [⟨c.id, .plain, settled⟩])
      fun f _ => (do disabledIn m (← c.compute m .null).value) = .error f := by
  simp only [refresh, settings, ensures_bind, ensures_settled, ensures_pure, Query.path]
  refine ⟨fun _ => ?_, fun h => by cases h⟩
  have hnone : ({} : Cache).find? c.id .plain = none := rfl
  unfold Cache.fetch
  rw [hnone]
  cases hsettled : c.compute m .null with
  | error f => rfl
  | ok settled =>
    dsimp only
    cases hdisabled : disabledIn m settled.value with
    | error f => exact hdisabled
    | ok disabled => exact ⟨settled, disabled, rfl, hdisabled, rfl, rfl⟩

/-- Whatever is in the cache, only an answer of the configuration itself can come to it. -/
theorem ensures_refresh_cache (m : Machine) (c : Config) (cache : Cache) :
    Ensures (refresh m c) cache
      (fun c' cache' => c'.id = c.id ∧ ∀ e ∈ cache'.entries, e ∈ cache.entries ∨ e.owner = c.id)
      fun _ _ => True := by
  simp only [refresh, settings, ensures_bind, ensures_settled, ensures_pure, Query.path]
  refine ⟨fun _ => ?_, fun _ => trivial⟩
  have hmem : ∀ e ∈ (cache.fetch c.id .plain (c.compute m .null)).2.entries,
      e ∈ cache.entries ∨ e.owner = c.id := by
    intro e he
    rcases Cache.mem_of_mem_fetch he with he | ⟨settled, -, rfl⟩
    · exact .inl he
    · exact .inr rfl
  cases hfetch : cache.fetch c.id .plain (c.compute m .null) with
  | mk answer cache' =>
    rw [hfetch] at hmem
    cases answer with
    | error f => trivial
    | ok settled =>
      dsimp only
      cases disabledIn m settled.value with
      | error f => trivial
      | ok disabled => exact ⟨rfl, hmem⟩

theorem obeys_of_disabledIn {m : Machine} {settled : Settled} {disabled : List (Option Plugin)}
    (hsettled : c.compute m .null = .ok settled)
    (hdisabled : disabledIn m settled.value = .ok disabled)
    (hkept : ∃ codes, c.client = grown codes client) :
    ({ c with disabled } : Config).Obeys client := by
  obtain ⟨codes, hcodes⟩ := hkept
  refine ⟨⟨codes, hcodes⟩, m, settled.value, ⟨m, codes, [], settled, ?_, (grown_nil _).symm⟩,
    hdisabled⟩
  rw [← hcodes]
  exact hsettled

theorem obeys_of_update {m : Machine} {revision : Nat} {c' : Config} {cache : Cache}
    {codes : List Value} (h : c.update m (grown codes client) revision = (c', cache, none)) :
    c'.id = c.id ∧ c'.Obeys client ∧
      ∀ e ∈ cache.entries, e.owner = c'.id ∧ c'.Computes client e.query.path e.settled.value := by
  have hrun := ensures_refresh m { c with client := grown codes client, revision }
  unfold update at h
  cases hx : refresh m { c with client := grown codes client, revision } {} with
  | error f cache' =>
    simp [hx] at h
  | ok c'' cache' =>
    obtain ⟨settled, disabled, hsettled, hdisabled, hc', hentries⟩ := hrun.ok hx
    simp only [hx, Prod.mk.injEq, and_true] at h
    obtain ⟨rfl, rfl⟩ := h
    have hobeys : c''.Obeys client := by
      rw [hc']
      exact obeys_of_disabledIn hsettled hdisabled ⟨codes, rfl⟩
    have hid : c''.id = c.id := by rw [hc']
    refine ⟨hid, hobeys, fun e he => ?_⟩
    rw [hentries, List.mem_singleton] at he
    subst he
    refine ⟨hid.symm, hobeys.computes (m := m) ?_⟩
    rw [hc']
    exact hsettled

end Config

/-! ## Hosts that obey the client -/

namespace Host

/-- Configurations have numbers of their own. -/
structure Numbered (h : Host) : Prop where
  distinct : ∀ m n c c', h.configAt m = some c → h.configAt n = some c' → c.id = c'.id → m = n
  lt : ∀ n c, h.configAt n = some c → c.id < h.configs

/-- The configurations of some workspaces have their settings from the client, and so have all
answers of the cache that are theirs. -/
structure Obeys (client : Value) (held : Nat → Prop) (h : Host) : Prop extends Numbered h where
  config : ∀ n c, held n → h.configAt n = some c → c.Obeys client
  cached : ∀ n c, held n → h.configAt n = some c → ∀ e ∈ h.cache.entries, e.owner = c.id →
    c.Computes client e.query.path e.settled.value

variable {h h' : Host} {client : Value} {held : Nat → Prop}

theorem Obeys.mono {held' : Nat → Prop} (ho : h.Obeys client held) (hheld : ∀ n, held' n → held n) :
    h.Obeys client held' :=
  ⟨ho.toNumbered, fun n c hn => ho.config n c (hheld n hn),
    fun n c hn => ho.cached n c (hheld n hn)⟩

theorem configAt_withDocuments (h : Host) (n : Nat)
    (f : List (String × Document) → List (String × Document)) (m : Nat) :
    (h.withDocuments n f).configAt m = h.configAt m := by
  rw [configAt, configAt, withDocuments, List.getElem?_modify]
  cases h.spaces[m]? with
  | none => rfl
  | some w =>
    simp only [Option.map_eq_map, Option.map_some, Option.bind_some]
    split <;> rfl

theorem Obeys.congr (ho : h.Obeys client held) (hconfigs : h'.configs = h.configs)
    (hconfig : ∀ n, h'.configAt n = h.configAt n)
    (hcache : ∀ e ∈ h'.cache.entries, e ∈ h.cache.entries) : h'.Obeys client held := by
  refine ⟨⟨fun m n c c' hc hc' => ?_, fun n c hc => ?_⟩, fun n c hn hc => ?_,
    fun n c hn hc e he => ?_⟩
  · rw [hconfig] at hc hc'
    exact ho.distinct m n c c' hc hc'
  · rw [hconfig] at hc
    rw [hconfigs]
    exact ho.lt n c hc
  · rw [hconfig] at hc
    exact ho.config n c hn hc
  · rw [hconfig] at hc
    exact ho.cached n c hn hc e (hcache e he)

/-! ### What linters do -/

theorem Obeys.consult (ho : h.Obeys client held) (hstep : h.Consult h') : h'.Obeys client held := by
  cases hstep with
  | asked r => exact ho.congr rfl (fun _ => rfl) fun _ he => he
  | @settled n₀ c₀ hc₀ query =>
    refine ⟨⟨ho.distinct, ho.lt⟩, ho.config, fun n c hn hc e he howner => ?_⟩
    rcases Cache.mem_of_mem_fetch he with he | ⟨settled, hsettled, rfl⟩
    · exact ho.cached n c hn hc e he howner
    · -- the answer is that of the only configuration with the number
      obtain rfl := ho.distinct n₀ n c₀ c hc₀ hc howner
      obtain rfl := Option.some_inj.1 (hc₀.symm.trans hc)
      exact (ho.config n₀ c₀ hn hc).computes hsettled

/-- Codes were added to settings of the client and to answers, and all else stays. -/
structure Added (h h' : Host) : Prop extends Extends h h' where
  configs : h'.configs = h.configs
  isSome_configAt : ∀ n, (h'.configAt n).isSome = (h.configAt n).isSome
  config : ∀ n c', h'.configAt n = some c' →
    ∃ c codes, h.configAt n = some c ∧ c' = { c with client := grown codes c.client }
  cached : ∀ e' ∈ h'.cache.entries, ∃ e ∈ h.cache.entries, ∃ codes, e'.owner = e.owner ∧
    e'.query = e.query ∧ e'.settled.value = grown codes e.settled.value

theorem extends_amendClient (revision : Nat) (path : List String) (shared : Settled → Bool)
    (f : Value → Value) (h : Host) : h.Extends (amendClient revision path shared f h) := by
  have hdocument : ∀ (h : Host) (n : Nat) (uri : String), h.documentAt n uri =
      (h.spaces[n]?.map (·.documents)).bind (Value.lookup uri) := by
    intro h n uri
    rw [documentAt]
    cases h.spaces[n]? <;> rfl
  refine ⟨rfl, Nat.le_of_eq (by simp [amendClient]), fun n uri => ?_, fun n p hp => ?_⟩
  · rw [hdocument, hdocument, map_spaces_amendClient fun _ _ => rfl]
  · rw [rootPathAt, map_spaces_amendClient fun _ _ => rfl]
    exact hp

/-- **What adding codes does.** -/
theorem added_of_extendIgnores {n : Nat} {query : Query} {codes : List Value}
    (hrun : extendIgnores n query codes h = .ok () h') : h.Added h' := by
  have hsame : ∀ e ∈ h.cache.entries, ∃ e' ∈ h.cache.entries, ∃ codes, e.owner = e'.owner ∧
      e.query = e'.query ∧ e.settled.value = grown codes e'.settled.value :=
    fun e he => ⟨e, he, [], rfl, rfl, (grown_nil _).symm⟩
  have hkept : ∀ n c, h.configAt n = some c →
      ∃ c' codes, h.configAt n = some c' ∧ c = { c' with client := grown codes c'.client } :=
    fun n c hc => ⟨c, [], hc, by rw [grown_nil]⟩
  refine (ensures_extendIgnores_cases (P := h.Added) n query codes
    ⟨Extends.refl h, rfl, fun _ => rfl, hkept, hsame⟩ (fun revision => ?_) fun owner => ?_).ok hrun
  · refine ⟨extends_amendClient _ _ _ _ h, rfl, fun m => ?_, fun m c' hc' => ?_, fun e' he' => ?_⟩
    · rw [configAt_amendClient, Option.isSome_map]
    · rw [configAt_amendClient] at hc'
      obtain ⟨d, hd, rfl⟩ := Option.map_eq_some_iff.1 hc'
      split
      · exact ⟨d, codes, hd, rfl⟩
      · exact hkept m d hd
    · obtain ⟨e, he, rfl⟩ := List.mem_map.1 he'
      split
      · exact ⟨e, he, codes, rfl, rfl, rfl⟩
      · exact hsame e he
  · refine ⟨SameSpaces.extends ⟨rfl, rfl⟩, rfl, fun _ => rfl, hkept, fun e' he' => ?_⟩
    obtain ⟨e, he, rfl⟩ := List.mem_map.1 he'
    split
    · exact ⟨e, he, codes, rfl, rfl, rfl⟩
    · exact hsame e he

theorem Obeys.added (ho : h.Obeys client held) (ha : h.Added h') : h'.Obeys client held := by
  refine ⟨⟨fun m n c c' hc hc' hid => ?_, fun n c hc => ?_⟩, fun n c hn hc => ?_,
    fun n c hn hc e he howner => ?_⟩
  · obtain ⟨d, codes, hd, rfl⟩ := ha.config m c hc
    obtain ⟨d', codes', hd', rfl⟩ := ha.config n c' hc'
    exact ho.distinct m n d d' hd hd' hid
  · obtain ⟨d, codes, hd, rfl⟩ := ha.config n c hc
    rw [ha.configs]
    exact ho.lt n d hd
  · obtain ⟨d, codes, hd, rfl⟩ := ha.config n c hc
    exact (ho.config n d hn hd).grown codes
  · obtain ⟨d, codes, hd, rfl⟩ := ha.config n c hc
    obtain ⟨e', he', added, howner', hquery, hvalue⟩ := ha.cached e he
    have hcomputes := ho.cached n d hn hd e' he' (howner'.symm.trans howner)
    rw [hquery, hvalue]
    exact hcomputes.grown added

/-- **What linters do leaves a host obedient**, and its documents as they are. -/
theorem Obeys.touch (ho : h.Obeys client held) (hstep : h.Touch h') : h'.Obeys client held := by
  cases hstep with
  | amended hstep =>
    cases hstep with
    | consulted hstep => exact ho.consult hstep
    | grown hrun => exact ho.added (added_of_extendIgnores hrun)
  | found path findings => exact ho.congr rfl (fun _ => rfl) fun _ he => he

theorem extends_of_touch (hsteps : ReflTransGen Touch h h') :
    h.Extends h' ∧ ∀ n, (h'.configAt n).isSome = (h.configAt n).isSome := by
  induction hsteps with
  | refl => exact ⟨Extends.refl h, fun _ => rfl⟩
  | tail _ hstep ih =>
    cases hstep with
    | amended hstep =>
      cases hstep with
      | consulted hstep =>
        cases hstep with
        | asked => exact ⟨ih.1.trans (SameSpaces.extends ⟨rfl, rfl⟩), ih.2⟩
        | settled => exact ⟨ih.1.trans (SameSpaces.extends ⟨rfl, rfl⟩), ih.2⟩
      | grown hrun =>
        have ha := added_of_extendIgnores hrun
        exact ⟨ih.1.trans ha.toExtends, fun n => (ha.isSome_configAt n).trans (ih.2 n)⟩
    | found => exact ⟨ih.1.trans (SameSpaces.extends ⟨rfl, rfl⟩), ih.2⟩

theorem Obeys.of_touch (ho : h.Obeys client held) (hsteps : ReflTransGen Touch h h') :
    h'.Obeys client held := by
  induction hsteps with
  | refl => exact ho
  | tail _ hstep ih => exact ih.touch hstep

/-! ### Handing on settings -/

theorem Numbered.obeys (hh : h.Numbered) (client : Value) : h.Obeys client fun _ => False :=
  ⟨hh, fun _ _ hn => hn.elim, fun _ _ hn => hn.elim⟩

theorem configAt_set {n : Nat} {w : Workspace} (hw : h.spaces[n]? = some w) (c : Config)
    (cache : Cache) (m : Nat) :
    ({ h with cache, spaces := h.spaces.set n { w with config := some c } } : Host).configAt m =
      if m = n then some c else h.configAt m := by
  obtain ⟨hlt, -⟩ := List.getElem?_eq_some_iff.1 hw
  rw [configAt, configAt, List.getElem?_set]
  by_cases hm : m = n
  · subst hm
    simp [hlt]
  · simp [hm, Ne.symm hm]

/-- A configuration that is replaced keeps its number, and so do the others. -/
theorem exists_of_configAt_set {n : Nat} {w : Workspace} (hw : h.spaces[n]? = some w)
    {c c' : Config} (hc : h.configAt n = some c) (hid : c'.id = c.id) {cache : Cache} {m : Nat}
    {d : Config} (hd : ({ h with
      cache, spaces := h.spaces.set n { w with config := some c' } } : Host).configAt m = some d) :
    ∃ d', h.configAt m = some d' ∧ d.id = d'.id := by
  rw [configAt_set hw] at hd
  split at hd
  · rename_i hm
    rw [hm, ← Option.some_inj.1 hd]
    exact ⟨c, hc, hid⟩
  · exact ⟨d, hd, rfl⟩

/-- The host obeys settings that it was given, and has the same documents, configured workspaces and
findings. -/
structure Instructed (client : Value) (held : Nat → Prop) (h h' : Host) : Prop extends
    Extends h h' where
  obeys : h'.Obeys client held
  isSome_configAt : ∀ n, (h'.configAt n).isSome = (h.configAt n).isSome
  lastFindings : h'.lastFindings = h.lastFindings

theorem Instructed.trans {h'' : Host} {held' : Nat → Prop} (h1 : Instructed client held h h')
    (h2 : Instructed client held' h' h'') : Instructed client held' h h'' :=
  ⟨h1.toExtends.trans h2.toExtends, h2.obeys,
    fun n => (h2.isSome_configAt n).trans (h1.isSome_configAt n),
    h2.lastFindings.trans h1.lastFindings⟩

theorem Instructed.mono {held' : Nat → Prop} (hi : Instructed client held h h')
    (hheld : ∀ n, held' n → held n) : Instructed client held' h h' :=
  ⟨hi.toExtends, hi.obeys.mono hheld, hi.isSome_configAt, hi.lastFindings⟩

/-- **A configuration that gets settings obeys them.** The others keep what they have, and the
cache forgets their answers. -/
theorem ensures_updateConfig_obeys (ho : h.Obeys client held) (n : Nat) (codes : List Value)
    (revision : Nat) :
    Ensures (updateConfig n (grown codes client) revision) h
      (fun _ h' => Instructed client (fun m => held m ∨ m = n) h h') fun _ _ => True := by
  rw [updateConfig, ensures_bind, ensures_space]
  refine ⟨fun w hw => ?_, fun _ => trivial⟩
  rw [ensures_bind, ensures_config_iff]
  refine ⟨fun c hc => ?_, fun _ => trivial⟩
  rw [ensures_bind, ensures_get]
  cases hupdate : c.update h.machine (grown codes client) revision with
  | mk c' rest =>
    obtain ⟨cache, fault?⟩ := rest
    dsimp only
    rw [ensures_bind, ensures_set]
    cases fault? with
    | some f => trivial
    | none =>
      obtain ⟨hid, hobeys, hentries⟩ := Config.obeys_of_update hupdate
      have hconfig := configAt_set hw c' cache
      refine ⟨Extends.of_set rfl hw rfl rfl rfl, ⟨⟨fun m k d e hd he hsame => ?_, fun m d hd => ?_⟩,
        fun m d hm hd => ?_, fun m d hm hd e he howner => ?_⟩, fun m => ?_, rfl⟩
      · obtain ⟨d', hd', hidd⟩ := exists_of_configAt_set hw hc hid hd
        obtain ⟨e', he', hide⟩ := exists_of_configAt_set hw hc hid he
        exact ho.distinct m k d' e' hd' he' (hidd.symm.trans (hsame.trans hide))
      · obtain ⟨d', hd', hidd⟩ := exists_of_configAt_set hw hc hid hd
        rw [hidd]
        exact ho.lt m d' hd'
      · rw [hconfig] at hd
        split at hd
        · rwa [← Option.some_inj.1 hd]
        · rename_i hne
          exact ho.config m d (hm.resolve_right hne) hd
      · rw [hconfig] at hd
        obtain ⟨howner', hcomputes⟩ := hentries e he
        split at hd
        · rwa [← Option.some_inj.1 hd]
        · rename_i hne
          exact absurd (ho.distinct m n d c hd hc (by rw [← howner, howner', hid])) hne
      · rw [hconfig]
        split
        · rename_i hm
          rw [hm, hc]
          rfl
        · rfl

theorem ensures_updateFrom_obeys (ho : h.Obeys client held) (n : Nat) {settings : Value}
    (hclient : serverPart settings = .ok client) (revision : Nat) :
    Ensures (updateFrom n settings revision) h
      (fun _ h' => Instructed client (fun m => held m ∨ m = n) h h') fun _ _ => True := by
  rw [updateFrom, ensures_bind, ensures_config_iff]
  refine ⟨fun c _ => ?_, fun _ => trivial⟩
  rw [hclient, ensures_bind]
  have hupdate := ensures_updateConfig_obeys ho n [] revision
  rwa [grown_nil] at hupdate

theorem ensures_updateSpace_obeys (ho : h.Obeys client held) (n : Nat) {settings : Value}
    (hclient : serverPart settings = .ok client) (revision : Nat) :
    Ensures (updateSpace n settings revision) h
      (fun _ h' => Instructed client (fun m => held m ∨ m = n) h h') fun _ _ => True := by
  rw [updateSpace]
  refine (ensures_updateFrom_obeys ho n hclient revision).bind ?_ fun _ _ h => h
  intro _ h1 hi
  rw [ensures_bind, ensures_space]
  refine ⟨fun w _ => ?_, fun _ => trivial⟩
  rw [ensures_bind]
  refine (ensures_forIn
    (motive := fun _ (t : Host) => Instructed client (fun m => held m ∨ m = n) h t) ?_ hi).imp
    (fun _ _ ht => ht)
  intro d rest t ht
  refine (ensures_updateFrom_obeys ht.obeys d.2.home hclient revision).bind ?_ fun _ _ h => h
  intro _ t' ht'
  exact ⟨rfl, (ht.trans ht').mono fun m hm => .inl hm⟩

/-! ### Making workspaces -/

/-- What a new workspace changes: it comes last, with a configuration of its own. Where nothing was
cached, the configuration obeys a client that has sent nothing. -/
structure Founded (h : Host) (n : Nat) (h' : Host) : Prop where
  configs : h'.configs = h.configs + 1
  new : ∃ c, h'.configAt n = some c ∧ c.id = h.configs ∧
    (h.cache.entries = [] → c.Obeys (.object []) ∧
      ∀ e ∈ h'.cache.entries, c.Computes (.object []) e.query.path e.settled.value)
  old : ∀ m, m ≠ n → h'.configAt m = h.configAt m
  cached : ∀ e ∈ h'.cache.entries, e ∈ h.cache.entries ∨ e.owner = h.configs

theorem ensures_create (m : Machine) (id : Nat) (rootUri : String)
    (initOptions processId capabilities : Value) (cache : Cache) :
    Ensures (Config.create m id rootUri initOptions processId capabilities) cache
      (fun c cache' => (c.id = id ∧ ∀ e ∈ cache'.entries, e ∈ cache.entries ∨ e.owner = id) ∧
        (cache.entries = [] → c.Obeys (.object []) ∧
          ∀ e ∈ cache'.entries, c.Computes (.object []) e.query.path e.settled.value))
      fun _ _ => True := by
  rw [Config.create]
  split
  · rename_i rootPath defaults _ _
    refine ((Config.ensures_refresh_cache m _ cache).and
      (?_ : Ensures (Config.refresh m _) cache (fun c cache' => cache.entries = [] →
        c.Obeys (.object []) ∧ ∀ e ∈ cache'.entries,
          c.Computes (.object []) e.query.path e.settled.value) fun _ _ => True)).mono
      (fun _ _ h => h) fun _ _ _ => trivial
    by_cases hcache : cache.entries = []
    · obtain rfl : cache = {} := congrArg Cache.mk hcache
      refine (Config.ensures_refresh m _).mono ?_ fun _ _ _ => trivial
      rintro c cache' ⟨settled, disabled, hsettled, hdisabled, rfl, hentries⟩ -
      have hobeys : Config.Obeys (.object []) _ :=
        Config.obeys_of_disabledIn hsettled hdisabled ⟨[], (grown_nil _).symm⟩
      refine ⟨hobeys, fun e he => ?_⟩
      rw [hentries, List.mem_singleton] at he
      subst he
      exact hobeys.computes hsettled
    · rw [Ensures]
      split
      · exact fun hempty => absurd hempty hcache
      · trivial
  · trivial
  · trivial

theorem configAt_append_create {m : Machine} {rootUri : String} {c : Config} {w : Workspace}
    (hw : Workspace.create m rootUri (some c) = .ok w) {configs : Nat} {cache : Cache} :
    ({ h with configs, cache, spaces := h.spaces ++ [w] } : Host).configAt h.spaces.length =
      some c := by
  rw [configAt, List.getElem?_append_right (Nat.le_refl _), Nat.sub_self]
  exact (Workspace.of_create hw).2.1

theorem ensures_createSpace_founded (h : Host) (rootUri : String)
    (initOptions processId capabilities : Value) :
    Ensures (createSpace rootUri initOptions processId capabilities) h
      (fun n h' => n = h.spaces.length ∧ h.Founded n h') fun _ _ => True := by
  simp only [createSpace, createConfig, addSpace, ensures_bind, ensures_get, ensures_set,
    ensures_onCache_iff]
  refine (ensures_create h.machine h.configs rootUri initOptions processId capabilities
    h.cache).imp ?_
  rintro c cache ⟨⟨hid, hcached⟩, hobeys⟩
  rw [ensures_liftExcept]
  refine ⟨fun w hw => ⟨rfl, rfl, ⟨c, ?_, hid, hobeys⟩, fun m hm => ?_, hcached⟩, fun _ _ => trivial⟩
  · exact configAt_append_create hw
  · rw [configAt, configAt]
    rcases Nat.lt_or_gt_of_ne hm with hlt | hgt
    · rw [List.getElem?_append_left hlt]
    · rw [List.getElem?_eq_none (by simp; omega), List.getElem?_eq_none (Nat.le_of_lt hgt)]

theorem Founded.obeys {n : Nat} (hf : h.Founded n h') (ho : h.Obeys client held) :
    h'.Obeys client fun m => held m ∧ m ≠ n := by
  obtain ⟨c, hc, hid, -⟩ := hf.new
  -- the new number is larger than all before
  have hold : ∀ m d, m ≠ n → h'.configAt m = some d → d.id < h.configs := by
    intro m d hm hd
    rw [hf.old m hm] at hd
    exact ho.lt m d hd
  have hnew : ∀ d, h'.configAt n = some d → d.id = h.configs := by
    intro d hd
    rwa [← Option.some_inj.1 (hc.symm.trans hd)]
  refine ⟨⟨fun m k d e hd he hsame => ?_, fun m d hd => ?_⟩, fun m d hm hd => ?_,
    fun m d hm hd e he howner => ?_⟩
  · by_cases hm : m = n
    · subst hm
      by_cases hk : k = m
      · exact hk.symm
      · have hlt := hold k e hk he
        have heq := hnew d hd
        omega
    · by_cases hk : k = n
      · subst hk
        have hlt := hold m d hm hd
        have heq := hnew e he
        omega
      · rw [hf.old m hm] at hd
        rw [hf.old k hk] at he
        exact ho.distinct m k d e hd he hsame
  · rw [hf.configs]
    by_cases hm : m = n
    · subst hm
      rw [hnew d hd]
      exact Nat.lt_succ_self _
    · exact Nat.lt_succ_of_lt (hold m d hm hd)
  · rw [hf.old m hm.2] at hd
    exact ho.config m d hm.1 hd
  · have hlt := hold m d hm.2 hd
    rw [hf.old m hm.2] at hd
    rcases hf.cached e he with he | he
    · exact ho.cached m d hm.1 hd e he howner
    · omega

end Host
end LangServer
