import LangServer.Proofs.Spaces

/-!
# Settings that come from the cache

A question about settings is answered from the cache if the answer is still there. As long as every
answer in the cache is what would be computed afresh (`Coherent`), nobody can tell: the answer is
that of the configuration (`settingsOf`), and the host changes in its cache only, which stays
coherent (`ensures_pluginSettings`).

So what was asked before makes no difference to an action that reads the host and puts questions to
the engines. `Steady` says this of two runs: from two hosts that differ in their caches and in what
was asked before (`Agree`) the action gives the same answer, asks the same, and leaves hosts that
again differ in nothing else.
-/

namespace LangServer

open Settings

/-! ## The cache -/

namespace Settings.Cache

variable {c : Cache} {owner : Nat} {query : Query}

theorem mem_of_mem_put {e f : Entry} (h : f ∈ (c.put e).entries) : f = e ∨ f ∈ c.entries := by
  have hmem := List.mem_of_mem_take h
  rcases List.mem_cons.1 hmem with rfl | hmem
  · exact .inl rfl
  · exact .inr ((List.mem_filter.1 hmem).1)

theorem find?_eq_some {e : Entry} (h : c.find? owner query = some e) :
    e ∈ c.entries ∧ e.owner = owner ∧ e.query = query := by
  have hanswers := List.find?_some h
  rw [answers, Bool.and_eq_true, beq_iff_eq, decide_eq_true_iff] at hanswers
  exact ⟨List.mem_of_find?_eq_some h, hanswers⟩

theorem find?_put (c : Cache) (e : Entry) : (c.put e).find? e.owner e.query = some e := by
  rw [find?, put, capacity, List.take_succ_cons, List.find?_cons_of_pos]
  simp [answers]

theorem mem_of_mem_fetch {compute : Except Fault Settled} {e : Entry}
    (h : e ∈ (c.fetch owner query compute).2.entries) :
    e ∈ c.entries ∨ ∃ settled, compute = .ok settled ∧ e = ⟨owner, query, settled⟩ := by
  unfold fetch at h
  split at h
  · rename_i f hf
    rcases mem_of_mem_put h with rfl | h
    · exact .inl (find?_eq_some hf).1
    · exact .inl h
  · split at h
    · rename_i settled
      rcases mem_of_mem_put h with rfl | h
      · exact .inr ⟨settled, rfl, rfl⟩
      · exact .inl h
    · exact .inl h

/-- The answer to a question, where the cache holds none but the right one. -/
theorem fetch_fst {compute : Except Fault Settled}
    (h : ∀ e ∈ c.entries, e.owner = owner → e.query = query → compute = .ok e.settled) :
    (c.fetch owner query compute).1 = compute := by
  unfold fetch
  split
  · rename_i e he
    obtain ⟨hmem, howner, hquery⟩ := find?_eq_some he
    exact (h e hmem howner hquery).symm
  · cases compute <;> rfl

end Settings.Cache

/-- How a question is put to a cache. -/
theorem Config.ensures_settled (m : Machine) (c : Config) (query : Query) (cache : Cache)
    (good : Settled → Cache → Prop) (bad : Fault → Cache → Prop) :
    Ensures (c.settled m query) cache good bad ↔
      (query.path.isHashable = true →
        match cache.fetch c.id query (c.compute m query.path) with
        | (.ok settled, cache') => good settled cache'
        | (.error f, cache') => bad f cache') ∧
      (query.path.isHashable = false → bad .mismatch cache) := by
  rw [Ensures, settled]
  cases query.path.isHashable with
  | false => simp
  | true =>
    simp only [Bool.not_true, Bool.false_eq_true, Bool.true_eq_false, if_false, forall_const,
      false_imp_iff, and_true]
    cases cache.fetch c.id query (c.compute m query.path) with
    | mk answer cache' => cases answer <;> rfl

/-! ## Coherent hosts -/

namespace Host

/-- The configuration of the workspace with a number. -/
def configAt (h : Host) (n : Nat) : Option Config := h.spaces[n]?.bind (·.config)

variable {h h' : Host} {n : Nat}

theorem ensures_config_iff (n : Nat) (good : Config → Host → Prop) (bad : Fault → Host → Prop) :
    Ensures (config n) h good bad ↔
      (∀ c, h.configAt n = some c → good c h) ∧ (h.configAt n = none → bad .noMember h) := by
  rw [config, ensures_bind, ensures_space, configAt]
  cases h.spaces[n]? with
  | none => simp
  | some w => cases hc : w.config <;> simp [hc]

/-- Configurations are told apart by their numbers, and the cache holds what would be computed. -/
structure Coherent (h : Host) : Prop where
  eq_of_id : ∀ m n c c', h.configAt m = some c → h.configAt n = some c' → c.id = c'.id → c = c'
  settled : ∀ n c, h.configAt n = some c → ∀ e ∈ h.cache.entries, e.owner = c.id →
    c.compute h.machine e.query.path = .ok e.settled

theorem coherent_of_single {w : Workspace} (hspaces : h.spaces = [w])
    (hcache : h.cache.entries = []) : h.Coherent := by
  have hone : ∀ n c, h.configAt n = some c → w.config = some c := by
    intro n c hc
    rw [configAt, hspaces] at hc
    match n with
    | 0 => exact hc
    | n + 1 => cases hc
  refine ⟨fun m n c c' hc hc' _ => ?_, fun n c _ e he => ?_⟩
  · exact Option.some_inj.1 ((hone m c hc).symm.trans (hone n c' hc'))
  · rw [hcache] at he
    cases he

/-- The settings by the configuration of a workspace, computed afresh from what the client sent and
from the files. -/
def computed (h : Host) (n : Nat) (query : Query) : Except Fault Value :=
  match h.configAt n with
  | none => .error .noMember
  | some c => if query.path.isHashable then do return (← c.compute h.machine query.path).value
    else .error .mismatch

/-- The settings of a plugin by the configuration of a workspace, computed afresh. -/
def settingsOf (h : Host) (n : Nat) (plugin : String) (path : Value) : Except Fault Value :=
  match h.configAt n with
  | none => .error .noMember
  | some c =>
    if path.isHashable then do Config.ofPlugin (← c.compute h.machine path).value plugin
    else .error .mismatch

/-- The host has changed at most in its cache, which is coherent. -/
structure Recalled (h h' : Host) : Prop where
  eq : h' = { h with cache := h'.cache }
  coherent : h'.Coherent

theorem Recalled.refl (hh : h.Coherent) : h.Recalled h := ⟨rfl, hh⟩

theorem Recalled.settingsOf (hr : h.Recalled h') (n : Nat) (plugin : String) (path : Value) :
    h'.settingsOf n plugin path = h.settingsOf n plugin path := by
  rw [hr.eq]
  rfl

/-- A coherent host stays so when an answer of one of its configurations is put in the cache. -/
theorem Coherent.recalled_fetch (hh : h.Coherent) {c : Config} (hc : h.configAt n = some c)
    (query : Query) :
    h.Recalled { h with
      cache := (h.cache.fetch c.id query (c.compute h.machine query.path)).2 } := by
  refine ⟨rfl, hh.eq_of_id, fun m c' hc' e he howner => ?_⟩
  rcases Cache.mem_of_mem_fetch he with he | ⟨settled, hsettled, rfl⟩
  · exact hh.settled m c' hc' e he howner
  · obtain rfl := hh.eq_of_id n m c c' hc hc' howner
    exact hsettled

theorem ensures_onCache_iff {α : Type} (a : EStateM Fault Cache α) (good : α → Host → Prop)
    (bad : Fault → Host → Prop) :
    Ensures (onCache a) h good bad ↔
      Ensures a h.cache (fun x cache => good x { h with cache })
        fun f cache => bad f { h with cache } := by
  rw [Ensures, Ensures, onCache]
  cases a h.cache <;> exact Iff.rfl

theorem ensures_pluginSettings_cache (h : Host) (n : Nat) (plugin : String) (path : Value) :
    Ensures (pluginSettings n plugin path) h (fun _ h' => ∃ cache, h' = { h with cache })
      fun _ h' => ∃ cache, h' = { h with cache } := by
  rw [pluginSettings, ensures_bind, ensures_config_iff]
  refine ⟨fun c _ => ?_, fun _ => ⟨_, rfl⟩⟩
  rw [ensures_bind, ensures_get, ensures_onCache_iff, Ensures]
  split <;> exact ⟨_, rfl⟩

/-- **Settings are those of the configuration**, and only the cache changes. -/
theorem ensures_settings (hh : h.Coherent) (n : Nat) (query : Query) :
    Ensures (settings n query) h (fun v h' => h.computed n query = .ok v ∧ h.Recalled h')
      fun f h' => h.computed n query = .error f ∧ h.Recalled h' := by
  rw [settings, ensures_bind, ensures_config_iff, computed]
  refine ⟨fun c hc => ?_, fun hc => ⟨by rw [hc], .refl hh⟩⟩
  simp only [ensures_bind, ensures_get, ensures_onCache_iff, Config.settings,
    Config.ensures_settled, ensures_pure, hc]
  have hfetch := hh.recalled_fetch hc query
  have hfst : (h.cache.fetch c.id query (c.compute h.machine query.path)).1 =
      c.compute h.machine query.path :=
    Cache.fetch_fst fun e he howner hquery => by
      have hsettled := hh.settled n c hc e he howner
      rwa [hquery] at hsettled
  refine ⟨fun hhash => ?_, fun hhash => ⟨if_neg (by simp [hhash]), .refl hh⟩⟩
  rw [if_pos hhash]
  cases hanswer : h.cache.fetch c.id query (c.compute h.machine query.path) with
  | mk answer cache =>
    rw [hanswer] at hfst hfetch
    rw [← hfst]
    cases answer <;> exact ⟨rfl, hfetch⟩

theorem ensures_pluginSettings_iff (h : Host) (n : Nat) (plugin : String) (path : Value)
    (good : Value → Host → Prop) (bad : Fault → Host → Prop) :
    Ensures (pluginSettings n plugin path) h good bad ↔ Ensures (do
      liftExcept (Config.ofPlugin (← settings n (.named path)) plugin) : Act Value) h good bad := by
  simp only [pluginSettings, settings, ensures_bind, ensures_onCache_iff, Config.pluginSettings,
    ensures_get]
  refine iff_of_eq (congrArg (Ensures (config n) h · bad) (funext fun c => funext fun t => ?_))
  refine congrArg (Ensures _ t.cache · _) (funext fun v => funext fun cache => ?_)
  cases Config.ofPlugin v plugin <;> rfl

/-- **The settings of a plugin are those of the configuration**, and only the cache changes. -/
theorem ensures_pluginSettings (hh : h.Coherent) (n : Nat) (plugin : String) (path : Value) :
    Ensures (pluginSettings n plugin path) h
      (fun v h' => h.settingsOf n plugin path = .ok v ∧ h.Recalled h')
      fun f h' => h.settingsOf n plugin path = .error f ∧ h.Recalled h' := by
  have hpart : h.settingsOf n plugin path =
      h.computed n (.named path) >>= (Config.ofPlugin · plugin) := by
    rw [settingsOf, computed, Query.path]
    split
    · rfl
    · rcases path.isHashable with _ | _
      · rfl
      · simp
  rw [ensures_pluginSettings_iff, ensures_bind, hpart]
  refine (ensures_settings hh n (.named path)).mono ?_ ?_
  · rintro v h' ⟨hv, hrecalled⟩
    rw [ensures_liftExcept, hv, ok_bind]
    exact ⟨fun _ h => ⟨h, hrecalled⟩, fun _ h => ⟨h, hrecalled⟩⟩
  · rintro f h' ⟨hf, hrecalled⟩
    rw [hf]
    exact ⟨rfl, hrecalled⟩

/-! ## Two runs -/

/-- The hosts differ only in what is in their caches, which are coherent, and in what was asked
before. -/
structure Agree (before before' : List Request) (h h' : Host) : Prop where
  eq : h' = { h with cache := h'.cache, asked := h'.asked }
  asked : ∃ new, h.asked = before ++ new ∧ h'.asked = before' ++ new
  coherent : h.Coherent
  coherent' : h'.Coherent

variable {before before' : List Request}

theorem Agree.settingsOf (ha : Agree before before' h h') (n : Nat) (plugin : String)
    (path : Value) : h'.settingsOf n plugin path = h.settingsOf n plugin path := by
  rw [ha.eq]
  rfl

theorem Agree.recalled {t t' : Host} (ha : Agree before before' h h') (ht : h.Recalled t)
    (ht' : h'.Recalled t') : Agree before before' t t' := by
  obtain ⟨new, hnew, hnew'⟩ := ha.asked
  refine ⟨?_, ⟨new, ?_, ?_⟩, ht.coherent, ht'.coherent⟩
  · rw [ht'.eq, ha.eq, ht.eq]
  · rw [ht.eq]
    exact hnew
  · rw [ht'.eq]
    exact hnew'

theorem Agree.ask (ha : Agree before before' h h') (r : Request) :
    Agree before before' { h with asked := h.asked ++ [r] }
      { h' with asked := h'.asked ++ [r] } := by
  obtain ⟨new, hnew, hnew'⟩ := ha.asked
  refine ⟨?_, ⟨new ++ [r], ?_, ?_⟩, ⟨ha.coherent.eq_of_id, ha.coherent.settled⟩,
    ⟨ha.coherent'.eq_of_id, ha.coherent'.settled⟩⟩
  · rw [ha.eq]
  · rw [hnew, List.append_assoc]
  · rw [hnew', List.append_assoc]

theorem Agree.setEngines (ha : Agree before before' h h') (engines : Engines) :
    Agree before before' { h with engines } { h' with engines } := by
  refine ⟨?_, ha.asked, ⟨ha.coherent.eq_of_id, ha.coherent.settled⟩,
    ⟨ha.coherent'.eq_of_id, ha.coherent'.settled⟩⟩
  rw [ha.eq]

end Host

/-- The desks hold the same document, and their hosts agree. -/
structure Desk.Agree (before before' : List Request) (desk desk' : Desk) : Prop where
  document : desk'.document = desk.document
  host : Host.Agree before before' desk.host desk'.host

variable {ε σ α β : Type}

/-- From two states the action succeeds or fails alike, with the same answer or fault, and leaves
related states. -/
def Alike (R : σ → σ → Prop) (x : EStateM ε σ α) (s s' : σ) : Prop :=
  (∃ a t t', x s = .ok a t ∧ x s' = .ok a t' ∧ R t t') ∨
    ∃ e t t', x s = .error e t ∧ x s' = .error e t' ∧ R t t'

/-- From related states the action succeeds or fails alike. -/
def Steady (R : σ → σ → Prop) (x : EStateM ε σ α) : Prop := ∀ s s', R s s' → Alike R x s s'

namespace Alike

variable {R : σ → σ → Prop}

theorem of_ensures {x : EStateM ε σ α} {s s' : σ} {result : Except ε α} {P P' : σ → Prop}
    (hx : Ensures x s (fun a t => result = .ok a ∧ P t) fun e t => result = .error e ∧ P t)
    (hx' : Ensures x s' (fun a t => result = .ok a ∧ P' t) fun e t => result = .error e ∧ P' t)
    (hR : ∀ t t', P t → P' t' → R t t') : Alike R x s s' := by
  cases result with
  | ok a =>
    obtain ⟨b, t, ht, hb, hP⟩ := (hx.mono (fun _ _ h => h) fun _ _ h => nomatch h.1).exists_ok
    obtain ⟨b', t', ht', hb', hP'⟩ := (hx'.mono (fun _ _ h => h) fun _ _ h => nomatch h.1).exists_ok
    obtain rfl := Except.ok.inj hb
    obtain rfl := Except.ok.inj hb'
    exact .inl ⟨a, t, t', ht, ht', hR t t' hP hP'⟩
  | error e =>
    cases ht : x s with
    | ok b t => cases (hx.ok ht).1
    | error f t =>
      cases ht' : x s' with
      | ok b t' => cases (hx'.ok ht').1
      | error f' t' =>
        obtain ⟨hf, hP⟩ := hx.error ht
        obtain ⟨hf', hP'⟩ := hx'.error ht'
        obtain rfl := Except.error.inj hf
        obtain rfl := Except.error.inj hf'
        exact .inr ⟨e, t, t', ht, ht', hR t t' hP hP'⟩

theorem bind {x : EStateM ε σ α} {f : α → EStateM ε σ β} {s s' : σ} (hx : Alike R x s s')
    (hf : ∀ a, Steady R (f a)) : Alike R (x >>= f) s s' := by
  show (∃ b t t', EStateM.bind x f s = .ok b t ∧ EStateM.bind x f s' = .ok b t' ∧ R t t') ∨
    ∃ e t t', EStateM.bind x f s = .error e t ∧ EStateM.bind x f s' = .error e t' ∧ R t t'
  rw [EStateM.bind, EStateM.bind]
  rcases hx with ⟨a, t, t', hs, hs', hR⟩ | ⟨e, t, t', hs, hs', hR⟩
  · rw [hs, hs']
    exact hf a t t' hR
  · rw [hs, hs']
    exact .inr ⟨e, t, t', rfl, rfl, hR⟩

theorem liftJob {before before' : List Request} {x : Act α} {desk desk' : Desk}
    (hx : Alike (Host.Agree before before') x desk.host desk'.host)
    (hdocument : desk'.document = desk.document) :
    Alike (Desk.Agree before before') (liftM x : Job α) desk desk' := by
  show (∃ a t t', Act.toJob x desk = .ok a t ∧ Act.toJob x desk' = .ok a t' ∧ _) ∨
    ∃ e t t', Act.toJob x desk = .error e t ∧ Act.toJob x desk' = .error e t' ∧ _
  rw [Act.toJob, Act.toJob]
  rcases hx with ⟨a, t, t', hs, hs', hR⟩ | ⟨e, t, t', hs, hs', hR⟩
  · rw [hs, hs']
    exact .inl ⟨a, _, _, rfl, rfl, hdocument, hR⟩
  · rw [hs, hs']
    exact .inr ⟨e, _, _, rfl, rfl, hdocument, hR⟩

end Alike

namespace Steady

variable {R : σ → σ → Prop} {before before' : List Request}

theorem pure (a : α) : Steady R (Pure.pure a : EStateM ε σ α) :=
  fun s s' hR => .inl ⟨a, s, s', rfl, rfl, hR⟩

theorem throw (e : ε) : Steady R (MonadExcept.throw e : EStateM ε σ α) :=
  fun s s' hR => .inr ⟨e, s, s', rfl, rfl, hR⟩

theorem bind {x : EStateM ε σ α} {f : α → EStateM ε σ β} (hx : Steady R x)
    (hf : ∀ a, Steady R (f a)) : Steady R (x >>= f) :=
  fun s s' hR => (hx s s' hR).bind hf

theorem ofExcept (x : Except ε α) : Steady R (liftExcept x : EStateM ε σ α) := by
  cases x with
  | ok a => exact pure a
  | error e => exact throw e

theorem mapM {f : α → EStateM ε σ β}
    (hf : ∀ a, Steady R (f a)) (xs : List α) : Steady R (xs.mapM f) := by
  induction xs with
  | nil => exact pure []
  | cons a xs ih =>
    rw [List.mapM_cons]
    exact (hf a).bind fun _ => ih.bind fun _ => pure _

theorem tryCatch {x : EStateM ε σ α} {handle : ε → EStateM ε σ α} (hx : Steady R x)
    (hhandle : ∀ e, Steady R (handle e)) : Steady R (MonadExcept.tryCatch x handle) := by
  intro s s' hR
  show (∃ a t t', EStateM.tryCatch x handle s = .ok a t ∧
      EStateM.tryCatch x handle s' = .ok a t' ∧ _) ∨
    ∃ e t t', EStateM.tryCatch x handle s = .error e t ∧
      EStateM.tryCatch x handle s' = .error e t' ∧ _
  delta EStateM.tryCatch
  rcases hx s s' hR with ⟨a, t, t', hs, hs', hR'⟩ | ⟨e, t, t', hs, hs', hR'⟩
  · rw [hs, hs']
    exact .inl ⟨a, t, t', rfl, rfl, hR'⟩
  · rw [hs, hs']
    exact hhandle e t t' hR'

theorem read {f : σ → α} (hf : ∀ s s', R s s' → f s = f s') :
    Steady R (do return f (← get) : EStateM ε σ α) :=
  fun s s' hR => .inl ⟨f s, s, s', rfl, congrArg (EStateM.Result.ok · s') (hf s s' hR).symm, hR⟩

theorem liftJob {x : Act α} (hx : Steady (Host.Agree before before') x) :
    Steady (Desk.Agree before before') (liftM x : Job α) :=
  fun s s' hR => (hx s.host s'.host hR.host).liftJob hR.document

/-- **What is in the cache makes no difference to the settings.** -/
theorem pluginSettings (n : Nat) (plugin : String) (path : Value) :
    Steady (Host.Agree before before') (Host.pluginSettings n plugin path) := by
  intro h h' ha
  have hrun' := Host.ensures_pluginSettings ha.coherent' n plugin path
  rw [ha.settingsOf] at hrun'
  exact .of_ensures (Host.ensures_pluginSettings ha.coherent n plugin path) hrun' fun _ _ =>
    ha.recalled

theorem ask (r : Request) : Steady (Desk.Agree before before') (Job.ask r) :=
  liftJob fun _ _ ha => .inl ⟨(), _, _, rfl, rfl, ha.ask r⟩

theorem document : Steady (Desk.Agree before before') Job.document := by
  rintro ⟨host, document⟩ ⟨host', document'⟩ hR
  obtain rfl : document' = document := hR.document
  cases document' with
  | some d => exact .inl ⟨d, _, _, rfl, rfl, hR⟩
  | none => exact .inr ⟨.noMember, _, _, rfl, rfl, hR⟩

theorem files : Steady (Desk.Agree before before') Job.files := by
  refine read (f := fun desk : Desk => desk.host.machine.files) fun s s' hR => ?_
  rw [hR.host.eq]

theorem engines : Steady (Desk.Agree before before') Job.engines := by
  refine read (f := fun desk : Desk => desk.host.engines) fun s s' hR => ?_
  rw [hR.host.eq]

theorem sourceOr (fault : Fault) : Steady (Desk.Agree before before') (Job.sourceOr fault) :=
  document.bind fun _ => files.bind fun _ => ofExcept _

theorem lines : Steady (Desk.Agree before before') Job.lines :=
  document.bind fun _ => files.bind fun _ => ofExcept _

end Steady
end LangServer
