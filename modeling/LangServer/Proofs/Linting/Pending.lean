import LangServer.Proofs.Debounce.LastCall
import LangServer.Proofs.Linting.ClientSettings

/-!
# Which lints wait?

Messages about documents ask for lints of them, and messages about settings or files ask for lints
of many documents. No message makes a waiting lint go away but to put another of the same document
in its place (`Session.Asks`).

New settings reach every workspace of a session, and ask for a lint of every document
(`Session.ensures_didChangeConfiguration`). A session that has just started obeys a client that has
sent no settings yet, and no lint waits (`Session.ensures_start_begun`).
-/

namespace LangServer

open Settings Relation Lint.Flake8

theorem Errand.isLintOf_iff {uri : Value} {e : Errand} :
    e.isLintOf uri = true ↔ ∃ v isSaved, e = .lint v isSaved ∧ v.asKey = uri.asKey := by
  cases e with
  | lint v isSaved =>
    rw [isLintOf, Value.alike_iff]
    constructor
    · intro h
      exact ⟨v, isSaved, rfl, h⟩
    · rintro ⟨v', isSaved', heq, h⟩
      obtain ⟨rfl, -⟩ := Errand.lint.inj heq
      exact h
  | watch pid =>
    constructor
    · intro h
      cases h
    · rintro ⟨v, isSaved, h, -⟩
      cases h

theorem Errand.isLintOf_str_iff {uri : String} {e : Errand} :
    e.isLintOf (.str uri) = true ↔ ∃ isSaved, e = .lint (.str uri) isSaved := by
  rw [isLintOf_iff]
  constructor
  · rintro ⟨v, isSaved, rfl, hv⟩
    rw [Value.asKey] at hv
    split at hv
    · cases hv
    · exact ⟨isSaved, by rw [hv]; rfl⟩
  · rintro ⟨isSaved, rfl⟩
    exact ⟨.str uri, isSaved, rfl, rfl⟩

theorem Errand.isLintOf_congr {uri uri' : Value} (h : uri.asKey = uri'.asKey) (e : Errand) :
    e.isLintOf uri = e.isLintOf uri' := by
  rw [Bool.eq_iff_iff, isLintOf_iff, isLintOf_iff, h]

namespace Session

/-! ## Waiting lints -/

/-- A lint of the document waits. -/
def Pending (s : Session) (uri : Value) : Prop :=
  ∃ w ∈ s.timers.waiting, w.call.isLintOf uri = true

/-- Of every document at most one lint waits. -/
def OneEach (s : Session) : Prop :=
  ∀ uri, (s.timers.waiting.filter fun w => w.call.isLintOf uri).length ≤ 1

/-- The session has asked for lints, and done nothing else. -/
structure Asks (s t : Session) : Prop where
  eq : t = { s with timers := t.timers }
  pending : ∀ uri, s.Pending uri → t.Pending uri
  oneEach : s.OneEach → t.OneEach

variable {s t u : Session}

theorem Asks.refl (s : Session) : s.Asks s := ⟨rfl, fun _ h => h, fun h => h⟩

theorem Asks.trans (h1 : s.Asks t) (h2 : t.Asks u) : s.Asks u := by
  refine ⟨?_, fun uri h => h2.pending uri (h1.pending uri h), fun h => h2.oneEach (h1.oneEach h)⟩
  rw [h2.eq, h1.eq]

theorem pending_asking (s : Session) (uri : Value) (isSaved : Bool) :
    (s.asking uri isSaved).Pending uri := by
  refine ⟨⟨s.timers.now + lintPause, .lint uri isSaved⟩, ?_,
    Errand.isLintOf_iff.2 ⟨uri, isSaved, rfl, rfl⟩⟩
  exact List.mem_append_right _ (List.mem_singleton_self _)

/-- **Asking for a lint** replaces the lint of the same document, and no other. -/
theorem asks_asking (s : Session) (uri : Value) (isSaved : Bool) :
    s.Asks (s.asking uri isSaved) := by
  refine ⟨rfl, ?_, fun hone other => ?_⟩
  · rintro other ⟨w, hw, hlint⟩
    by_cases hsame : w.call.isLintOf uri = true
    · -- the lint that goes is of the same document as the one that comes
      obtain ⟨v, _, hcall, hv⟩ := Errand.isLintOf_iff.1 hlint
      obtain ⟨v', _, hcall', hv'⟩ := Errand.isLintOf_iff.1 hsame
      obtain ⟨rfl, -⟩ := Errand.lint.inj (hcall.symm.trans hcall')
      obtain ⟨w', hw', hnew⟩ := pending_asking s uri isSaved
      refine ⟨w', hw', ?_⟩
      rwa [Errand.isLintOf_congr (hv.symm.trans hv')]
    · refine ⟨w, List.mem_append_left _ (List.mem_filter.2 ⟨hw, ?_⟩), hlint⟩
      rw [Bool.not_eq_true] at hsame
      rw [hsame]
      rfl
  · show (List.filter _ (s.timers.waiting.filter _ ++ [_])).length ≤ 1
    rw [List.filter_append, List.length_append]
    by_cases hkey : uri.asKey = other.asKey
    · have hnone : (s.timers.waiting.filter fun w => !w.call.isLintOf uri).filter
          (fun w => w.call.isLintOf other) = [] := by
        rw [List.filter_eq_nil_iff]
        intro w hw
        rw [← Errand.isLintOf_congr hkey]
        simpa using (List.mem_filter.1 hw).2
      rw [hnone, List.length_nil, Nat.zero_add]
      exact List.length_filter_le _ _
    · have hother : (Errand.lint uri isSaved).isLintOf other = false := by
        rw [Bool.eq_false_iff]
        intro h
        obtain ⟨v, _, heq, hv⟩ := Errand.isLintOf_iff.1 h
        obtain ⟨rfl, -⟩ := Errand.lint.inj heq
        exact hkey hv
      have hold := hone other
      have hle : ((s.timers.waiting.filter fun w => !w.call.isLintOf uri).filter
          fun w => w.call.isLintOf other).length ≤ 1 := by
        refine Nat.le_trans ?_ hold
        exact (List.filter_sublist.filter _).length_le
      simpa [hother] using hle

/-- The session without the lint that waits at a place, at the time when it was due. -/
def taking (s : Session) (due : Int) (place : Nat) : Session :=
  { s with timers := { now := due, waiting := s.timers.waiting.eraseIdx place } }

theorem OneEach.taking (hone : s.OneEach) (due : Int) (place : Nat) :
    (s.taking due place).OneEach := by
  intro uri
  refine Nat.le_trans ?_ (hone uri)
  exact ((List.eraseIdx_sublist _ _).filter _).length_le

theorem Pending.taking {uri : String} {v : Value} {due due' : Int} {place : Nat} {isSaved : Bool}
    (hp : s.Pending (.str uri)) (hplace : s.timers.waiting[place]? = some ⟨due', .lint v isSaved⟩)
    (hne : v ≠ .str uri) : (s.taking due place).Pending (.str uri) := by
  obtain ⟨w, hw, hlint⟩ := hp
  obtain ⟨i, hi⟩ := List.mem_iff_getElem?.1 hw
  refine ⟨w, List.mem_eraseIdx_iff_getElem?.2 ⟨i, ?_, hi⟩, hlint⟩
  rintro rfl
  obtain rfl := Option.some_inj.1 (hplace.symm.trans hi)
  obtain ⟨_, heq⟩ := Errand.isLintOf_str_iff.1 hlint
  exact hne (Errand.lint.inj heq).1

theorem ensures_requestLint_asks (s : Session) (uri : Value) (isSaved : Bool) :
    Ensures (requestLint uri isSaved) s (fun _ t => s.Asks t ∧ t.Pending uri) fun _ _ => True := by
  cases huri : uri.isHashable with
  | true =>
    refine (ensures_requestLint_asking s huri isSaved).mono ?_ fun _ _ _ => trivial
    rintro _ _ rfl
    exact ⟨asks_asking s uri isSaved, pending_asking s uri isSaved⟩
  | false =>
    rw [requestLint, huri]
    trivial

theorem ensures_requestLints (s : Session) (n : Nat) (except : List String) :
    Ensures (requestLints n except) s
      (fun _ t => s.Asks t ∧ ∀ uri d, s.host.documentAt n uri = some d → uri ∉ except →
        t.Pending (.str uri))
      fun _ _ => s.host.spaces[n]? = none := by
  rw [requestLints, ensures_bind, ensures_liftAct, Host.ensures_space]
  refine ⟨fun w hw => ?_, id⟩
  rw [ensures_bind]
  refine (ensures_forIn (motive := fun rest t => s.Asks t ∧ ∀ m ∈ w.documents, m ∈ rest ∨
    m.1 ∈ except ∨ t.Pending (.str m.1)) ?_ ⟨Asks.refl s, fun m hm => .inl hm⟩).imp ?_
  · rintro ⟨uri, d⟩ rest t ⟨hasks, hdone⟩
    dsimp only
    split
    · rename_i hin
      refine (ensures_requestLint_asking t rfl false).bind ?_ fun _ _ h => h.elim
      rintro _ _ rfl
      have hasks' := asks_asking t (.str uri) false
      refine ⟨rfl, hasks.trans hasks', fun m hm => ?_⟩
      rcases hdone m hm with hmem | hexcept | hpend
      · rcases List.mem_cons.1 hmem with rfl | hmem
        · exact .inr (Or.inr (pending_asking t (.str uri) false))
        · exact .inl hmem
      · exact .inr (Or.inl hexcept)
      · exact .inr (Or.inr (hasks'.pending _ hpend))
    · rename_i hin
      refine ⟨rfl, hasks, fun m hm => ?_⟩
      rcases hdone m hm with hmem | hrest
      · rcases List.mem_cons.1 hmem with rfl | hmem
        · exact .inr (Or.inl (by simpa using hin))
        · exact .inl hmem
      · exact .inr hrest
  · rintro _ t ⟨hasks, hdone⟩
    refine ⟨hasks, fun uri d hd hexcept => ?_⟩
    rw [Host.documentAt, hw] at hd
    rcases hdone (uri, d) (Value.mem_of_lookup hd) with hnil | hin | hpend
    · cases hnil
    · exact absurd hin hexcept
    · exact hpend

/-! ## Messages -/

theorem ensures_didSave (s : Session) (ps : Params) :
    Ensures (didSave ps) s (fun _ t => s.Asks t) fun _ _ => True := by
  rw [didSave, uriArg, ensures_bind, ensures_liftExcept]
  refine ⟨fun uri _ => ?_, fun _ _ => trivial⟩
  exact (ensures_requestLint_asks s uri true).bind (fun _ _ h => h.1) fun _ _ h => h

end Session

/-- The host has changed at most in the documents that are open under a URI, and has as many. -/
structure Host.EditedAt (uri : Value) (h h' : Host) : Prop where
  documentAt : ∀ n u, uri ≠ .str u → h'.documentAt n u = h.documentAt n u
  isSome_documentAt : ∀ n u, (h'.documentAt n u).isSome = (h.documentAt n u).isSome
  configAt : ∀ n, h'.configAt n = h.configAt n
  length : h'.spaces.length = h.spaces.length
  configs : h'.configs = h.configs
  cache : h'.cache = h.cache
  lastFindings : h'.lastFindings = h.lastFindings

theorem Host.EditedAt.put {uri : String} {h h' : Host} (he : h.EditedAt (.str uri) h') {n : Nat}
    {d d' : Document} (hd : h'.documentAt n uri = some d) :
    h.EditedAt (.str uri) (h'.put n uri d') := by
  have hlt := Host.lt_of_documentAt hd
  refine ⟨fun m u hu => ?_, fun m u => ?_, fun m => ?_, ?_, he.configs, he.cache, he.lastFindings⟩
  · rw [documentAt_put hlt, if_neg fun hmu => hu (by rw [hmu.2])]
    exact he.documentAt m u hu
  · rw [documentAt_put hlt, ← he.isSome_documentAt]
    split
    · rename_i hmu
      rw [hmu.1, hmu.2, hd]
      rfl
    · rfl
  · exact (configAt_withDocuments h' n _ m).trans (he.configAt m)
  · exact (length_withDocuments _).trans he.length

namespace Session

variable {s t u : Session}

/-- **Changing a document** changes no other, and asks for a lint of it. -/
theorem ensures_didChange_edits (s : Session) (ps : Params) :
    Ensures (didChange ps) s
      (fun _ t => ∃ uri host, s.host.EditedAt uri host ∧ t = asking { s with host } uri false)
      fun _ _ => True := by
  rw [didChange, uriArg, ensures_bind, ensures_liftExcept]
  refine ⟨fun v _ => ?_, fun _ _ => trivial⟩
  refine (ensures_spaceFor s v).bind ?_ fun _ _ _ => trivial
  rintro space s ⟨rfl, hhash, -⟩
  rw [ensures_bind, ensures_liftExcept]
  refine ⟨fun changes _ => ?_, fun _ _ => trivial⟩
  rw [ensures_bind]
  refine (ensures_forIn
    (motive := fun _ t => ∃ host, t = { s with host } ∧ s.host.EditedAt v host) ?_
    ⟨s.host, rfl, fun _ _ _ => rfl, fun _ _ => rfl, fun _ => rfl, rfl, rfl, rfl, rfl⟩).imp ?_
  · rintro change rest _ ⟨host, rfl, hedited⟩
    simp only [ensures_bind, ensures_pure, ensures_require, ensures_liftExcept, ensures_liftAct,
      Value.textOr_eq_ok_iff, Host.ensures_changeDocument]
    refine ⟨fun n hn => ⟨fun uri huri => ⟨fun version _ => ⟨fun d hd => ⟨fun d' _ => ?_,
      fun _ _ => trivial⟩, fun _ _ => trivial, fun _ => trivial⟩, fun _ _ => trivial⟩,
      fun _ _ => trivial⟩, fun _ => trivial⟩
    subst huri
    exact ⟨trivial, _, rfl, hedited.put hd⟩
  · rintro _ _ ⟨host, rfl, hedited⟩
    refine (ensures_requestLint_asking _ hhash false).bind ?_ fun _ _ _ => trivial
    rintro _ _ rfl
    exact ⟨v, host, hedited, rfl⟩

/-- Files that change ask for lints; where they hold settings, the cache is emptied. -/
theorem ensures_didChangeWatchedFiles (s : Session) (ps : Params) :
    Ensures (didChangeWatchedFiles ps) s
      (fun _ t => ∃ cache, (∀ e ∈ cache.entries, e ∈ s.host.cache.entries) ∧
        Asks { s with host := { s.host with cache } } t)
      fun _ _ => True := by
  have hloop : ∀ (except : List String) (t : Session), Ensures (do
      for folder in (← get).folders do requestLints folder.2 except
      return (Value.null)) t (fun _ t' => t.Asks t') fun _ _ => True := by
    intro except t
    rw [ensures_bind, ensures_get]
    refine (ensures_forIn (motive := fun _ t' => t.Asks t') ?_ (Asks.refl t)).bind
      (fun _ _ h => h) fun _ _ h => h
    rintro ⟨name, n⟩ rest t' hasks
    refine (ensures_requestLints t' n except).bind ?_ fun _ _ _ => trivial
    rintro _ t'' ⟨hasks', -⟩
    exact ⟨rfl, hasks.trans hasks'⟩
  rw [didChangeWatchedFiles, ensures_bind, ensures_liftExcept]
  refine ⟨fun changes _ => ?_, fun _ _ => trivial⟩
  obtain ⟨sources, settings⟩ := changes
  dsimp only
  cases settings with
  | true =>
    rw [if_pos rfl, ensures_bind, ensures_get, ensures_bind, ensures_require]
    refine ⟨fun n _ => ?_, fun _ => trivial⟩
    rw [ensures_bind, ensures_modify]
    refine (hloop sources _).imp (fun _ t hasks => ?_)
    exact ⟨{}, fun _ he => absurd he List.not_mem_nil, hasks⟩
  | false =>
    rw [if_neg Bool.false_ne_true]
    split
    · exact ⟨s.host.cache, fun _ he => he, Asks.refl s⟩
    · exact (hloop sources s).imp (fun _ t hasks => ⟨s.host.cache, fun _ he => he, hasks⟩)

/-- **New settings** are obeyed by all workspaces of a session, and ask for a lint of every
document. -/
theorem ensures_didChangeConfiguration (hs : s.Sound) (hh : s.host.Numbered)
    (hroot : s.root ≠ none) (hfolders : ∀ n, s.Holds n → ∃ name, (name, n) ∈ s.folders)
    (ps : Params) :
    Ensures (didChangeConfiguration ps) s
      (fun _ t => ∃ client, Host.serverPart (arg ps "settings") = .ok client ∧
        Host.Instructed client s.Holds s.host t.host ∧ Asks { s with host := t.host } t ∧
        ∀ n uri d, s.Holds n → s.host.documentAt n uri = some d → t.Pending (.str uri))
      fun _ _ => True := by
  obtain ⟨r, hr⟩ := Option.ne_none_iff_exists'.1 hroot
  have hconfig : s.config = some r := hs.config_eq.trans hr
  have hnumbered : ({ s.host with revisions := s.host.revisions + 1 } : Host).Numbered :=
    ⟨hh.distinct, hh.lt⟩
  simp only [didChangeConfiguration, Host.newRevision, ensures_bind, ensures_liftAct,
    ensures_modify, ensures_get, ensures_pure]
  split
  case h_2 hnone => exact absurd (hconfig.symm.trans hnone) (Option.some_ne_none r)
  rename_i n _
  cases hclient : Host.serverPart (arg ps "settings") with
  | error f =>
    -- such settings are refused by the first workspace
    rw [ensures_bind, ensures_liftAct, Host.updateFrom, ensures_bind, Host.ensures_config_iff]
    refine ⟨fun c _ => ?_, fun _ => trivial⟩
    rw [hclient]
    trivial
  | ok client =>
    rw [ensures_bind, ensures_liftAct]
    refine (Host.ensures_updateFrom_obeys (hnumbered.obeys client) n hclient _).imp ?_
    intro _ h1 hi1
    have hcounted : Host.Instructed client (fun _ => False) s.host
        { s.host with revisions := s.host.revisions + 1 } :=
      ⟨Host.SameSpaces.extends ⟨rfl, rfl⟩, hnumbered.obeys client, fun _ => rfl, rfl⟩
    rw [ensures_bind, ensures_get, ensures_bind]
    -- the workspaces that are not left have the settings, and their documents wait for lints
    refine (ensures_forIn (motive := fun rest (t : Session) =>
      Host.Instructed client (fun n => s.Holds n ∧ n ∉ rest.map (·.2)) s.host t.host ∧
      Asks { s with host := t.host } t ∧ ∀ n uri d, s.Holds n → n ∉ rest.map (·.2) →
        s.host.documentAt n uri = some d → t.Pending (.str uri)) ?_ ⟨?_, ?_, ?_⟩).imp ?_
    · rintro ⟨name, n⟩ rest t ⟨hi, hasks, hpending⟩
      simp only [ensures_bind, ensures_liftAct]
      refine (Host.ensures_updateSpace_obeys hi.obeys n hclient _).imp ?_
      intro _ h' hi'
      refine (ensures_requestLints { t with host := h' } n []).mono ?_ fun _ _ _ => trivial
      rintro _ t' ⟨hasks', hpending'⟩
      have hhost : t'.host = h' := by rw [hasks'.eq]
      have hasks2 : Asks { s with host := t'.host } t' := by
        refine ⟨?_, fun uri hp => hasks'.pending uri (hasks.pending uri hp),
          fun hone => hasks'.oneEach (hasks.oneEach hone)⟩
        rw [hasks'.eq, hasks.eq]
      have hmore : ∀ m, m ∉ rest.map (·.2) → m ∉ ((name, n) :: rest).map (·.2) ∨ m = n := by
        intro m hm
        by_cases hmn : m = n
        · exact .inr hmn
        · exact .inl (by simpa [hmn] using hm)
      refine ⟨rfl, ?_, hasks2, fun m uri d hm hrest hd => ?_⟩
      · rw [hhost]
        exact (hi.trans hi').mono fun m hm => (hmore m hm.2).imp_left fun hnot => ⟨hm.1, hnot⟩
      · rcases hmore m hrest with hnot | rfl
        · exact hasks'.pending _ (hpending m uri d hm hnot hd)
        · refine hpending' uri d ?_ (List.not_mem_nil)
          rw [hi'.documentAt, hi.documentAt]
          exact hd
    · refine (hcounted.trans hi1).mono fun n hn => ?_
      obtain ⟨name, hname⟩ := hfolders n hn.1
      exact absurd (List.mem_map.2 ⟨(name, n), hname, rfl⟩) hn.2
    · exact Asks.refl _
    · intro n uri d hn hnot
      obtain ⟨name, hname⟩ := hfolders n hn
      exact absurd (List.mem_map.2 ⟨(name, n), hname, rfl⟩) hnot
    · rintro _ t ⟨hi, hasks, hpending⟩
      exact ⟨client, rfl, hi.mono fun n hn => ⟨hn, List.not_mem_nil⟩, hasks,
        fun n uri d hn => hpending n uri d hn List.not_mem_nil⟩

/-! ## Starting -/

/-- The session has a root that is the workspace of a folder, all its workspaces have configurations
that obey a client which has sent nothing, and no lint waits. -/
structure Begun (name : String) (n : Nat) (s : Session) : Prop where
  root : s.root = some n
  config : s.config = some n
  folder : Value.lookup name s.folders = some n
  configured : ∀ m, s.Holds m → (s.host.configAt m).isSome = true
  obeys : s.host.Obeys (.object []) s.Holds
  idle : ∀ uri, ¬ s.Pending uri

variable {name : String} {n : Nat}

theorem Begun.congr (hb : Begun name n s) (hroot : t.root = s.root) (hconfig : t.config = s.config)
    (hfolders : t.folders = s.folders) (htimers : t.timers = s.timers)
    (hconfigured : ∀ m, (t.host.configAt m).isSome = (s.host.configAt m).isSome)
    (hobeys : t.host.Obeys (.object []) s.Holds) : Begun name n t := by
  have hholds : t.Holds = s.Holds := by
    funext m
    rw [Holds, Holds, hroot, hfolders]
  refine ⟨hroot.trans hb.root, hconfig.trans hb.config, by rw [hfolders]; exact hb.folder, ?_, ?_,
    fun uri => ?_⟩
  · intro m hm
    rw [hholds] at hm
    rw [hconfigured]
    exact hb.configured m hm
  · rwa [hholds]
  · rw [Pending, htimers]
    exact hb.idle uri

theorem ensures_addFolder_begun (hb : Begun name n s) {uri : Value} (huri : uri ≠ .str name) :
    Ensures (addFolder uri) s (fun _ t => Begun name n t) fun _ _ => True := by
  simp only [addFolder, ensures_bind, ensures_get, hb.config, ensures_require_some, ensures_liftAct,
    Host.ensures_config_iff, ensures_liftExcept, Value.textOr_eq_ok_iff]
  refine ⟨fun c hc => ⟨fun folder hfolder => ?_, fun _ _ => trivial⟩, fun _ => trivial⟩
  subst hfolder
  have hne : name ≠ folder := fun h => huri (by rw [h])
  refine (Host.ensures_createSpace_founded s.host _ _ _ _).imp ?_
  rintro m h1 ⟨-, hfounded⟩
  obtain ⟨codes, hcodes⟩ := (hb.obeys.config n c (Or.inl hb.root) hc).kept
  rw [hcodes]
  refine (Host.ensures_updateConfig_obeys (hfounded.obeys hb.obeys) m codes _).imp ?_
  intro _ h2 hi
  rw [ensures_modify]
  have hholds : ∀ k, Holds { s with host := h2, folders := Value.insert folder m s.folders } k →
      s.Holds k ∨ k = m := by
    rintro k (hk | ⟨folder', hk⟩)
    · exact .inl (Or.inl hk)
    · rcases Value.mem_of_mem_insert hk with hk | hk
      · exact .inr (Prod.mk.inj hk).2
      · exact .inl (Or.inr ⟨folder', hk⟩)
  refine ⟨hb.root, rfl, ?_, fun k hk => ?_, hi.obeys.mono fun k hk => ?_, hb.idle⟩
  · show Value.lookup name (Value.insert folder m s.folders) = some n
    rw [Value.lookup_insert, if_neg hne]
    exact hb.folder
  · show (h2.configAt k).isSome = true
    rw [hi.isSome_configAt]
    by_cases hkm : k = m
    · obtain ⟨c', hc', -⟩ := hfounded.new
      rw [hkm, hc']
      rfl
    · rw [hfounded.old k hkm]
      exact hb.configured k ((hholds k hk).resolve_right hkm)
  · by_cases hkm : k = m
    · exact .inr hkm
    · exact .inl ⟨(hholds k hk).resolve_right hkm, hkm⟩

theorem ensures_addFolders_begun (hb : Begun name n s) (folders : Value) :
    Ensures (addFolders name folders) s (fun _ t => Begun name n t) fun _ _ => True := by
  rw [addFolders]
  split
  · simp only [ensures_bind, ensures_liftExcept]
    refine ⟨fun items _ => ?_, fun _ _ => trivial⟩
    refine (ensures_forIn (motive := fun _ t => Begun name n t) ?_ hb).imp (fun _ _ h => h)
    intro folder rest t ht
    rw [ensures_bind, ensures_liftExcept]
    refine ⟨fun uri _ => ?_, fun _ _ => trivial⟩
    split
    · rename_i huri
      exact (ensures_addFolder_begun ht huri).bind (fun _ _ h => ⟨rfl, h⟩) fun _ _ h => h
    · exact ⟨rfl, ht⟩
  · exact hb

theorem ensures_hook_start_begun (hb : Begun name n s) :
    Ensures (hook .start .null) s (fun _ t => Begun name n t) fun _ _ => True := by
  refine (ensures_hook_start s).mono ?_ fun _ _ _ => trivial
  rintro _ _ ⟨h, hsteps, rfl⟩
  have htouch :=
    ReflTransGen.mono (fun _ _ hstep => Host.Touch.amended (.consulted hstep)) _ _ hsteps
  exact hb.congr rfl rfl rfl rfl (Host.extends_of_touch htouch).2 (hb.obeys.of_touch htouch)

theorem ensures_watch_begun (hb : Begun name n s) (pid : Value) :
    Ensures (watch pid) s (fun _ t => Begun name n t) fun _ _ => True := by
  refine (ensures_watch s pid).mono ?_ fun _ _ _ => trivial
  rintro _ _ (rfl | rfl)
  · exact hb.congr rfl rfl rfl rfl (fun _ => rfl) hb.obeys
  · refine ⟨hb.root, hb.config, hb.folder, hb.configured, hb.obeys, ?_⟩
    rintro uri ⟨w, hw, hlint⟩
    rcases List.mem_append.1 hw with hw | hw
    · exact hb.idle uri ⟨w, hw, hlint⟩
    · rw [List.mem_singleton.1 hw] at hlint
      cases hlint

/-- **A server that has just started** obeys a client that has sent nothing, and no lint waits. -/
theorem ensures_start_begun (machine : Machine) (engines : Engines) (checksParent : Bool)
    (ps : Params) :
    Ensures (start ps) (fresh machine engines checksParent)
      (fun _ t => ∃ name n, Begun name n t) fun _ _ => True := by
  simp only [start, ensures_bind]
  refine (ensures_rootUriArg _ ps).mono ?_ fun _ _ _ => trivial
  rintro uri _ rfl
  show Ensures _ { fresh machine engines checksParent with rootUri := uri } _ _
  simp only [ensures_liftExcept, ensures_liftAct, Value.textOr_eq_ok_iff]
  refine ⟨fun name _ => ?_, fun _ _ => trivial⟩
  refine (Host.ensures_createSpace_founded _ _ _ _ _).imp ?_
  rintro n h1 ⟨-, hfounded⟩
  obtain ⟨c, hc, -, hobeys⟩ := hfounded.new
  obtain ⟨hconfig, hcached⟩ := hobeys rfl
  have hnone : (fresh machine engines checksParent).host.Numbered :=
    ⟨fun _ _ _ _ hd => absurd hd.symm (Option.some_ne_none _),
      fun _ _ hd => absurd hd.symm (Option.some_ne_none _)⟩
  have hnumbered := (hfounded.obeys (hnone.obeys (.object []))).toNumbered
  simp only [setRoot, ensures_modify]
  have hb : Begun name n { fresh machine engines checksParent with
      host := h1, rootUri := .str name, config := some n, root := some n
      folders := Value.insert name n [] } := by
    have hone : ∀ m, Holds { fresh machine engines checksParent with
        host := h1, rootUri := .str name, config := some n, root := some n
        folders := Value.insert name n [] } m → m = n := by
      rintro m (hm | ⟨folder, hm⟩)
      · exact (Option.some_inj.1 hm).symm
      · exact (Prod.mk.inj (List.mem_singleton.1 hm)).2
    refine ⟨rfl, rfl, Value.lookup_insert_self _ _ _, fun m hm => ?_,
      ⟨hnumbered, fun m d hm hd => ?_, fun m d hm hd e he _ => ?_⟩, ?_⟩
    · rw [hone m hm, hc]
      rfl
    · rw [hone m hm, hc] at hd
      rwa [← Option.some_inj.1 hd]
    · rw [hone m hm, hc] at hd
      rw [← Option.some_inj.1 hd]
      exact hcached e he
    · rintro uri ⟨w, hw, -⟩
      cases hw
  refine (ensures_addFolders_begun hb _).imp ?_
  intro _ s₂ hb₂
  have hb₃ : Begun name n { s₂ with extraMethods := [] } :=
    hb₂.congr rfl rfl rfl rfl (fun _ => rfl) hb₂.obeys
  refine (ensures_hook_start_begun hb₃).imp ?_
  intro _ s₄ hb₄
  rw [ensures_get]
  split
  · simp only [ensures_bind, ensures_set]
    have hb₅ : Begun name n { s₄ with isWatching := true } :=
      hb₄.congr rfl rfl rfl rfl (fun _ => rfl) hb₄.obeys
    exact (ensures_watch_begun hb₅ _).imp (fun _ _ h => ⟨name, n, h⟩)
  · exact ⟨name, n, hb₄⟩

end Session
end LangServer
