import LangServer.Proofs.Spaces
import LangServer.Server.Dispatch

/-!
# What requests about documents do

Opening, changing and closing a document, each described by what it does to the documents of the
host. A request that fails leaves the session as it was, except that a change may fail after
changes before it in the same request were applied; even then a document keeps its `origin`, which
is all of it that is settled when it is opened.

Every request finds its workspace anew by the URI.  A session is `Sound` when the numbers it keeps
are those of workspaces, so that what it finds is there.
-/

namespace LangServer

variable {uri : String} {n : Nat}

/-- What is settled about a document when it is made. -/
structure Origin where
  uri : String
  path : String
  searchPath : List String
  home : Nat

/-- What was settled about the document when it was made. -/
def Document.origin (d : Document) : Origin := ⟨d.uri, d.path, d.searchPath, d.home⟩

theorem Document.origin_of_change {fs : Files} {d d' : Document} {v : Value}
    (h : d.change fs v = .ok d') : d'.origin = d.origin := by
  rw [Document.change] at h
  cases htext : v.item "text" with
  | error f => simp [htext, bind, Except.bind] at h
  | ok text =>
    cases hrange : v.get "range" with
    | error f => simp [htext, hrange, bind, Except.bind] at h
    | ok range =>
      simp only [htext, hrange, bind, Except.bind, pure, Except.pure] at h
      split at h
      · rw [← Except.ok.inj h]
        rfl
      · split at h
        · simp at h
        · split at h
          · simp at h
          · split at h
            · simp at h
            · rw [← Except.ok.inj h]
              rfl

theorem Workspace.of_newDocument {m : Machine} {w : Workspace}
    {source : Content} {version : Value} {d : Document}
    (h : w.newDocument m n uri source version = .ok d) :
    d.source = source ∧ d.home = n ∧ w.sourceRoots m d.path = .ok d.searchPath := by
  rw [newDocument] at h
  cases hpath : m.pathOf uri with
  | error f => simp [hpath, bind, Except.bind] at h
  | ok path =>
    cases hroots : w.sourceRoots m path with
    | error f => simp [hpath, hroots, bind, Except.bind] at h
    | ok roots =>
      simp only [hpath, hroots, document, bind, Except.bind, pure, Except.pure] at h
      split at h
      · cases h
      · rw [← Except.ok.inj h]
        exact ⟨rfl, rfl, hroots⟩

/-! ## How parameters are read -/

theorem Value.textOr_eq_ok_iff {fault : Fault} {v : Value} {text : String} :
    v.textOr fault = .ok text ↔ v = .str text := by
  cases v <;> simp [Value.textOr]

theorem Value.textOr_eq_error_iff {fault f : Fault} {v : Value} :
    v.textOr fault = .error f ↔ f = fault ∧ ∀ text, v ≠ .str text := by
  cases v <;> simp [Value.textOr, eq_comm]

theorem Value.elements_ne_missingKey (v k : Value) : v.elements ≠ .error (.missingKey k) := by
  cases v <;> simp [Value.elements]

theorem Value.get_ne_missingKey (v k : Value) (key : String) :
    v.get key ≠ .error (.missingKey k) := by
  cases v <;> simp [Value.get, Value.getD, Value.get?, bind, Except.bind, pure, Except.pure]

/-! ## Hosts whose documents were revised -/

/-- The host has the same documents as before, up to their texts and versions. -/
structure Host.Revised (h h' : Host) : Prop extends h.SameRoots h' where
  origin : ∀ n uri,
    (h'.documentAt n uri).map Document.origin = (h.documentAt n uri).map Document.origin

theorem Host.Revised.refl (h : Host) : h.Revised h :=
  ⟨Host.SameRoots.refl h, fun _ _ => rfl⟩

theorem Host.Revised.put {h h' : Host} (hr : h.Revised h')
    {d d' : Document} (hd : h'.documentAt n uri = some d) (ho : d'.origin = d.origin) :
    h.Revised (h'.put n uri d') := by
  refine ⟨hr.toSameRoots.trans (Host.sameRoots_put h' n uri d'), fun m v => ?_⟩
  rw [Host.documentAt_put (Host.lt_of_documentAt hd), ← hr.origin m v]
  split
  · rename_i hmv
    rw [hmv.1, hmv.2, hd, Option.map_some, Option.map_some, ho]
  · rfl

theorem Host.Revised.exists_document {h h' : Host} (hr : h.Revised h')
    {d : Document} (hd : h.documentAt n uri = some d) : ∃ d', h'.documentAt n uri = some d' := by
  have ho := hr.origin n uri
  rw [hd, Option.map_some] at ho
  obtain ⟨d', hd', -⟩ := Option.map_eq_some_iff.1 ho
  exact ⟨d', hd'⟩

/-- One change revises a host further, or leaves it as it is. Of a document that is open, a key can
be missing only in the change. -/
theorem Host.Revised.ensures_changeDocument {h h' : Host} (hr : h.Revised h') (n : Nat)
    (uri : String) (change version : Value) :
    Ensures (Host.changeDocument n uri change version) h' (fun _ h'' => h.Revised h'')
      fun f h'' => h'' = h' ∧ ∀ d k, h.documentAt n uri = some d → f = .missingKey k →
        ∃ d', Document.change h.machine.files d' change = .error f := by
  rw [Host.ensures_changeDocument]
  refine ⟨fun d hd => ⟨fun d' hd' => ?_, fun f hf => ?_⟩, fun _ hnone => ?_, fun _ => ?_⟩
  · have ho : d'.origin = d.origin := Document.origin_of_change hd'
    exact hr.put hd ho
  · refine ⟨rfl, fun _ _ _ _ => ⟨d, ?_⟩⟩
    rw [← hr.machine, hf]
  · refine ⟨rfl, fun d k hd _ => ?_⟩
    obtain ⟨d', hd'⟩ := hr.exists_document hd
    cases hnone.symm.trans hd'
  · exact ⟨rfl, fun _ _ _ hk => Fault.noConfusion hk⟩

namespace Session

variable {s : Session}

/-! ## Sound sessions -/

/-- The session has the workspace, as its root or for a folder. -/
def Holds (s : Session) (n : Nat) : Prop := s.root = some n ∨ ∃ folder, (folder, n) ∈ s.folders

/-- The session has workspaces that are there, and has a root if it has any folder. The
configuration in force is that of the root. -/
structure Sound (s : Session) : Prop where
  lt_of_holds : ∀ n, s.Holds n → n < s.host.spaces.length
  config_eq : s.config = s.root
  folders_eq_nil : s.root = none → s.folders = []

/-- The workspaces that the session has are there. -/
def Placed (s : Session) : Prop := ∀ n, s.Holds n → n < s.host.spaces.length

theorem Sound.placed (hs : s.Sound) : s.Placed := hs.lt_of_holds

theorem holds_of_spaceOf? (h : s.spaceOf? uri = some n) : s.Holds n := by
  rw [spaceOf?] at h
  cases hnear : Workspace.nearest? uri (s.folders.map (·.1)) with
  | none =>
    rw [hnear] at h
    exact .inl h
  | some folder =>
    rw [hnear] at h
    cases hfolder : Value.lookup folder s.folders with
    | none =>
      simp only [hfolder, Option.orElse_none] at h
      exact .inl h
    | some m =>
      simp only [hfolder, Option.orElse_some, Option.some_inj] at h
      exact .inr ⟨folder, h ▸ Value.mem_of_lookup hfolder⟩

theorem Sound.spaceOf?_lt (hs : s.Sound) (h : s.spaceOf? uri = some n) : n < s.host.spaces.length :=
  hs.lt_of_holds n (holds_of_spaceOf? h)

theorem Sound.config_ne_none (hs : s.Sound) (h : s.spaceOf? uri = some n) : s.config ≠ none := by
  rw [hs.config_eq]
  intro hroot
  rcases holds_of_spaceOf? h with h | ⟨folder, h⟩
  · rw [hroot] at h
    cases h
  · rw [hs.folders_eq_nil hroot] at h
    cases h

theorem Sound.of_length_le (hs : s.Sound) {host : Host} {timers : Timers Errand}
    (h : s.host.spaces.length ≤ host.spaces.length) :
    ({ s with host, timers } : Session).Sound :=
  ⟨fun n hn => Nat.lt_of_lt_of_le (hs.lt_of_holds n hn) h, hs.config_eq, hs.folders_eq_nil⟩

theorem exists_spaceOf? (hroot : s.root ≠ none) (uri : String) : ∃ n, s.spaceOf? uri = some n := by
  obtain ⟨r, hr⟩ := Option.ne_none_iff_exists'.1 hroot
  rw [spaceOf?, hr]
  cases Workspace.nearest? uri (s.folders.map (·.1)) with
  | none => exact ⟨r, rfl⟩
  | some folder =>
    cases hfolder : Value.lookup folder s.folders with
    | none => exact ⟨r, by simp [hfolder]⟩
    | some n => exact ⟨n, by simp [hfolder]⟩

/-! ## Requests -/

/-- The URI of the document that a request is about. -/
def documentUri? (ps : Params) : Option String :=
  match (arg ps "textDocument").item "uri" with
  | .ok (.str uri) => some uri
  | _ => none

theorem documentUri?_eq_some_iff {ps : Params} :
    documentUri? ps = some uri ↔ (arg ps "textDocument").item "uri" = .ok (.str uri) := by
  rw [documentUri?]
  split <;> simp_all

/-- The parameters with which an editor opens a document. -/
def opening (uri text : String) : Params :=
  [("textDocument", .object [("uri", .str uri), ("text", .str text)])]

/-- The parameters with which an editor closes a document. -/
def closing (uri : String) : Params := [("textDocument", .object [("uri", .str uri)])]

/-- Finding the workspace for a URI changes nothing, and fails only for what is no text. -/
theorem ensures_spaceFor (s : Session) (uri : Value) : Ensures (spaceFor uri) s
      (fun space s' => s' = s ∧ uri.isHashable = true ∧ ∀ u, uri = .str u → space = s.spaceOf? u)
      fun _ s' => s' = s ∧ ∀ u, uri ≠ .str u := by
  cases uri with
  | str uri =>
    refine ⟨rfl, rfl, fun u hu => ?_⟩
    rw [Value.str.inj hu]
  | null => exact ⟨rfl, rfl, fun _ hu => Value.noConfusion hu⟩
  | _ => exact ⟨rfl, fun _ hu => Value.noConfusion hu⟩

/-- The session with a lint of a document that waits in place of the one that waited before. -/
def asking (s : Session) (uri : Value) (isSaved : Bool) : Session :=
  { s with timers := s.timers.debounce lintPause (Errand.isLintOf uri) (.lint uri isSaved) }

theorem ensures_requestLint_asking (s : Session) {uri : Value} (huri : uri.isHashable = true)
    (isSaved : Bool) :
    Ensures (requestLint uri isSaved) s (fun _ s' => s' = s.asking uri isSaved)
      fun _ _ => False := by
  rw [requestLint, huri]
  rfl

theorem ensures_requestLint (s : Session) {uri : Value} (huri : uri.isHashable = true)
    (isSaved : Bool) :
    Ensures (requestLint uri isSaved) s (fun _ s' => ∃ timers, s' = { s with timers })
      fun _ _ => False :=
  (ensures_requestLint_asking s huri isSaved).imp (fun _ _ h => ⟨_, h⟩)

theorem ensures_idleHook {d : Document}
    (hn : s.spaceOf? uri = some n) (hd : s.host.documentAt n uri = some d) :
    Ensures (idleHook (.str uri)) s (fun _ s' => s' = s) fun _ _ => s.config = none := by
  obtain ⟨w, hw, -⟩ := Option.bind_eq_some_iff.1 hd
  simp only [idleHook, settingFor, spaceFor, ensures_bind, ensures_get, ensures_pure, hn]
  split
  · simp only [ensures_bind, ensures_get, ensures_pure, ensures_require_some]
    rw [ensures_require]
    exact ⟨fun _ _ => rfl, fun h => h⟩
  · simp only [ensures_bind, ensures_get, ensures_pure, ensures_require_some, ensures_liftAct,
      Host.ensures_document hd]
    rw [ensures_require]
    exact ⟨fun _ _ => (Host.ensures_space_of_some hw _).2 rfl, fun h => h⟩

theorem ensures_didOpen_asking (s : Session) (ps : Params) : Ensures (didOpen ps) s
      (fun _ s' => ∃ uri n w text version d,
        documentUri? ps = some uri ∧ s.spaceOf? uri = some n ∧ s.host.spaces[n]? = some w ∧
        (arg ps "textDocument").item "text" = .ok text ∧
        w.newDocument s.host.machine n uri (.ofValue text) version = .ok d ∧
        s' = asking { s with host := s.host.put n uri d } (.str uri) true)
      fun _ s' => s' = s ∨ s.config = none ∧ ∃ uri n, s.spaceOf? uri = some n := by
  rw [didOpen, uriArg, ensures_bind, ensures_liftExcept]
  refine ⟨fun v hv => ?_, fun _ _ => .inl rfl⟩
  refine (ensures_spaceFor s v).bind ?_ fun _ _ h => .inl h.1
  rintro space s ⟨rfl, -, hspace⟩
  simp only [ensures_bind, ensures_require, ensures_liftExcept, ensures_liftAct, ensures_pure,
    Host.ensures_openDocument, Value.textOr_eq_ok_iff]
  refine ⟨fun n hn => ⟨fun uri huri => ⟨fun text htext => ⟨fun version _ => ⟨fun w hw =>
    ⟨fun d hd => ?_, fun _ _ => .inl trivial⟩, fun _ => .inl trivial⟩,
    fun _ _ => .inl trivial⟩, fun _ _ => .inl trivial⟩, fun _ _ => .inl trivial⟩,
    fun _ => .inl trivial⟩
  subst huri
  have hn : s.spaceOf? uri = some n := (hspace uri rfl).symm.trans hn
  obtain ⟨hlt, -⟩ := List.getElem?_eq_some_iff.1 hw
  have hput : (s.host.put n uri d).documentAt n uri = some d := by
    rw [Host.documentAt_put hlt, if_pos ⟨rfl, rfl⟩]
  have hidle : Ensures (idleHook (.str uri)) { s with host := s.host.put n uri d }
      (fun _ s' => s' = { s with host := s.host.put n uri d }) fun _ _ => s.config = none :=
    ensures_idleHook hn hput
  refine hidle.mono ?_ fun _ _ h => .inr ⟨h, uri, n, hn⟩
  rintro _ _ rfl
  refine (ensures_requestLint_asking _ rfl true).mono ?_ fun _ _ h => h.elim
  rintro _ _ rfl
  have hdoc : documentUri? ps = some uri := documentUri?_eq_some_iff.2 hv
  exact ⟨uri, n, w, text, version, d, hdoc, hn, hw, htext, hd, rfl⟩

/-- **Opening a document** puts a new one into the workspace of its URI.  If it fails it does
nothing, except in a session that finds workspaces but has no configuration in force. -/
theorem ensures_didOpen (s : Session) (ps : Params) : Ensures (didOpen ps) s
      (fun _ s' => ∃ uri n w text version d timers,
        documentUri? ps = some uri ∧ s.spaceOf? uri = some n ∧ s.host.spaces[n]? = some w ∧
        (arg ps "textDocument").item "text" = .ok text ∧
        w.newDocument s.host.machine n uri (.ofValue text) version = .ok d ∧
        s' = { s with host := s.host.put n uri d, timers })
      fun _ s' => s' = s ∨ s.config = none ∧ ∃ uri n, s.spaceOf? uri = some n := by
  refine (ensures_didOpen_asking s ps).imp ?_
  rintro _ s' ⟨uri, n, w, text, version, d, hdoc, hn, hw, htext, hd, hs'⟩
  exact ⟨uri, n, w, text, version, d, s'.timers, hdoc, hn, hw, htext, hd, by rw [hs']; rfl⟩

/-- **Closing a document** takes it out of the workspace of its URI.  It fails only where that
workspace has no such document, and then does nothing. -/
theorem ensures_didClose (hs : s.Sound) (ps : Params) : Ensures (didClose ps) s
      (fun _ s' => ∃ uri n d, documentUri? ps = some uri ∧ s.spaceOf? uri = some n ∧
        s.host.documentAt n uri = some d ∧ s' = { s with host := s.host.remove n uri })
      fun _ s' => s' = s ∧ ∀ uri n, documentUri? ps = some uri → s.spaceOf? uri = some n →
        s.host.documentAt n uri = none := by
  rw [didClose, uriArg, ensures_bind, ensures_liftExcept]
  refine ⟨fun v hv => ?_, fun f hf => ⟨rfl, fun uri n hdoc _ => ?_⟩⟩
  · have hstr : ∀ uri, documentUri? ps = some uri → v = .str uri := fun uri hdoc =>
      Except.ok.inj (hv.symm.trans (documentUri?_eq_some_iff.1 hdoc))
    refine (ensures_spaceFor s v).bind ?_ ?_
    · rintro space s ⟨rfl, -, hspace⟩
      simp only [ensures_bind, ensures_require, ensures_liftExcept, ensures_liftAct, ensures_pure,
        Host.ensures_closeDocument, Value.textOr_eq_ok_iff, Value.textOr_eq_error_iff]
      refine ⟨fun n hn => ⟨fun uri huri => ?_, fun f hf => ⟨trivial, fun uri _ hdoc _ => ?_⟩⟩,
        fun hnone => ⟨trivial, fun uri n hdoc hn => ?_⟩⟩
      · subst huri
        have hn : s.spaceOf? uri = some n := (hspace uri rfl).symm.trans hn
        refine ⟨fun d hd => ⟨uri, n, d, documentUri?_eq_some_iff.2 hv, hn, hd, rfl⟩,
          fun _ hnone => ⟨trivial, fun u m hu hm => ?_⟩,
          fun hle => absurd (hs.spaceOf?_lt hn) (Nat.not_lt.2 hle)⟩
        obtain rfl : uri = u := Value.str.inj (hstr u hu)
        obtain rfl : n = m := Option.some_inj.1 (hn.symm.trans hm)
        exact hnone
      · exact absurd (hstr uri hdoc) (hf.2 uri)
      · rw [← hspace uri (hstr uri hdoc), hnone] at hn
        cases hn
    · rintro _ _ ⟨rfl, hne⟩
      exact ⟨rfl, fun uri _ hdoc _ => absurd (hstr uri hdoc) (hne uri)⟩
  · cases (documentUri?_eq_some_iff.1 hdoc).symm.trans hf

/-- **Changing a document** leaves all that was settled when documents were opened, whether it
succeeds or fails half-way. If the document is open, a key can be missing only in one of the
changes themselves. -/
theorem ensures_didChange (s : Session) (ps : Params) : Ensures (didChange ps) s
      (fun _ s' => ∃ host timers, s' = { s with host, timers } ∧ s.host.Revised host)
      fun f s' => (∃ host timers, s' = { s with host, timers } ∧ s.host.Revised host) ∧
        ∀ uri n d k, documentUri? ps = some uri → s.spaceOf? uri = some n →
          s.host.documentAt n uri = some d → f = .missingKey k →
          ∃ changes, (arg ps "contentChanges").elements = .ok changes ∧
            ∃ change ∈ changes, ∃ d',
              Document.change s.host.machine.files d' change = .error f := by
  have hsame : ∃ host timers, s = { s with host, timers } ∧ s.host.Revised host :=
    ⟨_, _, rfl, Host.Revised.refl _⟩
  rw [didChange, uriArg, ensures_bind, ensures_liftExcept]
  refine ⟨fun v hv => ?_, fun f hf => ⟨hsame, fun uri n d k hdoc => ?_⟩⟩
  · have hstr : ∀ uri, documentUri? ps = some uri → v = .str uri := fun uri hdoc =>
      Except.ok.inj (hv.symm.trans (documentUri?_eq_some_iff.1 hdoc))
    refine (ensures_spaceFor s v).bind ?_ ?_
    · rintro space s ⟨rfl, hhash, hspace⟩
      rw [ensures_bind, ensures_liftExcept]
      refine ⟨fun changes hchanges => ?_, fun f hf => ⟨hsame, fun _ _ _ k _ _ _ hk => ?_⟩⟩
      · rw [ensures_bind]
        -- the changes that are left are among all changes, and the host was only revised so far
        refine (ensures_forIn (motive := fun rest t => (∀ change ∈ rest, change ∈ changes) ∧
          ∃ host, t = { s with host } ∧ s.host.Revised host) ?_
          ⟨fun _ h => h, s.host, rfl, Host.Revised.refl _⟩).imp ?_
        · rintro change rest _ ⟨hmem, host, rfl, hrev⟩
          have hsofar : ∃ host' timers,
              ({ s with host } : Session) = { s with host := host', timers } ∧
                s.host.Revised host' := ⟨host, s.timers, rfl, hrev⟩
          simp only [ensures_bind, ensures_pure, ensures_require, ensures_liftExcept,
            ensures_liftAct, Value.textOr_eq_ok_iff, Value.textOr_eq_error_iff]
          refine ⟨fun n hn => ⟨fun uri huri => ⟨fun version _ => ?_,
            fun f hf => ⟨hsofar, fun _ _ _ k _ _ _ hk => ?_⟩⟩,
            fun f hf => ⟨hsofar, fun uri _ _ _ hdoc => absurd (hstr uri hdoc) (hf.2 uri)⟩⟩,
            fun _ => ⟨hsofar, fun _ _ _ _ _ _ _ hk => Fault.noConfusion hk⟩⟩
          · refine (hrev.ensures_changeDocument n uri change version).mono ?_ ?_
            · exact fun _ host' hrev' =>
                ⟨trivial, fun c hc => hmem c (List.mem_cons_of_mem _ hc), host', rfl, hrev'⟩
            · rintro f _ ⟨rfl, hkey⟩
              refine ⟨hsofar, fun u m d k hu hm hd hk => ?_⟩
              obtain rfl : uri = u := Value.str.inj (huri.symm.trans (hstr u hu))
              obtain rfl : n = m := Option.some_inj.1 (hn.symm.trans ((hspace uri huri).trans hm))
              exact ⟨changes, hchanges, change, hmem change List.mem_cons_self, hkey d k hd hk⟩
          · exact absurd (hk ▸ hf) (Value.get_ne_missingKey _ _ _)
        · rintro _ _ ⟨-, host, rfl, hrev⟩
          refine (ensures_requestLint _ hhash false).bind ?_ fun _ _ h => h.elim
          rintro _ _ ⟨timers, rfl⟩
          exact ⟨host, timers, rfl, hrev⟩
      · exact absurd (hk ▸ hf) (Value.elements_ne_missingKey _ _)
    · rintro _ _ ⟨rfl, hne⟩
      exact ⟨hsame, fun uri _ _ _ hdoc => absurd (hstr uri hdoc) (hne uri)⟩
  · rw [documentUri?_eq_some_iff.1 hdoc] at hf
    cases hf

end Session
end LangServer
