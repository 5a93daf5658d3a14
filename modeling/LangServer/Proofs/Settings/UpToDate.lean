import LangServer.Proofs.Settings.Keeping
import LangServer.Proofs.Uri.Paths

/-!
# Settings are never out of date

The files of a project that hold settings may change at any time, and the server does not look. It
is told by a message, knows settings files by the ends of their URIs, and then empties the cache of
all configurations. Since the URI of a file ends in the name of the file
(`Settings.endsInAny_of_isProjectFile`), no such message is missed.

So in a run where there is a message about every settings file that changes before settings are
asked for again, every answer is what would be computed afresh (`Watch.settings_never_out_of_date`).
-/

namespace LangServer

open Settings

/-! ## Emptying the cache -/

namespace Session

variable {s : Session}

/-- **When settings files change, the cache is emptied**, whatever else comes of the message. Where
no configuration is in force, there is no workspace whose answers could be wrong. -/
theorem coherent_of_didChangeWatchedFiles {ps : Params} {sources : List String}
    (hchanges : (do sortChanges (← (orElse (arg ps "changes") (.list [])).elements)) =
      Except.ok (sources, true)) (ho : s.host.Ordered) (hs : s.InForce) :
    Ensures (didChangeWatchedFiles ps) s (fun _ t => t.host.Coherent)
      fun _ t => t.host.Coherent := by
  rw [didChangeWatchedFiles, hchanges, ensures_bind, ensures_liftExcept_ok]
  dsimp only
  rw [if_pos rfl, ensures_bind, ensures_get, ensures_bind, ensures_require]
  refine ⟨fun _ _ => ?_, fun hnone => ho.coherent fun n c hc => ?_⟩
  · have hordered := (keeps_forget s).host.ordered ho
    have hcoherent : ({ s.host with cache := {} } : Host).Coherent :=
      hordered.coherent fun _ _ _ e he => absurd he List.not_mem_nil
    rw [ensures_bind, ensures_modify]
    exact (moves_requestLints_all_of moves_requestLint_keeps sources _).mono
      (fun _ _ hsteps => (keeps_of_steps hsteps).host.coherent hordered hcoherent)
      fun _ _ hsteps => (keeps_of_steps hsteps).host.coherent hordered hcoherent
  · rw [Host.configAt, hs hnone] at hc
    cases hc

end Session

/-! ## Messages about files -/

/-- Does the path end in the name of a file that projects keep their options in? -/
def Settings.isProjectFile (path : String) : Bool :=
  [Source.flake8, Source.pycodestyle].any fun source =>
    source.projectFiles.any fun name => name.toList.isSuffixOf path.toList

theorem Settings.endsInAny_of_isProjectFile {m : Machine} {path uri : String}
    (hpath : isProjectFile path = true) (huri : m.uriOf path = .ok uri) :
    Session.endsInAny Session.sourceEndings uri = false ∧
      Session.endsInAny Session.settingsEndings uri = true := by
  have hnames : ∀ source ∈ [Source.flake8, Source.pycodestyle], ∀ name ∈ source.projectFiles,
      Uri.IsPlainName name.toList ∧ name ∈ Session.settingsEndings ∧
        ∀ ending ∈ Session.sourceEndings,
          ¬ ending.toList <:+ name.toList ∧ ¬ name.toList <:+ ending.toList := by
    decide
  obtain ⟨source, hsource, hany⟩ := List.any_eq_true.1 hpath
  obtain ⟨name, hname, hsuffix⟩ := List.any_eq_true.1 hany
  obtain ⟨hplain, hsettings, hothers⟩ := hnames source hsource name hname
  obtain ⟨chars, hchars, heq⟩ := exists_of_bind_eq_ok huri
  have hend : name.toList <:+ uri.toList := by
    rw [← Except.ok.inj heq, String.toList_ofList]
    exact hplain.suffix_ofPath (List.isSuffixOf_iff_suffix.1 hsuffix) hchars
  refine ⟨List.any_eq_false.2 fun ending hending hin => ?_,
    List.any_eq_true.2 ⟨name, hsettings, List.isSuffixOf_iff_suffix.2 hend⟩⟩
  obtain ⟨hnot, hnot'⟩ := hothers ending hending
  exact (List.suffix_or_suffix_of_suffix (List.isSuffixOf_iff_suffix.1 hin) hend).elim hnot hnot'

namespace Session

/-- The URI of a file that has changed. -/
def changedUri? (change : Value) : Option String :=
  match change.path? ["uri"] with
  | some (.str uri) => some uri
  | _ => none

/-- The URIs of the files that a message tells about, if it is a list of changes with URIs. -/
def changedUris? (ps : Params) : Option (List String) :=
  match arg ps "changes" with
  | .list changes => changes.mapM changedUri?
  | _ => none

theorem item_of_changedUri? {change : Value} {uri : String} (h : changedUri? change = some uri) :
    change.item "uri" = .ok (.str uri) := by
  rw [changedUri?] at h
  split at h
  · rename_i hpath
    obtain rfl := Option.some_inj.1 h
    cases change with
    | object members =>
      obtain ⟨v, hv, hpath⟩ := Option.bind_eq_some_iff.1 hpath
      obtain rfl := Option.some_inj.1 hpath
      rw [Value.item, hv]
    | _ => cases hpath
  · cases h

theorem sortChanges_of_mapM {changes : List Value} {uris : List String}
    (h : changes.mapM changedUri? = some uris) :
    ∃ sources, sortChanges changes = .ok (sources, uris.any fun uri =>
      !endsInAny sourceEndings uri && endsInAny settingsEndings uri) := by
  induction changes generalizing uris with
  | nil =>
    obtain rfl := Option.some_inj.1 h
    exact ⟨[], rfl⟩
  | cons change rest ih =>
    rw [List.mapM_cons] at h
    obtain ⟨uri, huri, h⟩ := Option.bind_eq_some_iff.1 h
    obtain ⟨uris', huris, h⟩ := Option.bind_eq_some_iff.1 h
    obtain rfl := Option.some_inj.1 h
    obtain ⟨sources, hsources⟩ := ih huris
    rw [sortChanges, item_of_changedUri? huri]
    simp only [bind, Except.bind, Value.text, Value.textOr, hsources, pure, Except.pure,
      List.any_cons]
    cases endsInAny sourceEndings uri with
    | true => exact ⟨uri :: sources, rfl⟩
    | false =>
      refine ⟨sources, ?_⟩
      rw [Bool.or_comm]
      rfl

theorem sortChanges_of_mem {ps : Params} {uris : List String} {m : Machine} {path uri : String}
    (huris : changedUris? ps = some uris) (hmem : uri ∈ uris)
    (hpath : isProjectFile path = true) (huri : m.uriOf path = .ok uri) :
    ∃ sources, (do sortChanges (← (orElse (arg ps "changes") (.list [])).elements)) =
      Except.ok (sources, true) := by
  rw [changedUris?] at huris
  split at huris
  · rename_i changes hchanges
    obtain ⟨sources, hsources⟩ := sortChanges_of_mapM huris
    obtain ⟨hnot, hin⟩ := endsInAny_of_isProjectFile hpath huri
    have hany : uris.any (fun uri =>
        !endsInAny sourceEndings uri && endsInAny settingsEndings uri) = true :=
      List.any_eq_true.2 ⟨uri, hmem, by rw [hnot, hin]; rfl⟩
    have helements : (orElse (arg ps "changes") (.list [])).elements = .ok changes := by
      rw [hchanges]
      cases changes <;> rfl
    refine ⟨sources, ?_⟩
    rw [helements, ← hany]
    exact hsources
  · cases huris

end Session

/-! ## Runs -/

/-- What happens to a server and its settings. -/
inductive Turn where
  | start (ps : Session.Params)
  | didChangeWorkspaceFolders (ps : Session.Params)
  | didChangeConfiguration (ps : Session.Params)
  | didChangeWatchedFiles (ps : Session.Params)
  /-- The configuration of a workspace is asked for settings. -/
  | settings (n : Nat) (query : Query)
  /-- The configuration of a workspace is asked for the settings of a plugin. -/
  | pluginSettings (n : Nat) (plugin : String) (path : Value)
  /-- The configuration of a workspace gets settings of the client. -/
  | update (n : Nat) (client : Value)
  /-- A file is written. -/
  | write (path text : String)
  /-- A file is deleted. -/
  | remove (path : String)

/-- The files are changed. -/
def Session.onFiles (f : Files → Files) : Serve Value := do
  modify fun s => { s with host := { s.host with
    machine := { s.host.machine with files := f s.host.machine.files } } }
  return .null

/-- What the server does, or what is done to it. -/
def Turn.act : Turn → Serve Value
  | start ps => Session.handle ps .start
  | didChangeWorkspaceFolders ps => Session.handle ps .didChangeWorkspaceFolders
  | didChangeConfiguration ps => Session.handle ps .didChangeConfiguration
  | didChangeWatchedFiles ps => Session.handle ps .didChangeWatchedFiles
  | settings n query => Host.settings n query
  | pluginSettings n plugin path => Host.pluginSettings n plugin path
  | update n client => do
    Host.updateConfig n client (← Host.newRevision)
    return .null
  | write path text => Session.onFiles (·.write path text)
  | remove path => Session.onFiles (·.remove path)

/-- A session, and the files that have changed without a message about them. -/
structure Watch where
  session : Session
  unannounced : List String := []

namespace Watch

/-- Does a message tell about the file with a path? -/
def announces (w : Watch) (ps : Session.Params) (path : String) : Bool :=
  match Session.changedUris? ps, w.session.host.machine.uriOf path with
  | some uris, .ok uri => uris.contains uri
  | _, _ => false

theorem of_announces {w : Watch} {ps : Session.Params} {path : String}
    (h : w.announces ps path = true) : ∃ uris uri, Session.changedUris? ps = some uris ∧
      w.session.host.machine.uriOf path = .ok uri ∧ uri ∈ uris := by
  rw [announces] at h
  split at h
  · rename_i uris uri huris huri
    exact ⟨uris, uri, huris, huri, List.contains_iff_mem.1 h⟩
  · cases h

/-- The session after a turn. -/
def after (w : Watch) (e : Turn) : Session :=
  match e.act w.session with
  | .ok _ s | .error _ s => s

/-- What a turn answers. -/
def answer (w : Watch) (e : Turn) : Except Fault Value :=
  match e.act w.session with
  | .ok v _ => .ok v
  | .error f _ => .error f

def step (w : Watch) (e : Turn) : Watch where
  session := w.after e
  unannounced :=
    match e with
    | .write path _ | .remove path => path :: w.unannounced
    | .didChangeWatchedFiles ps => w.unannounced.filter fun path => !w.announces ps path
    | _ => w.unannounced

/-- The files that change are those that projects keep their options in, and there is a message
about each of them before settings are asked for. -/
def Allowed (w : Watch) : Turn → Prop
  | .settings _ _ | .pluginSettings _ _ _ => w.unannounced = []
  | .write path _ | .remove path => isProjectFile path = true
  | _ => True

instance (w : Watch) : (e : Turn) → Decidable (w.Allowed e)
  | .settings _ _ | .pluginSettings _ _ _ => inferInstanceAs (Decidable (w.unannounced = []))
  | .write path _ | .remove path => inferInstanceAs (Decidable (isProjectFile path = true))
  | .start _ | .didChangeWorkspaceFolders _ | .didChangeConfiguration _ | .didChangeWatchedFiles _
  | .update _ _ => inferInstanceAs (Decidable True)

/-- An answer is what would be computed afresh. -/
def UpToDate (w : Watch) (e : Turn) : Prop :=
  match e with
  | .settings n query => w.answer e = w.session.host.computed n query
  | .pluginSettings n plugin path => w.answer e = w.session.host.settingsOf n plugin path
  | _ => True

/-- What is known of a session along a run. -/
structure Tracked (w : Watch) : Prop where
  ordered : w.session.host.Ordered
  inForce : w.session.InForce
  isProjectFile : ∀ path ∈ w.unannounced, isProjectFile path = true
  coherent : w.unannounced = [] → w.session.host.Coherent

theorem after_of_ensures {w : Watch} {e : Turn} {P : Session → Prop}
    (h : Ensures e.act w.session (fun _ t => P t) fun _ t => P t) : P (w.after e) := by
  rw [after]
  cases hx : e.act w.session with
  | ok v t => exact h.ok hx
  | error f t => exact h.error hx

theorem keeps_after {w : Watch} {e : Turn} (hmoves : Moves Session.Keeps e.act) :
    w.session.Keeps (w.after e) :=
  after_of_ensures ((hmoves w.session).mono (fun _ _ => Session.keeps_of_steps) fun _ _ =>
    Session.keeps_of_steps)

theorem answer_of_ensures {w : Watch} {e : Turn} {result : Except Fault Value}
    (h : Ensures e.act w.session (fun v _ => result = .ok v) fun f _ => result = .error f) :
    w.answer e = result := by
  rw [answer]
  cases hx : e.act w.session with
  | ok v t => exact (h.ok hx).symm
  | error f t => exact (h.error hx).symm

namespace Tracked

variable {w : Watch}

theorem fresh (machine : Machine) (engines : Engines) (checksParent : Bool) :
    Tracked { session := .fresh machine engines checksParent } := by
  have hordered : (Session.fresh machine engines checksParent).host.Ordered := by
    refine ⟨⟨fun m n c c' hc => ?_, fun n c hc => ?_⟩, fun e he => absurd he List.not_mem_nil⟩
    · cases hc
    · cases hc
  refine ⟨hordered, fun _ => rfl, fun path hpath => absurd hpath List.not_mem_nil, fun _ => ?_⟩
  exact hordered.coherent fun _ _ _ e he => absurd he List.not_mem_nil

/-- What keeps the cache right keeps the invariant. -/
theorem of_moves (ht : w.Tracked) {e : Turn} (hmoves : Moves Session.Keeps e.act)
    (hsame : (w.step e).unannounced = w.unannounced) : (w.step e).Tracked := by
  have hkeeps := keeps_after (w := w) hmoves
  refine ⟨hkeeps.host.ordered ht.ordered, hkeeps.inForce ht.inForce, ?_, ?_⟩
  · rw [hsame]
    exact ht.isProjectFile
  · rw [hsame]
    exact fun hnil => hkeeps.host.coherent ht.ordered (ht.coherent hnil)

theorem didChangeWatchedFiles (ht : w.Tracked) (ps : Session.Params) :
    (w.step (.didChangeWatchedFiles ps)).Tracked := by
  have hmoves := Session.moves_didChangeWatchedFiles ps
  by_cases hany : w.unannounced.any (w.announces ps) = true
  · obtain ⟨path, hpath, hannounces⟩ := List.any_eq_true.1 hany
    obtain ⟨uris, uri, huris, huri, hmem⟩ := of_announces hannounces
    obtain ⟨sources, hsources⟩ :=
      Session.sortChanges_of_mem huris hmem (ht.isProjectFile path hpath) huri
    have hkeeps := keeps_after (w := w) (e := .didChangeWatchedFiles ps) hmoves
    have hcoherent : (w.after (.didChangeWatchedFiles ps)).host.Coherent :=
      after_of_ensures (w := w) (e := .didChangeWatchedFiles ps) (P := fun s => s.host.Coherent)
        (Session.coherent_of_didChangeWatchedFiles hsources ht.ordered ht.inForce)
    exact ⟨hkeeps.host.ordered ht.ordered, hkeeps.inForce ht.inForce,
      fun path hpath => ht.isProjectFile path (List.mem_filter.1 hpath).1, fun _ => hcoherent⟩
  · refine ht.of_moves hmoves (List.filter_eq_self.2 fun path hpath => ?_)
    have hnot := List.any_eq_false.1 (Bool.eq_false_iff.2 hany) path hpath
    simpa using hnot

theorem onFiles (ht : w.Tracked) {e : Turn} {path : String} {f : Files → Files}
    (hact : e.act = Session.onFiles f) (hpath : Settings.isProjectFile path = true)
    (hmore : (w.step e).unannounced = path :: w.unannounced) : (w.step e).Tracked := by
  have hafter : (w.step e).session = { w.session with host := { w.session.host with
      machine := { w.session.host.machine with files := f w.session.host.machine.files } } } := by
    show w.after e = _
    rw [after, hact]
    rfl
  refine ⟨?_, ?_, ?_, ?_⟩
  · rw [hafter]
    exact ⟨⟨ht.ordered.distinct, ht.ordered.lt⟩, ht.ordered.owner_lt⟩
  · rw [hafter]
    exact ht.inForce
  · rw [hmore]
    exact List.forall_mem_cons.2 ⟨hpath, ht.isProjectFile⟩
  · rw [hmore]
    exact fun hnil => absurd hnil (List.cons_ne_nil _ _)

/-- **Every turn keeps the invariant.** -/
theorem step (ht : w.Tracked) {e : Turn} (hallowed : w.Allowed e) : (w.step e).Tracked := by
  cases e with
  | start ps => exact ht.of_moves (Session.moves_start ps) rfl
  | didChangeWorkspaceFolders ps =>
    exact ht.of_moves (Session.moves_didChangeWorkspaceFolders ps) rfl
  | didChangeConfiguration ps => exact ht.of_moves (Session.moves_didChangeConfiguration ps) rfl
  | didChangeWatchedFiles ps => exact ht.didChangeWatchedFiles ps
  | settings n query =>
    exact ht.of_moves (Session.moves_liftAct (Host.moves_works (Host.moves_settings n query))) rfl
  | pluginSettings n plugin path =>
    exact ht.of_moves
      (Session.moves_liftAct (Host.moves_works (Host.moves_pluginSettings n plugin path))) rfl
  | update n client =>
    refine ht.of_moves ((Session.moves_liftAct Host.moves_newRevision).bind fun revision => ?_) rfl
    exact (Session.moves_liftAct (Host.moves_updateConfig_of Host.Updated.works n client
      revision)).bind fun _ => Moves.pure _
  | write path text => exact ht.onFiles (f := (·.write path text)) rfl hallowed rfl
  | remove path => exact ht.onFiles (f := (·.remove path)) rfl hallowed rfl

end Tracked

/-- **Settings are never out of date.** Whatever workspaces the server has, whoever is asked for
settings in whatever order, and whatever the cache has to drop: as long as there is a message about
every settings file of a project that changes before settings are asked for again, every answer is
what the configuration computes now, from the client's settings and from the files. -/
theorem settings_never_out_of_date (machine : Machine) (engines : Engines) (checksParent : Bool)
    {turns : List Turn}
    (hallowed : Always step Allowed { session := .fresh machine engines checksParent } turns) :
    Always step UpToDate { session := .fresh machine engines checksParent } turns := by
  refine Always.of_inv (fun w e ht hw _ => ht.step hw) (fun w e ht hw => ?_)
    (Tracked.fresh machine engines checksParent) hallowed hallowed
  cases e with
  | settings n query =>
    refine answer_of_ensures ?_
    rw [Turn.act, ensures_liftAct]
    exact (Host.ensures_settings (ht.coherent hw) n query).mono (fun _ _ h => h.1) fun _ _ h => h.1
  | pluginSettings n plugin path =>
    refine answer_of_ensures ?_
    rw [Turn.act, ensures_liftAct]
    exact (Host.ensures_pluginSettings (ht.coherent hw) n plugin path).mono (fun _ _ h => h.1)
      fun _ _ h => h.1
  | start | didChangeWorkspaceFolders | didChangeConfiguration | didChangeWatchedFiles | update
  | write | remove => trivial

/-- A message about files that have changed. -/
def changing (uris : List String) : Session.Params :=
  [("changes", .list (uris.map fun uri => .object [("uri", .str uri), ("type", .int 2)]))]

/-- A question about a document in the inner one of two folders. -/
def asking : Turn := .pluginSettings 1 "pycodestyle" (.str "/w/a/b.py")

/-- Both folders get settings files, which change later. -/
def nested : List Turn := [
  .start (Session.starting "file:///w" ["file:///w/a"]),
  .write "/w/tox.ini" "[pycodestyle]\nignore = E1\n",
  .write "/w/a/setup.cfg" "[pycodestyle]\nmax-line-length = 90\n",
  .didChangeWatchedFiles (changing ["file:///w/a/setup.cfg", "file:///w/tox.ini"]),
  .settings 0 .plain,
  asking,
  .write "/w/a/setup.cfg" "[pycodestyle]\nmax-line-length = 80\n",
  .remove "/w/tox.ini",
  .didChangeWatchedFiles (changing ["file:///w/tox.ini", "file:///w/a/setup.cfg"]),
  asking,
  .settings 0 .plain]

/-- The answer to the question after some turns. -/
def askedAfter (turns : Nat) : Option Value :=
  (((nested.take turns).foldl step { session := .fresh {} {} false }).answer asking).toOption

/-- The answer changes with the file, but not before the message: until then it is the old one. -/
theorem settings_follow_message :
    Always step Allowed { session := .fresh {} {} false } nested ∧
      askedAfter 4 = some (.object [("maxLineLength", .int 90)]) ∧
      askedAfter 8 = some (.object [("maxLineLength", .int 90)]) ∧
      askedAfter 9 = some (.object [("maxLineLength", .int 80)]) ∧
      Always step UpToDate { session := .fresh {} {} false } nested := by
  have hrun : Always step Allowed { session := .fresh {} {} false } nested ∧
      askedAfter 4 = some (.object [("maxLineLength", .int 90)]) ∧
      askedAfter 8 = some (.object [("maxLineLength", .int 90)]) ∧
      askedAfter 9 = some (.object [("maxLineLength", .int 80)]) := by
    decide +kernel
  obtain ⟨hallowed, hfirst, hold, hnew⟩ := hrun
  exact ⟨hallowed, hfirst, hold, hnew, settings_never_out_of_date {} {} false hallowed⟩

end Watch
end LangServer
