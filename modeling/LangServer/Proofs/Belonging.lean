import LangServer.Proofs.Loading
import LangServer.Proofs.Session.Runs

/-!
# Documents and the workspaces they were made for

A document keeps the number of the workspace that it was made for (`home`), and the directories in
which that workspace looked for its modules at that time. The engine is loaded with the root path,
the settings and the environments of `home`, whichever workspace stores the document.

A change of folders moves documents from the root to other workspaces, and moves them as they are.
So documents belong to the workspaces that store them, along a whole run, if and only if no document
is ever moved (`Tracker.belong_iff_never_moves`).
-/

namespace LangServer

open Session (arg documentUri?)

/-! ## Made for a workspace -/

theorem Workspace.sourceRoots_congr {w w' : Workspace} (h : w'.rootPath = w.rootPath) (m : Machine)
    (path : String) : w'.sourceRoots m path = w.sourceRoots m path := by
  rw [sourceRoots, sourceRoots, h]

/-- The document was made for the workspace with a number: that is its home, and it looks for
modules where the workspace said, with the machine as it was then. -/
def Document.MadeFor (d : Document) (h : Host) (n : Nat) (m : Machine) : Prop :=
  d.home = n ∧ ∃ w, h.spaces[n]? = some w ∧ w.sourceRoots m d.path = .ok d.searchPath

theorem Document.MadeFor.of_origin {d d' : Document} {h h' : Host} {n : Nat} {m : Machine}
    (hd : d.MadeFor h n m) (ho : d'.origin = d.origin)
    (hroot : ∀ p, h.rootPathAt n = some p → h'.rootPathAt n = some p) : d'.MadeFor h' n m := by
  obtain ⟨hhome, w, hw, hroots⟩ := hd
  obtain ⟨-, hpath, hsearch, hhome'⟩ := Origin.mk.inj ho
  have hrootPath : h.rootPathAt n = some w.rootPath := by
    rw [Host.rootPathAt, hw]
    rfl
  obtain ⟨w', hw', heq⟩ := Option.map_eq_some_iff.1 (hroot _ hrootPath)
  refine ⟨hhome'.trans hhome, w', hw', ?_⟩
  rw [Workspace.sourceRoots_congr heq, hpath, hsearch, hroots]

/-! ## Trackers -/

/-- The change of folders moves the document under a URI from the root, which it leaves as the root
of the new session, to the workspace `n`. -/
def Event.movesTo (s s' : Session) (n : Nat) (uri : String) : Event → Bool
  | didChangeWorkspaceFolders ps =>
    !(arg ps "event").isNull && s'.spaceOf? uri == some n &&
      match s'.root with
      | some r => n != r && (s.host.documentAt r uri).isSome
      | none => false
  | _ => false

/-- The event puts a document under a URI into the workspace `n`. -/
def Event.places (s s' : Session) (n : Nat) (uri : String) (e : Event) : Bool :=
  match e with
  | didOpen ps => documentUri? ps == some uri && s.spaceOf? uri == some n
  | e => e.movesTo s s' n uri

/-- A server, and the machine as it was when a document was last put into a workspace under a
URI. -/
structure Tracker where
  session : Session
  placed : Nat → String → Machine

namespace Tracker

/-- Nothing has happened yet. -/
def fresh (machine : Machine) (engines : Engines) (checksParent : Bool) : Tracker :=
  ⟨.fresh machine engines checksParent, fun _ _ => machine⟩

/-- What an event does. -/
def step (t : Tracker) (e : Event) : Tracker :=
  match e.act t.session with
  | .ok _ s =>
    ⟨s, fun n uri => if e.places t.session s n uri then s.host.machine else t.placed n uri⟩
  | .error _ s => ⟨s, t.placed⟩

/-- Every document in a workspace that the session has was made for that workspace, when it was put
there. -/
def Belong (t : Tracker) : Prop :=
  ∀ n, t.session.Holds n → ∀ uri d, t.session.host.documentAt n uri = some d →
    d.MadeFor t.session.host n (t.placed n uri)

/-- The event moves a document. -/
def Moves (t : Tracker) (e : Event) : Prop :=
  Ensures e.act t.session (fun _ s => ∃ n uri, e.movesTo t.session s n uri = true) fun _ _ => False

theorem Moves.intro {t : Tracker} {e : Event} (n : Nat) (uri : String)
    (h : Ensures e.act t.session (fun _ s => e.movesTo t.session s n uri = true)
      fun _ _ => False) : t.Moves e :=
  h.imp (fun _ _ hmoves => ⟨n, uri, hmoves⟩)

/-- The session is sound, and every document in any workspace was made for that workspace. -/
structure Settled (t : Tracker) : Prop where
  sound : t.session.Sound
  madeFor : ∀ n uri d, t.session.host.documentAt n uri = some d →
    d.MadeFor t.session.host n (t.placed n uri)

theorem settled_fresh (machine : Machine) (engines : Engines) (checksParent : Bool) :
    (fresh machine engines checksParent).Settled := by
  refine ⟨Session.sound_fresh machine engines checksParent, fun n uri d hd => ?_⟩
  cases (Session.documentAt_fresh machine engines checksParent n uri).symm.trans hd

variable {t : Tracker}

theorem Settled.belong (h : t.Settled) : t.Belong := fun n _ uri d hd => h.madeFor n uri d hd

theorem step_of_ensures {e : Event} {P : Tracker → Prop}
    (h : Ensures e.act t.session
      (fun _ s => P ⟨s, fun n uri =>
        if e.places t.session s n uri then s.host.machine else t.placed n uri⟩)
      fun _ s => P ⟨s, t.placed⟩) : P (t.step e) := by
  rw [step]
  cases hx : e.act t.session with
  | ok answer s => exact h.ok hx
  | error f s => exact h.error hx

theorem Settled.of_extends (h : t.Settled) {s : Session} (hs : s.Sound)
    (hhost : t.session.host.Extends s.host) : (⟨s, t.placed⟩ : Tracker).Settled := by
  refine ⟨hs, fun n uri d hd => ?_⟩
  rw [hhost.documentAt] at hd
  exact (h.madeFor n uri d hd).of_origin rfl fun p hp => hhost.rootPathAt n p hp

/-! ## What each event keeps -/

theorem settled_step_of_idle {e : Event}
    (hidle : ∀ s n uri, e.places t.session s n uri = false)
    (h : Ensures e.act t.session (fun _ s => (⟨s, t.placed⟩ : Tracker).Settled)
      fun _ s => (⟨s, t.placed⟩ : Tracker).Settled) : (t.step e).Settled := by
  refine step_of_ensures (P := Settled) (h.imp (fun _ s hs => ?_))
  have hplaced : (fun n uri =>
      if e.places t.session s n uri then s.host.machine else t.placed n uri) = t.placed := by
    funext n uri
    rw [hidle, if_neg Bool.false_ne_true]
  rwa [hplaced]

theorem settled_step_start (ht : t.Settled) (ps : Session.Params) :
    (t.step (.start ps)).Settled := by
  refine settled_step_of_idle (fun _ _ _ => rfl)
    ((Session.ensures_start _ ps).mono (fun _ s hs => ?_) fun _ s hs => ?_)
  · exact ht.of_extends (hs.1.sound ht.sound) hs.1.host
  · exact ht.of_extends (hs.sound ht.sound) hs.host

theorem settled_step_didOpen (ht : t.Settled) (ps : Session.Params) :
    (t.step (.didOpen ps)).Settled := by
  refine step_of_ensures (P := Settled) ((Session.ensures_didOpen t.session ps).mono ?_ ?_)
  · rintro _ _ ⟨uri, n, w, text, version, d, timers, huri, hn, hw, -, hnew, rfl⟩
    obtain ⟨hlt, -⟩ := List.getElem?_eq_some_iff.1 hw
    have hroots := Host.sameRoots_put t.session.host n uri d
    have hplaces : ∀ s' m v, (Event.didOpen ps).places t.session s' m v = true ↔
        m = n ∧ v = uri := by
      intro s' m v
      rw [Event.places, Bool.and_eq_true, beq_iff_eq, beq_iff_eq, huri, Option.some_inj]
      constructor
      · rintro ⟨rfl, hm⟩
        exact ⟨Option.some_inj.1 (hm.symm.trans hn), rfl⟩
      · rintro ⟨rfl, rfl⟩
        exact ⟨rfl, hn⟩
    refine ⟨ht.sound.of_length_le (Nat.le_of_eq hroots.length.symm), fun m v e he => ?_⟩
    rw [Host.documentAt_put hlt] at he
    by_cases hmv : m = n ∧ v = uri
    · rw [if_pos hmv, Option.some_inj] at he
      obtain ⟨-, hhome, hsearch⟩ := Workspace.of_newDocument hnew
      have hmade : d.MadeFor t.session.host n t.session.host.machine := ⟨hhome, w, hw, hsearch⟩
      simp only [if_pos ((hplaces _ m v).2 hmv)]
      rw [← he, hmv.1]
      exact hmade.of_origin rfl fun p hp => (hroots.rootPathAt n).trans hp
    · rw [if_neg hmv] at he
      simp only [if_neg (mt (hplaces _ m v).1 hmv)]
      exact (ht.madeFor m v e he).of_origin rfl fun p hp => (hroots.rootPathAt m).trans hp
  · rintro _ _ (rfl | ⟨hnone, u, n, hn⟩)
    · exact ht
    · exact absurd hnone (ht.sound.config_ne_none hn)

theorem settled_step_didChange (ht : t.Settled) (ps : Session.Params) :
    (t.step (.didChange ps)).Settled := by
  have hrevised : ∀ {host : Host} {timers : Timers Errand}, t.session.host.Revised host →
      (⟨{ t.session with host, timers }, t.placed⟩ : Tracker).Settled := by
    intro host timers hrev
    refine ⟨ht.sound.of_length_le (Nat.le_of_eq hrev.length.symm), fun n uri d hd => ?_⟩
    have ho := hrev.origin n uri
    rw [show host.documentAt n uri = some d from hd, Option.map_some] at ho
    obtain ⟨d', hd', ho⟩ := Option.map_eq_some_iff.1 ho.symm
    exact (ht.madeFor n uri d' hd').of_origin ho.symm fun p hp => (hrev.rootPathAt n).trans hp
  refine settled_step_of_idle (fun _ _ _ => rfl)
    ((Session.ensures_didChange t.session ps).mono ?_ ?_)
  · rintro _ _ ⟨host, timers, rfl, hrev⟩
    exact hrevised hrev
  · rintro _ _ ⟨⟨host, timers, rfl, hrev⟩, -⟩
    exact hrevised hrev

theorem settled_step_didClose (ht : t.Settled) (ps : Session.Params) :
    (t.step (.didClose ps)).Settled := by
  refine settled_step_of_idle (fun _ _ _ => rfl)
    ((Session.ensures_didClose ht.sound ps).mono ?_ ?_)
  · rintro _ _ ⟨uri, n, d, -, -, -, rfl⟩
    have hroots := Host.sameRoots_remove t.session.host n uri
    refine ⟨ht.sound.of_length_le (Nat.le_of_eq hroots.length.symm), fun m v e he => ?_⟩
    rw [Host.documentAt_remove] at he
    split at he
    · cases he
    · exact (ht.madeFor m v e he).of_origin rfl fun p hp => (hroots.rootPathAt m).trans hp
  · rintro _ _ ⟨rfl, -⟩
    exact ht

theorem settled_step_files (ht : t.Settled) (fs : Files) : (t.step (.files fs)).Settled := by
  refine settled_step_of_idle (fun _ _ _ => rfl) ?_
  simp only [Event.act, ensures_bind, ensures_modify, ensures_pure]
  exact ⟨⟨ht.sound.lt_of_holds, ht.sound.config_eq, ht.sound.folders_eq_nil⟩, ht.madeFor⟩

/-! ## Changes of folders -/

theorem movesTo_eq_true_iff {s s' : Session} {r n : Nat} {uri : String} {ps : Session.Params}
    (hr : s'.root = some r) :
    (Event.didChangeWorkspaceFolders ps).movesTo s s' n uri = true ↔
      (arg ps "event").isNull = false ∧ s'.spaceOf? uri = some n ∧ n ≠ r ∧
        (s.host.documentAt r uri).isSome := by
  rw [Event.movesTo, hr]
  simp [and_assoc]

theorem settled_step_didChangeWorkspaceFolders (ht : t.Settled) {ps : Session.Params}
    (hstay : ¬ t.Moves (.didChangeWorkspaceFolders ps)) :
    (t.step (.didChangeWorkspaceFolders ps)).Settled := by
  have hspec := Session.ensures_didChangeWorkspaceFolders ht.sound ps
  rw [Moves, Ensures] at hstay
  rw [step]
  cases hx : (Event.didChangeWorkspaceFolders ps).act t.session with
  | ok answer s =>
    rw [hx] at hstay
    -- no document is moved, so none is put anywhere
    have hplaced : (fun n uri => if (Event.didChangeWorkspaceFolders ps).places t.session s n uri
        then s.host.machine else t.placed n uri) = t.placed := by
      funext n uri
      exact if_neg fun h => hstay ⟨n, uri, h⟩
    show (⟨s, _⟩ : Tracker).Settled
    rw [hplaced]
    rcases hspec.ok hx with ⟨-, rfl⟩ | ⟨hevent, u, r, host, hregrouped, hr, hmigrated, rfl⟩
    · exact ht
    · have hdocs : ∀ m v, host.documentAt m v = u.host.documentAt m v := by
        intro m v
        rw [hmigrated.documentAt]
        by_cases hsome : (u.host.documentAt r v).isSome
        · obtain ⟨n, hn⟩ := Session.exists_spaceOf? (hr ▸ Option.some_ne_none r) v
          rw [hregrouped.host.documentAt] at hsome
          have hnr : n = r := by
            refine Classical.byContradiction fun hne => hstay ⟨n, v, ?_⟩
            exact (movesTo_eq_true_iff hr).2 ⟨hevent, hn, hne, hsome⟩
          rw [hn, hnr, Option.getD_some, Session.handOn_self]
        · rw [Session.handOn, if_neg hsome]
      have hextends : u.host.Extends host :=
        ⟨hmigrated.machine, Nat.le_of_eq hmigrated.length.symm, hdocs,
          fun n p hp => (hmigrated.rootPathAt n).trans hp⟩
      refine ht.of_extends ?_ (hregrouped.host.trans hextends)
      exact (hregrouped.sound ht.sound).of_length_le (Nat.le_of_eq hmigrated.length.symm)
  | error f s =>
    have hregrouped := hspec.error hx
    exact ht.of_extends (hregrouped.sound ht.sound) hregrouped.host

/-- **A document that is moved no longer belongs to the workspace that stores it.** -/
theorem not_belong_of_moves (ht : t.Settled) {e : Event} (hmoves : t.Moves e) :
    ¬ (t.step e).Belong := by
  obtain ⟨answer, s, hx, n, uri, hmoves⟩ := hmoves.exists_ok
  cases e with
  | didChangeWorkspaceFolders ps =>
    have hspec := Session.ensures_didChangeWorkspaceFolders ht.sound ps
    rcases hspec.ok hx with ⟨hnull, rfl⟩ | ⟨hevent, u, r, host, hregrouped, hr, hmigrated, rfl⟩
    · rw [Event.movesTo, hnull] at hmoves
      cases hmoves
    · obtain ⟨-, hn, hne, hsome⟩ := (movesTo_eq_true_iff hr).1 hmoves
      obtain ⟨d, hd⟩ := Option.isSome_iff_exists.1 hsome
      have hmoved : host.documentAt n uri = some d := by
        rw [hmigrated.documentAt, show u.spaceOf? uri = some n from hn, Option.getD_some,
          Session.handOn]
        simp [hregrouped.host.documentAt, hd]
      intro hbelong
      rw [step, hx] at hbelong
      have hhome := (hbelong n (Session.holds_of_spaceOf? hn) uri d hmoved).1
      exact hne (hhome.symm.trans (ht.madeFor r uri d hd).1)
  | start _ | didOpen _ | didChange _ | didClose _ | files _ => cases hmoves

/-! ## Runs -/

/-- **One step** leaves all documents with the workspaces they were made for exactly when it moves
none. -/
theorem belong_step_iff (ht : t.Settled) (e : Event) :
    ((t.step e).Belong ↔ ¬ t.Moves e) ∧ ((t.step e).Belong → (t.step e).Settled) := by
  have hsettled : ¬ t.Moves e → (t.step e).Settled := by
    intro hstay
    cases e with
    | start ps => exact settled_step_start ht ps
    | didOpen ps => exact settled_step_didOpen ht ps
    | didChange ps => exact settled_step_didChange ht ps
    | didClose ps => exact settled_step_didClose ht ps
    | didChangeWorkspaceFolders ps => exact settled_step_didChangeWorkspaceFolders ht hstay
    | files fs => exact settled_step_files ht fs
  have hstays : (t.step e).Belong → ¬ t.Moves e := fun h hmoves => not_belong_of_moves ht hmoves h
  exact ⟨⟨hstays, fun h => (hsettled h).belong⟩, fun h => hsettled (hstays h)⟩

/-- **Documents belong to the workspaces that store them, along a whole run, if and only if no event
of the run moves a document.** A document that was made for a workspace is loaded with the root
path, the settings and the environments of that workspace, looks for modules where that workspace
said, and adds to the environments of that workspace only. -/
theorem belong_iff_never_moves (machine : Machine) (engines : Engines) (checksParent : Bool)
    (events : List Event) :
    (Always step (fun t e => (t.step e).Belong) (fresh machine engines checksParent) events ↔
      Always step (fun t e => ¬ t.Moves e) (fresh machine engines checksParent) events) ∧
    ∀ (d : Document) (h : Host) (n : Nat) (m : Machine), d.MadeFor h n m →
      ∃ w, h.spaces[n]? = some w ∧ w.sourceRoots m d.path = .ok d.searchPath ∧
        ∀ (useDocumentPath : Bool) (position : Value),
          Ensures (Engine.load useDocumentPath position) ⟨h, some d⟩
            (fun _ desk => h.LoadedIn n desk.host ∧ d.LoadedWith w useDocumentPath h desk.host)
            fun _ desk => h.LoadedIn n desk.host := by
  constructor
  · refine Always.iff (I := Settled) (A := fun _ _ => True) ?_
      (settled_fresh machine engines checksParent) (Always.of_forall fun _ _ => trivial)
    exact fun t e ht _ => belong_step_iff ht e
  · rintro d h n m ⟨rfl, w, hw, hroots⟩
    exact ⟨w, hw, hroots, fun useDocumentPath position =>
      Engine.ensures_load hw useDocumentPath position⟩

/-- A workspace whose client names an environment and a directory to look for modules in. -/
def furnished : Workspace where
  rootUri := "file:///w"
  scheme := "file"
  rootPath := "/w"
  config := some {
    id := 1, rootUri := "file:///w", rootPath := "/w"
    client := .object [("plugins", .object [("jedi", .object [
      ("environment", .str "/venv"), ("extra_paths", .list [.str "/lib"])])])] }

/-- A document of the root is moved to a nested folder that comes, and still calls the root its
home. A document that was made for the root is loaded with the path of the root, with what the
settings of the root name, and with the directory of the project that was around it at that time. -/
theorem not_belong_when_folder_nests :
    let events : List Event := [
      .start (Session.starting "file:///w" []),
      .didOpen (Session.opening "file:///w/sub/a.py" "x"),
      .didChangeWorkspaceFolders (Session.regrouping ["file:///w/sub"] [])]
    let d : Document := {
      uri := "file:///w/p/a.py", path := "/w/p/a.py", dotName := "a", filename := "a.py"
      source := .text "x", searchPath := ["/w/p"] }
    ¬ Always step (fun t e => (t.step e).Belong) (fresh {} {} false) events ∧
      d.MadeFor { spaces := [furnished] } 0 { files := ⟨[("/w/p/setup.py", "")]⟩ } ∧
      Ensures (Engine.load false .null) ⟨{ spaces := [furnished] }, some d⟩
        (fun _ desk => desk.host.environmentsAt 0 = some [.str "/venv"] ∧
          desk.host.asked.getLast? = some (.script (.str "x") "/w/p/a.py" (.str "/venv") "/w"
            [.str "/w/p", .str "/py/lib", .str "/lib"]))
        fun _ _ => True := by
  intro events d
  obtain ⟨hiff, hload⟩ := belong_iff_never_moves {} {} false events
  refine ⟨?_, ?_⟩
  · have hmoved : ¬ Always step (fun t e => ¬ Ensures e.act t.session
        (fun _ s => e.movesTo t.session s 1 "file:///w/sub/a.py" = true) fun _ _ => False)
        (fresh {} {} false) events := by decide +kernel
    intro hbelong
    refine hmoved ((hiff.1 hbelong).mono fun t e hstay h => hstay ?_)
    exact Moves.intro 1 "file:///w/sub/a.py" h
  · have hroots : furnished.sourceRoots { files := ⟨[("/w/p/setup.py", "")]⟩ } d.path =
        .ok d.searchPath := eq_ok_of_toOption (by decide +kernel)
    have hmade : d.MadeFor { spaces := [furnished] } 0 { files := ⟨[("/w/p/setup.py", "")]⟩ } :=
      ⟨rfl, furnished, rfl, hroots⟩
    refine ⟨hmade, ?_⟩
    have hsettings : Ensures (Host.pluginSettings 0 "jedi" (.str d.path)) { spaces := [furnished] }
        (fun settings _ => (settings.get "environment").toOption = some (.str "/venv") ∧
          (settings.get "extra_paths").toOption = some (.list [.str "/lib"]))
        fun _ _ => False := by decide +kernel
    obtain ⟨w, hw, -, hloads⟩ := hload d { spaces := [furnished] } 0 _ hmade
    obtain rfl : furnished = w := Option.some_inj.1 hw
    refine (hloads false .null).mono ?_ fun _ _ _ => trivial
    rintro - desk ⟨-, code, environment, extra, more, hcode, hsettles, hmore, henvironments, hasked⟩
    obtain ⟨settings, host, hrun, henvironment, hextra⟩ := hsettles
    obtain ⟨henvironment', hextra'⟩ := hsettings.ok hrun
    obtain rfl := Except.ok.inj (henvironment.symm.trans (eq_ok_of_toOption henvironment'))
    obtain rfl := Except.ok.inj (hextra.symm.trans (eq_ok_of_toOption hextra'))
    obtain rfl : [.str "/lib"] = more := Except.ok.inj hmore
    obtain rfl : .str "x" = code := Except.ok.inj hcode
    exact ⟨henvironments, hasked⟩

end Tracker
end LangServer
