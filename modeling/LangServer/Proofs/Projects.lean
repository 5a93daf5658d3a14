import LangServer.Proofs.Hooks
import LangServer.Proofs.Settings.Destinations

/-!
# When projects are opened

The refactoring engine is used through the project of a workspace. A completion asks for the
project twice, once for the workspace and once for the document, and a rename once; what else
happens in between asks nothing of projects (`Visits`).

A project was meant to stay open as long as the settings stay the same (`intended`). But a workspace
does not keep the settings that its project was opened with. So every visit with settings opens a
new project (`Visit.requests`), and what was meant happens only in runs in which no settings are
given to a workspace twice in a row (`Fresh`).
-/

namespace LangServer.Refactoring

open Host Job Relation Settings

/-- Is the request about a project itself? -/
def isOfProject : Request → Bool
  | .openProject .. | .setPreference .. | .validate => true
  | _ => false

/-- What was asked of projects, in order. -/
def projectLog (h : Host) : List Request := h.asked.filter isOfProject

/-! ## One visit -/

/-- A workspace is asked for its project. -/
structure Visit where
  home : Nat
  /-- The folder of the workspace. -/
  root : String
  settings : Value

namespace Visit

/-- The requests that open a project by the settings. -/
def opening (v : Visit) : List Request :=
  match v.settings with
  | .object members => [
      .openProject v.root ((Value.lookup "ropeFolder" members).getD .null),
      .setPreference "extension_modules"
        ((Value.lookup "extensionModules" members).getD (.list [])),
      .setPreference "ignore_syntax_errors" (.bool true),
      .setPreference "ignore_bad_imports" (.bool true)]
  | _ => []

/-- What is asked at a visit: a project is opened if there are settings, and it is validated. -/
def requests (v : Visit) : List Request := v.opening ++ [.validate]

end Visit

/-- Can a workspace have a project by these settings?  Without settings it needs an open one. -/
def canServe (w : Workspace) (settings : Value) : Bool :=
  isObject settings || settings.isNull && w.hasProject

/-- **A visit to a workspace** that can serve it asks what it should, and else nothing happens. -/
theorem ensures_ensureProject (h : Host) (n : Nat) (settings : Value) :
    Ensures (ensureProject n settings) h
      (fun _ h' => ∃ w, (h.spaces[n]? = some w ∧ canServe w settings = true) ∧
        projectLog h' = projectLog h ++ Visit.requests ⟨n, w.rootPath, settings⟩)
      fun _ h' => h' = h ∧ ¬ ∃ w, h.spaces[n]? = some w ∧ canServe w settings = true := by
  rw [ensureProject, ensures_bind, ensures_space]
  refine ⟨fun w hw => ?_, fun hw => ⟨rfl, by simp [hw]⟩⟩
  cases settings with
  | object members =>
    have hget : ∀ (key : String) (v : Value), (Value.object members).getD key v =
        .ok ((Value.lookup key members).getD v) := fun _ _ => rfl
    simp [needsProject, Value.isNull, openProject, Value.get, hget, ensures_space_of_some hw, hw,
      Host.ask, setSpace, canServe, isObject, projectLog, List.filter_cons, isOfProject,
      Visit.requests, Visit.opening]
  | null =>
    have hget : Value.null.get "ropeFolder" = .error .noMember := rfl
    cases hproject : w.hasProject <;>
      simp [needsProject, Value.isNull, openProject, hget, ensures_liftExcept, hw, Host.ask,
        canServe, isObject, projectLog, isOfProject, Visit.requests, Visit.opening, hproject]
  | _ =>
    simp [needsProject, Value.isNull, openProject, Value.get, Value.getD, Value.get?,
      ensures_liftExcept, hw, canServe, isObject]

/-! ## Runs -/

/-- A run with visits, between other actions that ask nothing of projects. -/
inductive Visits (h : Host) : List Visit → Host → Prop where
  | start : Visits h [] h
  | aside {vs : List Visit} {h' h'' : Host} (hrun : Visits h vs h')
      (hlog : projectLog h'' = projectLog h') : Visits h vs h''
  | visit {vs : List Visit} {h' h'' : Host} (hrun : Visits h vs h') {v : Visit}
      (hroot : h'.rootPathAt v.home = some v.root)
      (hvisit : ensureProject v.home v.settings h' = .ok () h'') : Visits h (vs ++ [v]) h''

section

variable {h h' : Host} {vs : List Visit} {same : Value → Value → Bool} {last : Nat → Option Value}

theorem projectLog_of_visits (hrun : Visits h vs h') :
    projectLog h' = projectLog h ++ vs.flatMap Visit.requests := by
  induction hrun with
  | start => simp
  | aside _ hlog ih => rw [hlog, ih]
  | visit _ hroot hvisit ih =>
    obtain ⟨w, ⟨hw, -⟩, hlog⟩ := (ensures_ensureProject _ _ _).ok hvisit
    rw [rootPathAt, hw, Option.map_some, Option.some_inj] at hroot
    simp [hlog, ih, hroot]

/-- The settings of the last visit to each workspace, after one more. -/
def Visit.after (v : Visit) (last : Nat → Option Value) : Nat → Option Value :=
  Function.update last v.home (some v.settings)

/-- What was meant to be asked: a project is opened when the settings of its workspace are not the
same as at the last visit. -/
def intended (same : Value → Value → Bool) (last : Nat → Option Value) : List Visit → List Request
  | [] => []
  | v :: vs => (if (last v.home).any (same v.settings) then [.validate] else v.requests) ++
      intended same (v.after last) vs

/-- No settings are given to a workspace twice in a row. -/
def Fresh (same : Value → Value → Bool) (last : Nat → Option Value) : List Visit → Prop
  | [] => True
  | v :: vs => (isObject v.settings = true → (last v.home).any (same v.settings) = false) ∧
      Fresh same (v.after last) vs

theorem flatMap_requests_eq_iff :
    vs.flatMap Visit.requests = intended same last vs ↔ Fresh same last vs := by
  induction vs generalizing last with
  | nil => simp [intended, Fresh]
  | cons v vs ih =>
    rw [List.flatMap_cons, intended, Fresh, ← ih]
    by_cases hlast : (last v.home).any (same v.settings) = true
    · obtain ⟨home, root, settings⟩ := v
      cases settings with
      | object => simp [hlast, isObject, Visit.requests, Visit.opening]
      | _ =>
        simp [hlast, isObject, Visit.requests, Visit.opening]
    · simp [hlast]

/-! ## What plugins ask -/

/-- A step that asks nothing of projects. -/
def Aside (desk desk' : Desk) : Prop := projectLog desk'.host = projectLog desk.host

/-- The run goes on with visits to the first of some workspaces, by the same settings. -/
def Begins (h : Host) (vs : List Visit) (homes : List Nat) (h' : Host) : Prop :=
  ∃ settings us, us.map Visit.home <+: homes ∧ (∀ v ∈ us, v.settings = settings) ∧
    Visits h (vs ++ us) h'

theorem Visits.begins (hrun : Visits h vs h') (homes : List Nat) : Begins h vs homes h' :=
  ⟨.null, [], List.nil_prefix, by simp, by rwa [List.append_nil]⟩

section

variable {α β : Type} {desk : Desk} {good : β → Desk → Prop} {bad : Fault → Desk → Prop}

theorem Visits.ensures_aside (hrun : Visits h vs desk.host) {x : Job α} (hx : Moves Aside x) :
    Ensures x desk (fun _ t => Visits h vs t.host) fun _ t => Visits h vs t.host := by
  have haside : ∀ t, ReflTransGen Aside desk t → Visits h vs t.host := by
    intro t hsteps
    induction hsteps with
    | refl => exact hrun
    | tail _ hstep ih => exact ih.aside hstep
  exact (hx desk).mono (fun _ => haside) fun _ => haside

theorem Visits.bind_aside (hrun : Visits h vs desk.host) {x : Job α} {f : α → Job β}
    (hx : Moves Aside x) (hf : ∀ a t, Visits h vs t.host → Ensures (f a) t good bad)
    (hbad : ∀ e t, Visits h vs t.host → bad e t) : Ensures (x >>= f) desk good bad :=
  (hrun.ensures_aside hx).bind hf hbad

theorem Visits.bind_visit (hrun : Visits h vs desk.host) {f : Unit → Job β} {n : Nat}
    {settings : Value}
    (hf : ∀ root t, Visits h (vs ++ [⟨n, root, settings⟩]) t.host → Ensures (f ()) t good bad)
    (hbad : ∀ e t, Visits h vs t.host → bad e t) :
    Ensures (liftM (ensureProject n settings) >>= f) desk good bad := by
  rw [ensures_bind, ensures_liftJob]
  refine ((ensures_ensureProject _ n settings).and (.self _ _)).mono ?_ ?_
  · rintro _ h' ⟨⟨w, ⟨hw, -⟩, -⟩, hvisit⟩
    exact hf w.rootPath _ (hrun.visit (by simp [rootPathAt, hw]) hvisit)
  · rintro e h' ⟨⟨rfl, -⟩, -⟩
    exact hbad e _ hrun

end

theorem moves_aside {α : Type} {x : Act α}
    (hx : Moves (fun h h' => projectLog h' = projectLog h) x) : Moves Aside (liftM x : Job α) :=
  hx.liftJob.mono fun _ _ hstep => hstep.host

theorem moves_settings_aside (c : Caller) : Moves Aside (settings c) :=
  moves_document.bind fun _ =>
    (moves_aside (moves_settings_of (fun _ _ _ _ _ => rfl) _ _)).bind fun _ => Moves.ofExcept _

theorem moves_ask_aside {q : Request} (hq : isOfProject q = false) : Moves Aside (Job.ask q) :=
  moves_aside (Moves.modify fun h => by simp [projectLog, hq])

theorem ensures_proposals_visits (hrun : Visits h vs h') (c : Caller) (position : Value)
    (d : Document) :
    Ensures (Completion.proposals c position) ⟨h', some d⟩
      (fun v t => v = .null ∧ Visits h vs t.host ∨ ∃ settings root root',
        Visits h (vs ++ [⟨c.space, root, settings⟩, ⟨d.home, root', settings⟩]) t.host)
      fun _ t => Begins h vs [c.space, d.home] t.host := by
  have hbad : ∀ (_ : Fault) (t : Desk), Visits h vs t.host →
    Begins h vs [c.space, d.home] t.host := fun _ _ ht => ht.begins _
  have hstart : Visits h vs (Desk.mk h' (some d)).host := hrun
  rw [Completion.proposals, Job.document, ensures_bind, ensures_bind, ensures_get]
  simp only [ensures_pure]
  refine hstart.bind_aside (moves_aside (moves_pluginSettings_of (fun _ _ _ _ _ => rfl) _ _ _))
    (fun _ t ht => ?_) hbad
  refine ht.bind_aside (Moves.ofExcept _) (fun eager t ht => ?_) hbad
  refine ht.bind_aside (Moves.ofExcept _) (fun line t ht => ?_) hbad
  refine ht.bind_aside (Moves.ofExcept _) (fun character t ht => ?_) hbad
  refine ht.bind_aside moves_files (fun fs t ht => ?_) hbad
  refine ht.bind_aside (Moves.ofExcept _) (fun word t ht => ?_) hbad
  split
  · exact .inl ⟨rfl, ht⟩
  refine ht.bind_aside (Moves.ofExcept _) (fun offset t ht => ?_) hbad
  refine ht.bind_aside (moves_settings_aside c) (fun settings t ht => ?_) hbad
  refine ht.bind_visit (fun root t ht => ?_) hbad
  refine ht.bind_visit (fun root' t ht => ?_) fun _ t ht => ⟨settings, _, by simp, by simp, ht⟩
  rw [List.append_assoc] at ht
  refine (ht.ensures_aside ?_).mono (fun _ _ ht => .inr ⟨settings, root, root', ht⟩) fun _ _ ht =>
    ⟨settings, _, by simp, by simp, ht⟩
  refine moves_checkResource.bind fun _ => (moves_sourceOr _).bind fun _ => ?_
  refine (moves_ask_aside rfl).bind fun _ => moves_engines.bind fun engines => ?_
  split
  · exact Moves.pure _
  · have hset : ∀ d, Moves Aside (setDocument d) := fun _ => Moves.modify fun _ => rfl
    exact (hset _).bind fun _ => Moves.pure _

theorem ensures_renameByRefactoring_visits (hrun : Visits h vs h') (c : Caller)
    (position newName : Value) (d : Document) :
    Ensures (renameByRefactoring c position newName) ⟨h', some d⟩
      (fun _ t => ∃ settings root, Visits h (vs ++ [⟨c.space, root, settings⟩]) t.host)
      fun _ t => Begins h vs [c.space] t.host := by
  have hstart : Visits h vs (Desk.mk h' (some d)).host := hrun
  refine hstart.bind_aside (moves_settings_aside c) (fun settings t ht => ?_) fun _ _ ht =>
    ht.begins _
  refine ht.bind_visit (fun root t ht => ?_) fun _ _ ht => ht.begins _
  refine (ht.ensures_aside ?_).mono (fun _ _ ht => ⟨settings, root, ht⟩) fun _ _ ht =>
    ⟨settings, _, by simp, by simp, ht⟩
  refine moves_checkResource.bind fun _ => moves_document.bind fun d => moves_files.bind fun _ => ?_
  refine (Moves.ofExcept _).bind fun _ => (moves_ask_aside rfl).bind fun _ => ?_
  refine moves_files.bind fun _ => (Moves.ofExcept _).bind fun _ => ?_
  refine (moves_ask_aside rfl).bind fun _ => moves_engines.bind fun _ => ?_
  refine (Moves.ofExcept _).bind fun _ => moves_machine.bind fun _ => ?_
  refine (moves_aside (moves_space _)).bind fun _ => ?_
  exact (Moves.mapM (fun _ => Moves.ofExcept _) _).bind fun _ => Moves.pure _

/-- **Every visit with settings opens a new project**, sets its preferences by them and validates it
once, also when the settings are those of the last visit. So, whichever settings count as the same,
what was meant to be asked is asked just in the runs in which none are given to a workspace twice in
a row. A workspace can be asked for its project with any settings, or without when one is open.
Every completion goes on with two visits by the same settings, and every rename with one. -/
theorem project_opened_at_every_visit (hstart : projectLog h = []) (hrun : Visits h vs h') :
    projectLog h' = vs.flatMap Visit.requests ∧
    (∀ same, projectLog h' = intended same (fun _ => none) vs ↔ Fresh same (fun _ => none) vs) ∧
    (∀ n settings, (∃ h'', ensureProject n settings h' = .ok () h'') ↔
      ∃ w, h'.spaces[n]? = some w ∧ canServe w settings = true) ∧
    ∀ c position d,
      Ensures (Completion.proposals c position) ⟨h', some d⟩
        (fun v t => v = .null ∧ Visits h vs t.host ∨ ∃ settings root root',
          Visits h (vs ++ [⟨c.space, root, settings⟩, ⟨d.home, root', settings⟩]) t.host)
        (fun _ t => Begins h vs [c.space, d.home] t.host) ∧
      ∀ newName, Ensures (renameByRefactoring c position newName) ⟨h', some d⟩
        (fun _ t => ∃ settings root, Visits h (vs ++ [⟨c.space, root, settings⟩]) t.host)
        fun _ t => Begins h vs [c.space] t.host := by
  have hlog : projectLog h' = vs.flatMap Visit.requests := by
    rw [projectLog_of_visits hrun, hstart, List.nil_append]
  refine ⟨hlog, fun _ => hlog ▸ flatMap_requests_eq_iff, fun n settings => ?_, fun c position d =>
    ⟨ensures_proposals_visits hrun c position d, fun newName =>
      ensures_renameByRefactoring_visits hrun c position newName d⟩⟩
  have hvisit := ensures_ensureProject h' n settings
  refine ⟨fun ⟨h'', hok⟩ => ?_, fun hserve => ?_⟩
  · obtain ⟨w, hw, -⟩ := hvisit.ok hok
    exact ⟨w, hw⟩
  · obtain ⟨_, h'', hok, -⟩ := (hvisit.mono (fun _ _ h => h) fun _ _ h => h.2 hserve).exists_ok
    exact ⟨h'', hok⟩

end

/-- A host with one workspace. -/
def oneFolder : Host where
  spaces := [{ rootUri := "file:///w", scheme := "file", rootPath := "/w" }]

def folderVisit : Visit := ⟨0, "/w", .object [("ropeFolder", .str ".rope")]⟩

/-- At a second visit by the same settings a project is opened again. -/
theorem project_opened_twice : ∃ h', projectLog oneFolder = [] ∧
    Visits oneFolder [folderVisit, folderVisit] h' ∧
    projectLog h' = folderVisit.requests ++ folderVisit.requests ∧
    intended (fun v w => v = w) (fun _ => none) [folderVisit, folderVisit] =
      folderVisit.requests ++ [.validate] ∧
    projectLog h' ≠ intended (fun v w => v = w) (fun _ => none) [folderVisit, folderVisit] := by
  obtain ⟨h₁, hroot, h₂, hfirst, hsecond⟩ : ∃ h₁, h₁.rootPathAt 0 = some "/w" ∧ ∃ h₂,
      ensureProject 0 folderVisit.settings oneFolder = .ok () h₁ ∧
      ensureProject 0 folderVisit.settings h₁ = .ok () h₂ := ⟨_, rfl, _, rfl, rfl⟩
  have hrun : Visits oneFolder [folderVisit, folderVisit] h₂ :=
    (Visits.start.visit (v := folderVisit) rfl hfirst).visit (v := folderVisit) hroot hsecond
  obtain ⟨hlog, hiff, -⟩ := project_opened_at_every_visit rfl hrun
  refine ⟨h₂, rfl, hrun, hlog.trans (by simp), ?_, mt (hiff _).1 ?_⟩
  · simp [intended, Visit.after, folderVisit]
  · simp [Fresh, Visit.after, folderVisit, isObject]

end LangServer.Refactoring
