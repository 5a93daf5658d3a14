import LangServer.Proofs.Completion.Resolvers
import LangServer.Proofs.Formatting
import LangServer.Proofs.Linting.ClientSettings

/-!
# What plugins do to the host

Whatever a plugin is called for, it changes the host only in small steps (`Host.Work`): it looks
things up and remembers findings as linters do, it takes a variable out of the client's settings, it
has an environment or a project made for a workspace, it borrows a check, or it keeps what the
completion resolvers found. No such step touches a document, the place of a workspace or the
outside world, so no plugin does.

The plugins that complete also write on the document they were called for; what they write is told
elsewhere, and here all others are covered (`Hook.moves_implementation?`).
-/

namespace LangServer

open Relation

/-- What a plugin does to the host in one step. -/
inductive Host.Work : Host → Host → Prop where
  | touched {h h' : Host} (hstep : h.Touch h') : Work h h'
  /-- A value of the client's settings changes in place. -/
  | amended (h : Host) (revision : Nat) (path : List String) (shared : Settings.Settled → Bool)
      (f : Value → Value) : Work h (amendClient revision path shared f h)
  /-- A workspace gets an environment or a project. -/
  | equipped (h : Host) {n : Nat} {w : Workspace} (hw : h.spaces[n]? = some w)
      (environments : List Value) (hasProject : Bool) :
      Work h { h with spaces := h.spaces.set n { w with environments, hasProject } }
  | checks (h : Host) (checks : CheckTable) : Work h { h with checks }
  /-- The resolver of labels is used, while the clock does not go back into an earlier period. -/
  | labels (h : Host) (u : Completion.Resolver.Use) (hu : u.isForward 1800 = true) :
      Work h { h with labels := u.act h.labels }
  | snippets (h : Host) (u : Completion.Resolver.Use) :
      Work h { h with snippets := u.act h.snippets }

theorem Host.Consult.work {h h' : Host} (hstep : h.Consult h') : h.Work h' :=
  .touched (.amended (.consulted hstep))

/-! ## What no plugin touches -/

namespace Host

/-- The URI of the folder that a workspace with a configuration is for. -/
def siteAt (h : Host) (n : Nat) : Option String :=
  h.spaces[n]?.bind fun w => w.config.map fun _ => w.rootUri

variable {h h' : Host}

theorem siteAt_amendClient (revision : Nat) (path : List String)
    (shared : Settings.Settled → Bool) (f : Value → Value) (h : Host) (n : Nat) :
    (amendClient revision path shared f h).siteAt n = h.siteAt n := by
  rw [siteAt, siteAt, amendClient, List.getElem?_map]
  rcases h.spaces[n]? with _ | w
  · rfl
  · simp only [Option.map_some, Option.bind_some]
    split
    · rename_i c hc
      split <;> simp [hc]
    · rfl

theorem siteAt_set {n : Nat} {w w' : Workspace} (hw : h.spaces[n]? = some w)
    (hspaces : h'.spaces = h.spaces.set n w') (huri : w'.rootUri = w.rootUri)
    (hconfig : w'.config.isSome = w.config.isSome) (m : Nat) : h'.siteAt m = h.siteAt m := by
  obtain ⟨hlt, -⟩ := List.getElem?_eq_some_iff.1 hw
  rw [siteAt, siteAt, hspaces, List.getElem?_set]
  by_cases hm : n = m
  · subst hm
    rw [if_pos rfl, if_pos hlt, hw, Option.bind_some, Option.bind_some, huri]
    rcases hc : w.config with _ | c <;> rcases hc' : w'.config with _ | c' <;>
      simp [hc, hc'] at hconfig ⊢
  · rw [if_neg hm]

theorem Touch.siteAt (hstep : h.Touch h') (n : Nat) : h'.siteAt n = h.siteAt n := by
  rcases hstep with (hstep | hrun) | _
  · rcases hstep with _ | _ <;> rfl
  · exact (ensures_extendIgnores_cases (P := fun h' => h'.siteAt n = h.siteAt n) _ _ _ rfl
      (fun _ => siteAt_amendClient _ _ _ _ h n) fun _ => rfl).ok hrun
  · rfl

theorem Touch.engines (hstep : h.Touch h') : h'.engines = h.engines := by
  rcases hstep with (hstep | hrun) | _
  · rcases hstep with _ | _ <;> rfl
  · obtain ⟨spaces, cache, rfl⟩ := exists_of_extendIgnores hrun
    rfl
  · rfl

/-- The documents, the places of workspaces and the outside world are as they were. -/
structure Intact (h h' : Host) : Prop extends Extends h h' where
  engines : h'.engines = h.engines
  siteAt : ∀ n, h'.siteAt n = h.siteAt n

theorem Intact.refl (h : Host) : h.Intact h := ⟨.refl h, rfl, fun _ => rfl⟩

theorem Intact.trans {h'' : Host} (h1 : h.Intact h') (h2 : h'.Intact h'') : h.Intact h'' :=
  ⟨h1.toExtends.trans h2.toExtends, h2.engines.trans h1.engines,
    fun n => (h2.siteAt n).trans (h1.siteAt n)⟩

/-- **No step of a plugin touches a document**, the place of a workspace or the outside world. -/
theorem Work.intact (hstep : h.Work h') : h.Intact h' := by
  rcases hstep with hstep | _ | ⟨hw, _, _⟩ | _ | _ | _
  · exact ⟨(extends_of_touch (.single hstep)).1, hstep.engines, hstep.siteAt⟩
  · exact ⟨extends_amendClient _ _ _ _ h, rfl, siteAt_amendClient _ _ _ _ h⟩
  · exact ⟨.of_set rfl hw rfl rfl rfl, rfl, siteAt_set hw rfl rfl rfl⟩
  all_goals exact ⟨SameSpaces.extends ⟨rfl, rfl⟩, rfl, fun _ => rfl⟩

theorem intact_of_steps (hsteps : ReflTransGen Work h h') : h.Intact h' := by
  induction hsteps with
  | refl => exact .refl h
  | tail _ hstep ih => exact ih.trans hstep.intact

end Host

section

variable {α : Type}

theorem Moves.work {x : Job α} (hx : Moves (Desk.Along Host.Touch) x) :
    Moves (Desk.Along Host.Work) x :=
  hx.mono fun _ _ h => ⟨h.document, .touched h.host⟩

theorem Moves.workOfConsult {x : Job α} (hx : Moves (Desk.Along Host.Consult) x) :
    Moves (Desk.Along Host.Work) x :=
  hx.mono fun _ _ h => ⟨h.document, h.host.work⟩

end

/-! ## Workspaces that are equipped -/

/-- What the analysis engine takes to be asked about a document, in one step. The signatures of a
single name are another matter. -/
inductive Host.Engage : Host → Host → Prop where
  | asked (h : Host) {q : Request} (hq : ∀ name, q ≠ .signatures name) :
      Engage h { h with asked := h.asked ++ [q] }
  | settled (h : Host) {n : Nat} {c : Config} (hc : h.configAt n = some c)
      (query : Settings.Query) : Engage h { h with
        cache := (h.cache.fetch c.id query (c.compute h.machine query.path)).2 }
  | amended (h : Host) (revision : Nat) (path : List String) (shared : Settings.Settled → Bool)
      (f : Value → Value) : Engage h (amendClient revision path shared f h)
  | equipped (h : Host) {n : Nat} {w : Workspace} (hw : h.spaces[n]? = some w)
      (environments : List Value) (hasProject : Bool) :
      Engage h { h with spaces := h.spaces.set n { w with environments, hasProject } }

theorem Host.Engage.work {h h' : Host} (hstep : h.Engage h') : h.Work h' := by
  rcases hstep with _ | ⟨hc, query⟩ | _ | ⟨hw, _, _⟩
  · exact (Consult.asked h _).work
  · exact (Consult.settled h hc query).work
  · exact .amended h _ _ _ _
  · exact .equipped h hw _ _

theorem Moves.workOfEngage {α : Type} {x : Job α} (hx : Moves (Desk.Along Host.Engage) x) :
    Moves (Desk.Along Host.Work) x :=
  hx.mono fun _ _ h => ⟨h.document, h.host.work⟩

namespace Host

theorem moves_ask_work (q : Request) : Moves Work (ask q) :=
  (moves_ask q).mono fun _ _ => Consult.work

theorem moves_settings_work (n : Nat) (query : Settings.Query) : Moves Work (settings n query) :=
  (moves_settings n query).mono fun _ _ => Consult.work

theorem moves_pluginSettings_work (n : Nat) (plugin : String) (path : Value) :
    Moves Work (pluginSettings n plugin path) :=
  (moves_pluginSettings n plugin path).mono fun _ _ => Consult.work

theorem moves_ask_engage {q : Request} (hq : ∀ name, q ≠ .signatures name) : Moves Engage (ask q) :=
  Moves.modify fun h => .asked h hq

theorem moves_dropVariable (n : Nat) (name : String) : Moves Engage (dropVariable n name) :=
  (moves_config n).bind fun _ => Moves.modify fun h => .amended h _ _ _ _

theorem engage_equipped (h : Host) {n : Nat} {w : Workspace} (hw : h.spaces[n]? = some w)
    {q : Request} (hq : ∀ name, q ≠ .signatures name) (environments : List Value)
    (hasProject : Bool) :
    ReflTransGen Engage h { h with
      asked := h.asked ++ [q], spaces := h.spaces.set n { w with environments, hasProject } } := by
  refine (ReflTransGen.single (.asked h hq)).tail ?_
  exact .equipped { h with asked := h.asked ++ [q] } hw environments hasProject

theorem moves_preload (c : Caller) : Moves Work (preload c) := by
  refine (moves_pluginSettings_work _ _ _).bind fun _ => (Moves.ofExcept _).bind fun _ => ?_
  exact Moves.ite (moves_ask_work _) (Moves.pure _)

end Host

namespace Engine

open Host Job

theorem moves_engineSettings (d : Document) : Moves Engage (engineSettings d) := by
  refine (moves_space d.home).bind fun w => (Moves.pure _).ite ?_
  refine (moves_pluginSettings_of (fun h _ _ hc => .settled h hc) _ _ _).bind fun _ => ?_
  refine (Moves.ofExcept _).bind fun _ => ?_
  exact (Moves.ofExcept _).bind fun _ => (Moves.ofExcept _).bind fun _ => Moves.pure _

theorem moves_engineVariables (d : Document) (vars : Value) :
    Moves Engage (engineVariables d vars) := by
  unfold engineVariables
  split
  · exact Moves.pure _
  · exact (moves_dropVariable _ _).bind fun _ => Moves.pure _
  · exact Moves.throw _
  · exact Moves.throw _

theorem moves_ensureEnvironment (n : Nat) (path vars : Value) :
    Moves Engage (ensureEnvironment n path vars) := by
  refine (Moves.pure _).ite ((Moves.throw _).ite fun h => ?_)
  rw [ensures_bind, ensures_space]
  refine ⟨fun w hw => ?_, fun _ => .refl⟩
  split
  · exact .refl
  · simp only [Host.ask, setSpace, ensures_bind, ensures_modify, ensures_get]
    split
    · exact .single (.asked h (fun _ => Request.noConfusion))
    · exact engage_equipped h hw (fun _ => Request.noConfusion) _ _

theorem moves_searchPath (d : Document) (environment vars : Value) :
    Moves Engage (searchPath d environment vars) :=
  (moves_ensureEnvironment _ _ _).bind fun _ => Moves.get.bind fun _ => Moves.pure _

theorem moves_place {r : Desk → Desk → Prop} (position : Value) : Moves r (place position) := by
  refine Moves.get.bind fun desk => ?_
  split
  · exact moves_files.bind fun _ => Moves.ofExcept _
  · exact (Moves.pure _).ite ((Moves.ofExcept _).bind fun _ => (Moves.ofExcept _).bind fun _ =>
      Moves.throw _)

theorem moves_ask (q : Request) : Moves (Desk.Along Work) (Job.ask q) :=
  (moves_ask_work q).liftJob

theorem moves_load_engage (useDocumentPath : Bool) (position : Value) :
    Moves (Desk.Along Engage) (load useDocumentPath position) := by
  refine moves_document.bind fun d => (moves_engineSettings d).liftJob.bind ?_
  rintro ⟨environment, extra, vars⟩
  refine (moves_engineVariables d vars).liftJob.bind fun vars => ?_
  refine Moves.ite_bind (moves_ensureEnvironment _ _ _).liftJob ?_
  refine (moves_searchPath d environment vars).liftJob.bind fun _ => ?_
  refine (Moves.ofExcept _).bind fun _ => moves_held.bind fun _ => ?_
  refine (moves_space d.home).liftJob.bind fun _ => Moves.ite ?_ ?_
  · exact (moves_place position).bind fun _ => Moves.throw _
  · exact (moves_ask_engage (fun _ => Request.noConfusion)).liftJob

theorem moves_load (useDocumentPath : Bool) (position : Value) :
    Moves (Desk.Along Work) (load useDocumentPath position) :=
  (moves_load_engage useDocumentPath position).workOfEngage

theorem moves_query_engage {α : Type} (useDocumentPath : Bool) (question : String)
    (args : List (String × Value)) (answer : Engines → Reply α) :
    Moves (Desk.Along Engage) (query useDocumentPath question args answer) := by
  refine (moves_load_engage _ _).bind fun _ => ?_
  refine (moves_ask_engage (fun _ => Request.noConfusion)).liftJob.bind fun _ => ?_
  exact moves_engines.bind fun _ => Moves.ofExcept _

theorem ensures_query {α : Type} (useDocumentPath : Bool) (question : String)
    (args : List (String × Value)) (answer : Engines → Reply α) (desk : Desk) :
    Ensures (query useDocumentPath question args answer) desk
      (fun a t => answer desk.host.engines = .ok a ∧ ReflTransGen (Desk.Along Work) desk t)
      fun _ t => ReflTransGen (Desk.Along Work) desk t := by
  refine (moves_load useDocumentPath .null).ensures_bind .refl (fun _ t ht => ?_) fun _ _ h => h
  refine (moves_ask _).ensures_bind ht (fun _ t ht => ?_) fun _ _ h => h
  rw [Job.engines, ensures_bind, ensures_bind, ensures_get, ensures_pure, ensures_liftExcept]
  refine ⟨fun a ha => ⟨?_, ht⟩, fun _ _ => ht⟩
  rw [← (intact_of_steps (Desk.host_of_along ht)).engines]
  exact ha

theorem moves_query {α : Type} (useDocumentPath : Bool) (question : String)
    (args : List (String × Value)) (answer : Engines → Reply α) :
    Moves (Desk.Along Work) (query useDocumentPath question args answer) :=
  (moves_query_engage useDocumentPath question args answer).workOfEngage

end Engine

namespace Refactoring

open Host Job

theorem moves_openProject (n : Nat) (settings : Value) : Moves Work (openProject n settings) := by
  refine (Moves.ofExcept _).bind fun folder => fun h => ?_
  rw [ensures_bind, ensures_space]
  refine ⟨fun w hw => ?_, fun _ => .refl⟩
  have hrest : Moves Work (do
      let modules ← liftExcept (settings.getD "extensionModules" (.list []))
      Host.ask (.setPreference "extension_modules" modules)
      Host.ask (.setPreference "ignore_syntax_errors" (.bool true))
      Host.ask (.setPreference "ignore_bad_imports" (.bool true)) : Act Unit) :=
    (Moves.ofExcept _).bind fun _ => (moves_ask_work _).bind fun _ =>
      (moves_ask_work _).bind fun _ => moves_ask_work _
  have hequipped := engage_equipped h hw (q := .openProject w.rootPath folder)
    (fun _ => Request.noConfusion) w.environments true
  have hopened := ReflTransGen.mono (fun _ _ => Engage.work) _ _ hequipped
  rw [ensures_bind, Host.ask, ensures_modify, ensures_bind, setSpace, ensures_modify]
  exact (hrest _).mono (fun _ _ hsteps => hopened.trans hsteps) fun _ _ hsteps =>
    hopened.trans hsteps

theorem moves_ensureProject (n : Nat) (settings : Value) :
    Moves Work (ensureProject n settings) := by
  refine (moves_space n).bind fun w => Moves.ite ?_ (moves_ask_work _)
  exact (moves_openProject n settings).bind fun _ => moves_ask_work _

theorem moves_settings (c : Caller) : Moves (Desk.Along Work) (settings c) :=
  moves_document.bind fun _ => (moves_settings_work _ _).liftJob.bind fun _ => Moves.ofExcept _

theorem moves_checkResource {r : Desk → Desk → Prop} : Moves r checkResource := by
  refine moves_engines.bind fun engines => ?_
  split
  · exact Moves.throw _
  · exact Moves.pure _

theorem moves_renameByAnalysis (c : Caller) (position name : Value) :
    Moves (Desk.Along Work) (renameByAnalysis c position name) := by
  refine moves_document.bind fun d => moves_files.bind fun _ => (Moves.ofExcept _).bind fun _ => ?_
  refine (Engine.moves_place _).bind fun _ => Moves.bind ?_ fun files => ?_
  · refine (Engine.moves_query _ _ _ _).tryCatch fun f => ?_
    split <;> exact Moves.throw _
  · refine moves_machine.bind fun _ => (moves_space _).liftJob.bind fun _ => ?_
    exact (Moves.mapM (fun _ => Moves.ofExcept _) _).bind fun _ => Moves.pure _

theorem moves_renameByRefactoring (c : Caller) (position name : Value) :
    Moves (Desk.Along Work) (renameByRefactoring c position name) := by
  refine (moves_settings c).bind fun _ => (moves_ensureProject _ _).liftJob.bind fun _ => ?_
  refine moves_checkResource.bind fun _ => moves_document.bind fun d => moves_files.bind fun _ => ?_
  refine (Moves.ofExcept _).bind fun _ => (Engine.moves_ask _).bind fun _ => ?_
  refine moves_files.bind fun _ => (Moves.ofExcept _).bind fun _ => ?_
  refine (Engine.moves_ask _).bind fun _ => moves_engines.bind fun _ => ?_
  refine (Moves.ofExcept _).bind fun _ => moves_machine.bind fun _ => ?_
  refine (moves_space _).liftJob.bind fun _ => ?_
  exact (Moves.mapM (fun _ => Moves.ofExcept _) _).bind fun _ => Moves.pure _

end Refactoring

/-! ## The plugins that do not complete -/

open Host Job

namespace Format

theorem moves_borrowCheck : Moves (Desk.Along Work) borrowCheck := by
  intro desk
  rw [borrowCheck, ensures_bind, ensures_get]
  split
  · exact .single ⟨rfl, .checks _ _⟩
  · exact .refl

theorem moves_returnCheck : Moves (Desk.Along Work) returnCheck := by
  intro desk
  rw [returnCheck, ensures_bind, ensures_get]
  split
  · exact .single ⟨rfl, .checks _ _⟩
  · exact .refl

theorem moves_autopep8 (c : Caller) (lines : Option (Int × Int)) :
    Moves (Desk.Along Work) (autopep8 c lines) := by
  refine (moves_options c).workOfConsult.bind fun _ => moves_borrowCheck.bind fun _ => ?_
  refine (moves_sourceOr _).bind fun _ => (Engine.moves_ask _).bind fun _ => ?_
  refine moves_engines.bind fun _ => (Moves.ofExcept _).bind fun _ => ?_
  exact moves_returnCheck.bind fun _ => Moves.pure _

end Format

theorem Folding.moves_foldingRanges {r : Desk → Desk → Prop} : Moves r foldingRanges :=
  (moves_sourceOr _).bind fun _ => moves_engines.bind fun _ => (Moves.ofExcept _).bind fun _ =>
    Moves.pure _

namespace Navigation

theorem moves_definitions (c : Caller) (position : Value) :
    Moves (Desk.Along Work) (definitions c position) := by
  refine (moves_pluginSettings_work _ _ _).liftJob.bind fun _ => ?_
  refine (Engine.moves_place _).bind fun _ => (Engine.moves_load _ _).bind fun _ => ?_
  refine (Moves.ofExcept _).bind fun _ => (Moves.ofExcept _).bind fun _ => ?_
  refine (Engine.moves_ask _).bind fun _ => moves_engines.bind fun _ => ?_
  refine (Moves.ofExcept _).bind fun _ => moves_document.bind fun _ => ?_
  refine moves_machine.bind fun _ => ?_
  exact (Moves.mapM (fun _ => Moves.ofExcept _) _).bind fun _ => Moves.pure _

theorem moves_references (position : Value) (excludeDeclaration : Bool) :
    Moves (Desk.Along Work) (references position excludeDeclaration) := by
  refine (Engine.moves_place _).bind fun _ => (Engine.moves_query _ _ _ _).bind fun _ => ?_
  refine moves_document.bind fun _ => moves_machine.bind fun _ => ?_
  exact (Moves.mapM (fun _ => Moves.ofExcept _) _).bind fun _ => Moves.pure _

theorem moves_highlights (position : Value) : Moves (Desk.Along Work) (highlights position) := by
  refine (Engine.moves_place _).bind fun _ => (Engine.moves_query _ _ _ _).bind fun _ => ?_
  refine moves_document.bind fun _ => (Moves.mapM (fun _ => ?_) _).bind fun _ => Moves.pure _
  exact (Moves.ofExcept _).bind fun _ => Moves.pure _

end Navigation

theorem Hover.moves_hover (position : Value) : Moves (Desk.Along Work) (hover position) := by
  refine (Engine.moves_place _).bind fun _ => (Engine.moves_query _ _ _ _).bind fun _ => ?_
  refine moves_document.bind fun _ => moves_files.bind fun _ => (Moves.ofExcept _).bind fun _ => ?_
  split
  · exact Moves.pure _
  · exact (Moves.ofExcept _).bind fun _ => (Engine.moves_ask _).bind fun _ =>
      (Moves.ofExcept _).bind fun _ => Moves.pure _

theorem SignatureHelp.moves_signatureHelp (position : Value) :
    Moves (Desk.Along Work) (signatureHelp position) := by
  refine (Engine.moves_place _).bind fun _ => (Engine.moves_query _ _ _ _).bind fun _ => ?_
  split <;> exact Moves.pure _

theorem Symbols.moves_symbols (c : Caller) : Moves (Desk.Along Work) (symbols c) := by
  refine (moves_pluginSettings_work _ _ _).liftJob.bind fun _ => (Moves.ofExcept _).bind fun _ => ?_
  refine (Moves.ofExcept _).bind fun _ => (Engine.moves_query _ _ _ _).bind fun _ => ?_
  exact moves_document.bind fun _ => moves_files.bind fun _ => (Moves.ofExcept _).bind fun _ =>
    Moves.pure _

namespace Hook

/-- Is the task to offer completions, or to resolve one of them? -/
def isCompletion : Hook → Bool
  | completions _ | resolveCompletion _ => true
  | _ => false

/-- **A plugin leaves the document as it is**, unless it completes. -/
theorem moves_implementation? {c : Caller} {p : Plugin} {hook : Hook} {job : Job Value}
    (hjob : implementation? c p hook = some job) (hhook : hook.isCompletion = false) :
    Moves (Desk.Along Work) job := by
  have hlint : ∀ {isSaved : Bool}, implementation? c p (.lint isSaved) = some job →
      Moves (Desk.Along Work) job := fun hjob => (moves_lint hjob).work
  cases hook with
  | completions | resolveCompletion => cases hhook
  | lint => exact hlint hjob
  | start =>
    cases p <;> cases hjob
    exact (moves_preload c).liftJob.bind fun _ => Moves.pure _
  | definitions =>
    cases p <;> cases hjob
    exact Navigation.moves_definitions c _
  | highlights =>
    cases p <;> cases hjob
    exact Navigation.moves_highlights _
  | hover =>
    cases p <;> cases hjob
    exact Hover.moves_hover _
  | references =>
    cases p <;> cases hjob
    exact Navigation.moves_references _ _
  | rename =>
    cases p <;> cases hjob
    · exact Refactoring.moves_renameByAnalysis c _ _
    · exact Refactoring.moves_renameByRefactoring c _ _
  | signatureHelp =>
    cases p <;> cases hjob
    exact SignatureHelp.moves_signatureHelp _
  | symbols =>
    cases p <;> cases hjob
    exact Symbols.moves_symbols c
  | folding =>
    cases p <;> cases hjob
    exact Folding.moves_foldingRanges
  | formatDocument =>
    cases p <;> cases hjob
    · exact Format.moves_autopep8 c none
    · exact (Format.moves_yapf none).workOfConsult
  | formatRange =>
    cases p <;> cases hjob
    · exact (Moves.ofExcept _).bind fun _ => Format.moves_autopep8 c _
    · exact (Moves.ofExcept _).bind fun _ => (Format.moves_yapf _).workOfConsult

end Hook
end LangServer
