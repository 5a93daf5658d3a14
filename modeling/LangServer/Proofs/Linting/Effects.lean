import LangServer.Proofs.Settings.Cached
import Mathlib.Logic.Relation

/-!
# What linters do to the host

A linter reads the document and the host, and it changes the host in four ways only. Most linters
put questions to engines and ask for settings (`Host.Consult`); one may add codes to a list of codes
to ignore (`Host.Amend`), and one remembers its findings (`Host.Touch`). Every linter consists of
such steps, whether it succeeds or fails (`Hook.moves_lint`), so that what each of these steps
keeps, a lint keeps.
-/

namespace LangServer

open Relation

/-! ## Actions that move in steps -/

section

variable {ε σ α β : Type} {r : σ → σ → Prop}

/-- Whether it succeeds or fails, the action changes the state in steps of the relation. -/
def Moves (r : σ → σ → Prop) (x : EStateM ε σ α) : Prop :=
  ∀ s, Ensures x s (fun _ t => ReflTransGen r s t) fun _ t => ReflTransGen r s t

namespace Moves

theorem pure (a : α) : Moves r (Pure.pure a : EStateM ε σ α) := fun _ => .refl

theorem throw (e : ε) : Moves r (MonadExcept.throw e : EStateM ε σ α) := fun _ => .refl

theorem get : Moves r (MonadState.get : EStateM ε σ σ) := fun _ => .refl

theorem ofExcept (x : Except ε α) : Moves r (liftExcept x : EStateM ε σ α) := by
  cases x with
  | ok a => exact pure a
  | error e => exact throw e

theorem modify {f : σ → σ} (hf : ∀ s, r s (f s)) : Moves r (modify f : EStateM ε σ PUnit) :=
  fun s => .single (hf s)

variable {x : EStateM ε σ α}

theorem bind {f : α → EStateM ε σ β} (hx : Moves r x)
    (hf : ∀ a, Moves r (f a)) : Moves r (x >>= f) := by
  intro s
  refine (hx s).bind (fun a t ht => ?_) fun _ _ ht => ht
  exact (hf a t).mono (fun _ _ hu => ht.trans hu) fun _ _ hu => ht.trans hu

theorem mono {r' : σ → σ → Prop} (hx : Moves r x) (hr : ∀ s t, r s t → r' s t) : Moves r' x :=
  fun s => (hx s).mono (fun _ t ht => ReflTransGen.mono hr s t ht) fun _ t ht =>
    ReflTransGen.mono hr s t ht

theorem head (hx : Moves r x) {s t : σ} (hst : r s t) :
    Ensures x t (fun _ u => ReflTransGen r s u) fun _ u => ReflTransGen r s u :=
  (hx t).mono (fun _ _ hsteps => .head hst hsteps) fun _ _ hsteps => .head hst hsteps

theorem tryCatch {handle : ε → EStateM ε σ α} (hx : Moves r x)
    (hhandle : ∀ e, Moves r (handle e)) : Moves r (MonadExcept.tryCatch x handle) := by
  intro s
  show Ensures (EStateM.tryCatch x handle) s _ _
  have hrun := hx s
  rw [Ensures] at hrun ⊢
  delta EStateM.tryCatch
  cases hs : x s with
  | ok a t =>
    rw [hs] at hrun
    exact hrun
  | error e t =>
    rw [hs] at hrun
    have ht : ReflTransGen r s t := hrun
    exact (hhandle e t).mono (fun _ _ hu => ht.trans hu) fun _ _ hu => ht.trans hu

theorem mapM {f : α → EStateM ε σ β} (hf : ∀ a, Moves r (f a)) (xs : List α) :
    Moves r (xs.mapM f) := by
  induction xs with
  | nil => exact pure []
  | cons a xs ih =>
    rw [List.mapM_cons]
    exact (hf a).bind fun _ => ih.bind fun _ => pure _

theorem forIn {body : α → PUnit → EStateM ε σ (ForInStep PUnit)}
    (hbody : ∀ a, Moves r (body a ⟨⟩)) (xs : List α) : Moves r (forIn xs ⟨⟩ body) := by
  induction xs with
  | nil => exact pure _
  | cons a xs ih =>
    rw [List.forIn_cons]
    refine (hbody a).bind fun next => ?_
    cases next with
    | done => exact pure _
    | yield => exact ih

theorem ite {c : Prop} [Decidable c] {x y : EStateM ε σ α} (hx : Moves r x) (hy : Moves r y) :
    Moves r (if c then x else y) := by
  split
  · exact hx
  · exact hy

theorem ite_bind {c : Prop} [Decidable c] {rest : EStateM ε σ β}
    (hx : Moves r x) (hrest : Moves r rest) : Moves r (if c then x >>= fun _ => rest else rest) :=
  ite (hx.bind fun _ => hrest) hrest

theorem ensures_bind (hx : Moves r x) {f : α → EStateM ε σ β} {s t : σ}
    {good : β → σ → Prop} {bad : ε → σ → Prop} (hst : ReflTransGen r s t)
    (hf : ∀ a u, ReflTransGen r s u → Ensures (f a) u good bad)
    (hbad : ∀ e u, ReflTransGen r s u → bad e u) : Ensures (x >>= f) t good bad :=
  (hx t).bind (fun a u hu => hf a u (hst.trans hu)) fun e u hu => hbad e u (hst.trans hu)

end Moves
end

/-! ## Steps of linters -/

/-- A step that only looks something up. -/
inductive Host.Consult : Host → Host → Prop where
  /-- A question is put to an engine. -/
  | asked (h : Host) (r : Request) : Consult h { h with asked := h.asked ++ [r] }
  /-- The settings of a configuration are asked for. -/
  | settled (h : Host) {n : Nat} {c : Config} (hc : h.configAt n = some c)
      (query : Settings.Query) : Consult h { h with
        cache := (h.cache.fetch c.id query (c.compute h.machine query.path)).2 }

/-- A step that may change settings. -/
inductive Host.Amend : Host → Host → Prop where
  | consulted {h h' : Host} (hstep : h.Consult h') : Amend h h'
  /-- Codes are added to a list of codes to ignore. -/
  | grown {h h' : Host} {n : Nat} {query : Settings.Query} {codes : List Value}
      (hrun : Host.extendIgnores n query codes h = .ok () h') : Amend h h'

/-- What a linter does to the host in one step. -/
inductive Host.Touch : Host → Host → Prop where
  | amended {h h' : Host} (hstep : h.Amend h') : Touch h h'
  /-- What was found in a file is remembered. -/
  | found (h : Host) (path : String) (findings : List Diagnostic) : Touch h { h with
      lastFindings := Value.insert path findings h.lastFindings }

/-- A step of the host at a desk, whose document stays. -/
structure Desk.Along (r : Host → Host → Prop) (desk desk' : Desk) : Prop where
  document : desk'.document = desk.document
  host : r desk.host desk'.host

section

variable {α : Type} {r : Host → Host → Prop}

theorem Desk.along_of_host {desk : Desk} {h : Host} (hh : ReflTransGen r desk.host h) :
    ReflTransGen (Along r) desk { desk with host := h } :=
  ReflTransGen.lift (fun h : Host => { desk with host := h }) (fun _ _ ht => .mk rfl ht) _ _ hh

theorem Moves.liftJob {x : Act α} (hx : Moves r x) : Moves (Desk.Along r) (liftM x : Job α) := by
  intro desk
  rw [ensures_liftJob]
  exact (hx desk.host).mono (fun _ _ => Desk.along_of_host) fun _ _ => Desk.along_of_host

theorem Moves.amend {x : Job α} (hx : Moves (Desk.Along Host.Consult) x) :
    Moves (Desk.Along Host.Amend) x :=
  hx.mono fun _ _ h => ⟨h.document, .consulted h.host⟩

theorem Moves.touch {x : Job α} (hx : Moves (Desk.Along Host.Amend) x) :
    Moves (Desk.Along Host.Touch) x :=
  hx.mono fun _ _ h => ⟨h.document, .amended h.host⟩

theorem Desk.document_of_along {desk desk' : Desk} (h : ReflTransGen (Along r) desk desk') :
    desk'.document = desk.document := by
  induction h with
  | refl => rfl
  | tail _ hstep ih => exact hstep.document.trans ih

theorem Desk.host_of_along {desk desk' : Desk} (h : ReflTransGen (Along r) desk desk') :
    ReflTransGen r desk.host desk'.host := by
  induction h with
  | refl => exact .refl
  | tail _ hstep ih => exact ih.tail hstep.host

end

namespace Host

theorem moves_space {r : Host → Host → Prop} (n : Nat) : Moves r (space n) := by
  refine Moves.get.bind fun h => ?_
  split
  · exact Moves.pure _
  · exact Moves.throw _

theorem moves_config {r : Host → Host → Prop} (n : Nat) : Moves r (config n) := by
  refine (moves_space n).bind fun w => ?_
  split
  · exact Moves.pure _
  · exact Moves.throw _

section

variable {r : Host → Host → Prop}
  (hr : ∀ {h n client revision fault? h'}, h.Updated n client revision fault? h' → r h h')
include hr

theorem moves_updateConfig_of (n : Nat) (client : Value) (revision : Nat) :
    Moves r (updateConfig n client revision) := by
  intro h
  refine (ensures_updateConfig h n client revision).mono (fun _ _ hu => .single (hr hu)) ?_
  rintro f h' (rfl | hu)
  · exact .refl
  · exact .single (hr hu)

theorem moves_updateFrom_of (n : Nat) (settings : Value) (revision : Nat) :
    Moves r (updateFrom n settings revision) :=
  (moves_config n).bind fun _ => (Moves.ofExcept _).bind fun _ => moves_updateConfig_of hr _ _ _

theorem moves_updateSpace_of (n : Nat) (settings : Value) (revision : Nat) :
    Moves r (updateSpace n settings revision) := by
  refine (moves_updateFrom_of hr n settings revision).bind fun _ => (moves_space n).bind fun w => ?_
  refine (Moves.forIn (fun member => ?_) w.documents).bind fun _ => Moves.pure _
  exact (moves_updateFrom_of hr _ _ _).bind fun _ => Moves.pure _

end

theorem moves_ask (r : Request) : Moves Consult (ask r) := Moves.modify fun h => .asked h r

section

variable {r : Host → Host → Prop} (hr : ∀ (h : Host) {n : Nat} {c : Config},
  h.configAt n = some c → ∀ query : Settings.Query,
    r h { h with cache := (h.cache.fetch c.id query (c.compute h.machine query.path)).2 })

include hr

/-- Asking for settings does nothing to the host but fill the cache. -/
theorem moves_settings_of (n : Nat) (query : Settings.Query) : Moves r (settings n query) := by
  intro h
  rw [settings, ensures_bind, ensures_config_iff]
  refine ⟨fun c hc => ?_, fun _ => .refl⟩
  simp only [ensures_bind, ensures_get, ensures_onCache_iff, Config.settings,
    Config.ensures_settled, ensures_pure]
  have hfetch := hr h hc query
  refine ⟨fun _ => ?_, fun _ => .refl⟩
  cases hanswer : h.cache.fetch c.id query (c.compute h.machine query.path) with
  | mk answer cache =>
    rw [hanswer] at hfetch
    cases answer <;> exact .single hfetch

theorem moves_pluginSettings_of (n : Nat) (plugin : String) (path : Value) :
    Moves r (pluginSettings n plugin path) := fun h =>
  (ensures_pluginSettings_iff h n plugin path _ _).2
    ((moves_settings_of hr n (.named path)).bind (fun _ => .ofExcept _) h)

end

theorem moves_settings (n : Nat) (query : Settings.Query) : Moves Consult (settings n query) :=
  moves_settings_of (fun h _ _ hc => .settled h hc) n query

theorem moves_pluginSettings (n : Nat) (plugin : String) (path : Value) :
    Moves Consult (pluginSettings n plugin path) :=
  moves_pluginSettings_of (fun h _ _ hc => .settled h hc) n plugin path

/-- **What adding codes does**: nothing, or it changes the client's settings, or one answer. -/
theorem ensures_extendIgnores_cases {P : Host → Prop} {h : Host} (n : Nat)
    (query : Settings.Query) (codes : List Value) (hsame : P h)
    (hclient : ∀ revision, P (amendClient revision Config.ignorePath (·.clientsIgnores)
      (extend codes) h))
    (hanswer : ∀ owner, P { h with cache := ⟨h.cache.entries.map fun e =>
      if Settings.Cache.answers owner query e then { e with settled := { e.settled with
        value := e.settled.value.modifyAt (extend codes) Config.ignorePath } } else e⟩ }) :
    Ensures (extendIgnores n query codes) h (fun _ h' => P h') fun _ h' => h' = h := by
  rw [extendIgnores, ensures_bind, ensures_config_iff]
  refine ⟨fun c _ => ?_, fun _ => rfl⟩
  rw [ensures_bind, ensures_get]
  split
  · exact hsame
  · split
    · exact hclient c.revision
    · exact hanswer c.id

theorem moves_extendIgnores (n : Nat) (query : Settings.Query) (codes : List Value) :
    Moves Amend (extendIgnores n query codes) := by
  intro h
  rw [Ensures]
  cases hrun : extendIgnores n query codes h with
  | ok _ h' => exact .single (.grown hrun)
  | error f h' =>
    -- only a missing configuration makes it fail, and then nothing has happened
    rw [(ensures_extendIgnores_cases (P := fun _ => True) n query codes trivial (fun _ => trivial)
      fun _ => trivial).error hrun]

/-- The hosts differ in their workspaces and the cache only. -/
def Aside (h h' : Host) : Prop := ∃ spaces cache, h' = { h with spaces, cache }

theorem Aside.of_steps {h h' : Host} (hsteps : ReflTransGen Aside h h') : h.Aside h' := by
  induction hsteps with
  | refl => exact ⟨_, _, rfl⟩
  | tail _ hstep ih =>
    obtain ⟨_, _, rfl⟩ := ih
    obtain ⟨spaces, cache, rfl⟩ := hstep
    exact ⟨spaces, cache, rfl⟩

theorem ensures_extendIgnores_aside (h : Host) (n : Nat) (query : Settings.Query)
    (codes : List Value) :
    Ensures (extendIgnores n query codes) h (fun _ h' => h.Aside h') fun _ h' => h.Aside h' := by
  refine (ensures_extendIgnores_cases (P := h.Aside) n query codes ⟨_, _, rfl⟩
    (fun _ => ⟨_, _, rfl⟩) fun _ => ⟨_, _, rfl⟩).mono (fun _ _ haside => haside) ?_
  rintro _ _ rfl
  exact ⟨_, _, rfl⟩

theorem exists_of_extendIgnores {h h' : Host} {n : Nat} {query : Settings.Query}
    {codes : List Value} (hrun : extendIgnores n query codes h = .ok () h') :
    ∃ spaces cache, h' = { h with spaces, cache } :=
  (ensures_extendIgnores_aside h n query codes).ok hrun

end Host

namespace Job

variable {r : Desk → Desk → Prop}

theorem moves_document : Moves r document := by
  refine Moves.get.bind fun desk => ?_
  split
  · exact Moves.pure _
  · exact Moves.throw _

theorem moves_files : Moves r files := Moves.get.bind fun _ => Moves.pure _

theorem moves_machine : Moves r machine := Moves.get.bind fun _ => Moves.pure _

theorem moves_engines : Moves r engines := Moves.get.bind fun _ => Moves.pure _

theorem moves_sourceOr (fault : Fault) : Moves r (sourceOr fault) :=
  moves_document.bind fun _ => moves_files.bind fun _ => Moves.ofExcept _

theorem moves_held : Moves r held :=
  moves_document.bind fun _ => moves_files.bind fun _ => Moves.ofExcept _

theorem moves_lines : Moves r lines :=
  moves_document.bind fun _ => moves_files.bind fun _ => Moves.ofExcept _

theorem moves_ask (q : Request) : Moves (Desk.Along Host.Consult) (ask q) :=
  (Host.moves_ask q).liftJob

end Job

/-! ## The linters -/

namespace Lint

open Job

section

variable {r : Host → Host → Prop}

theorem moves_start (hr : ∀ h q, r h { h with asked := h.asked ++ [q] }) (command : List Value) :
    Moves r (start command) := by
  refine (Moves.modify fun h => hr h _).bind fun _ => ?_
  split
  · exact Moves.get.bind fun _ => (Moves.throw _).ite (Moves.pure _)
  · exact Moves.pure _

theorem moves_startOr (hr : ∀ h q, r h { h with asked := h.asked ++ [q] })
    (command otherwise : List Value) : Moves r (startOr command otherwise) := by
  refine (moves_start hr command).tryCatch fun f => ?_
  split
  · exact moves_start hr otherwise
  · exact Moves.throw _

/-- Running a program does nothing to the host but ask. -/
theorem moves_run (hr : ∀ h q, r h { h with asked := h.asked ++ [q] }) (program : Value)
    (module : String) (args : List Value) : Moves (Desk.Along r) (run program module args) := by
  refine (moves_startOr hr _ _).liftJob.bind fun _ => (moves_sourceOr _).bind fun source => ?_
  have hfeed : Moves r (Host.ask (.feed source)) := Moves.modify fun h => hr h _
  exact hfeed.liftJob.bind fun _ => moves_engines.bind fun _ => Moves.pure _

end

section

variable {r : Host → Host → Prop}

theorem Flake8.moves_addFileIgnores
    (hr : ∀ n query codes, Moves r (Host.extendIgnores n query codes)) (home : Nat) (path : String)
    (ignores : Value) (entries : List Value) :
    Moves r (addFileIgnores home path ignores entries) := by
  induction entries generalizing ignores with
  | nil => exact Moves.pure _
  | cons entry rest ih =>
    rw [addFileIgnores]
    refine (Moves.ofExcept _).bind fun codes => ?_
    split
    · exact ih _
    · split
      · exact (hr _ _ _).bind fun _ => ih _
      · exact Moves.throw _

/-- Finding the codes does nothing to the host but add some. -/
theorem Flake8.moves_ignored (hr : ∀ n query codes, Moves r (Host.extendIgnores n query codes))
    (home : Nat) (path : String) (settings : Value) : Moves r (ignored home path settings) := by
  refine (Moves.ofExcept _).bind fun _ => (Moves.ofExcept _).bind fun _ => ?_
  refine Moves.ite ?_ (Moves.pure _)
  exact (Moves.ofExcept _).bind fun _ => Flake8.moves_addFileIgnores hr _ _ _ _

end

theorem Flake8.moves_prepare (home : Nat) (path : String) :
    Moves Host.Amend (prepare home path) := by
  refine ((Host.moves_pluginSettings _ _ _).mono fun _ _ => .consulted).bind fun settings => ?_
  exact (Flake8.moves_ignored Host.moves_extendIgnores _ _ _).bind fun _ => Moves.ofExcept _

theorem Flake8.moves_runOn {r : Host → Host → Prop}
    (hr : ∀ h q, r h { h with asked := h.asked ++ [q] }) (program : Value) (args : List Value) :
    Moves (Desk.Along r) (runOn program args) :=
  (Moves.ofExcept _).bind fun _ => moves_files.bind fun _ => (Moves.ofExcept _).bind fun _ =>
    moves_run hr _ _ _

theorem Flake8.moves_lint (c : Caller) : Moves (Desk.Along Host.Amend) (Flake8.lint c) := by
  refine moves_document.bind fun d => (Flake8.moves_prepare _ _).liftJob.bind fun command => ?_
  exact (Flake8.moves_runOn (fun h q => .consulted (.asked h q)) _ _).bind fun _ =>
    moves_files.bind fun _ => Moves.ofExcept _

theorem Mccabe.moves_lint (c : Caller) : Moves (Desk.Along Host.Consult) (Mccabe.lint c) := by
  refine moves_document.bind fun d => (Host.moves_pluginSettings _ _ _).liftJob.bind fun _ => ?_
  refine (Moves.ofExcept _).bind fun _ => moves_held.bind fun _ => moves_engines.bind fun _ => ?_
  exact (Moves.pure _).ite (moves_files.bind fun _ => (Moves.ofExcept _).bind fun _ => Moves.pure _)

theorem Pycodestyle.moves_lint (c : Caller) :
    Moves (Desk.Along Host.Consult) (Pycodestyle.lint c) := by
  refine moves_document.bind fun d => (Host.moves_pluginSettings _ _ _).liftJob.bind fun _ => ?_
  refine (Moves.ofExcept _).bind fun _ => (moves_ask _).bind fun _ => ?_
  refine moves_engines.bind fun _ => (Moves.ofExcept _).bind fun _ => moves_lines.bind fun _ => ?_
  exact (Moves.ofExcept _).bind fun _ => (Moves.mapM (fun _ => Moves.ofExcept _) _).bind fun _ =>
    Moves.pure _

theorem Pydocstyle.moves_lint (c : Caller) :
    Moves (Desk.Along Host.Consult) (Pydocstyle.lint c) := by
  refine moves_document.bind fun d => (Host.moves_pluginSettings _ _ _).liftJob.bind fun _ => ?_
  refine (Moves.ofExcept _).bind fun _ => (Moves.ofExcept _).bind fun _ => ?_
  refine (Moves.pure _).ite ((Moves.ofExcept _).bind fun _ => (Moves.ofExcept _).bind fun _ => ?_)
  refine (Moves.pure _).ite ((Moves.ofExcept _).bind fun _ => (moves_ask _).bind fun _ => ?_)
  exact moves_held.bind fun _ => moves_files.bind fun _ => moves_engines.bind fun _ =>
    Moves.ofExcept _

theorem Pyflakes.moves_lint : Moves (Desk.Along Host.Consult) Pyflakes.lint := by
  refine moves_lines.bind fun _ => moves_document.bind fun _ => (moves_sourceOr _).bind fun _ => ?_
  exact (moves_ask _).bind fun _ => moves_engines.bind fun _ => (Moves.ofExcept _).bind fun _ =>
    Moves.ofExcept _

theorem Pylint.moves_lintFile (isSaved : Bool) (flags : String) :
    Moves (Desk.Along Host.Touch) (Pylint.lintFile isSaved flags) := by
  refine moves_document.bind fun d => ?_
  refine Moves.ite (Moves.get.bind fun _ => Moves.pure _) ?_
  refine moves_machine.bind fun _ => (moves_ask _).amend.touch.bind fun _ => ?_
  refine moves_engines.bind fun engines => ?_
  split
  · exact Moves.throw _
  · refine moves_files.bind fun _ => moves_engines.bind fun _ =>
      (Moves.ofExcept _).bind fun found => ?_
    exact (Moves.modify fun desk => ⟨rfl, .found _ _ _⟩).bind fun _ => Moves.pure _

theorem Pylint.moves_lintByProgram (program args : Value) :
    Moves (Desk.Along Host.Consult) (Pylint.lintByProgram program args) := by
  refine moves_document.bind fun _ => (Moves.ofExcept _).bind fun _ => ?_
  exact (moves_run Host.Consult.asked _ _ _).bind fun _ => moves_files.bind fun _ =>
    Moves.ofExcept _

theorem Pylint.moves_lint (c : Caller) (isSaved : Bool) :
    Moves (Desk.Along Host.Touch) (Pylint.lint c isSaved) := by
  refine (Host.moves_pluginSettings _ _ _).liftJob.amend.touch.bind fun _ => ?_
  refine (Moves.ofExcept _).bind fun _ => Moves.ite ((Moves.ofExcept _).bind fun _ => ?_)
    ((Moves.ofExcept _).bind fun _ => Pylint.moves_lintFile _ _)
  exact (Pylint.moves_lintByProgram _ _).amend.touch

end Lint

namespace Hook

variable {r : Desk → Desk → Prop} {c : Caller}

/-- **Every linter changes the host in such steps.** -/
theorem moves_lint {p : Plugin} {isSaved : Bool} {job : Job Value}
    (hjob : implementation? c p (.lint isSaved) = some job) :
    Moves (Desk.Along Host.Touch) job := by
  cases p <;> cases hjob
  · exact (Lint.Flake8.moves_lint c).touch.bind fun _ => Moves.pure _
  · refine (Lint.Mccabe.moves_lint c).amend.touch.bind fun answer => ?_
    cases answer <;> exact Moves.pure _
  · exact (Lint.Pycodestyle.moves_lint c).amend.touch.bind fun _ => Moves.pure _
  · exact (Lint.Pydocstyle.moves_lint c).amend.touch.bind fun _ => Moves.pure _
  · exact Lint.Pyflakes.moves_lint.amend.touch.bind fun _ => Moves.pure _
  · exact (Lint.Pylint.moves_lint c isSaved).bind fun _ => Moves.pure _

theorem moves_collect {jobs : List (Job Value)} (h : ∀ job ∈ jobs, Moves r job) :
    Moves r (collect jobs) := by
  induction jobs with
  | nil => exact Moves.pure _
  | cons job rest ih =>
    exact (h job List.mem_cons_self).bind fun _ =>
      (ih fun job hjob => h job (List.mem_cons_of_mem _ hjob)).bind fun _ => Moves.pure _

theorem moves_first {jobs : List (Job Value)} (h : ∀ job ∈ jobs, Moves r job) :
    Moves r (first jobs) := by
  induction jobs with
  | nil => exact Moves.pure _
  | cons job rest ih =>
    refine (h job List.mem_cons_self).bind fun _ => Moves.ite ?_ (Moves.pure _)
    exact ih fun job hjob => h job (List.mem_cons_of_mem _ hjob)

theorem moves_perform {h : Hook} {plugins : List Plugin}
    (hjobs : ∀ p ∈ plugins, ∀ job, implementation? c p h = some job → Moves r job) :
    Moves r (h.perform c plugins) := by
  have hall : ∀ job ∈ (h.order plugins).filterMap (implementation? c · h), Moves r job := by
    intro job hjob
    obtain ⟨p, hp, hsome⟩ := List.mem_filterMap.1 hjob
    refine hjobs p ?_ job hsome
    rw [order, List.mem_append, List.mem_filter, List.mem_filter, List.mem_reverse] at hp
    rcases hp with hp | hp <;> exact hp.1
  exact Moves.ite (moves_first hall) ((moves_collect hall).bind fun _ => Moves.pure _)

theorem reflTransGen_call {h : Hook} {plugins : List Plugin}
    (hmoves : Moves r (h.perform c plugins)) (desk : Desk) :
    ReflTransGen r desk (h.call c plugins desk).2 := by
  have hrun := hmoves desk
  rw [Ensures] at hrun
  rw [call]
  cases hdone : h.perform c plugins desk with
  | ok answer t =>
    rw [hdone] at hrun
    exact hrun
  | error f t =>
    rw [hdone] at hrun
    exact hrun

end Hook
end LangServer
