import LangServer.Proofs.Settings.Cached

/-!
# What a document is loaded with

Before the engine is asked about a document, the document is loaded, with the root path, the
settings and the environments of the workspace that the document calls its home
(`Document.LoadedWith`). Which workspace stores the document does not matter.
-/

namespace LangServer

/-- The environments that were made for a workspace. -/
def Host.environmentsAt (h : Host) (n : Nat) : Option (List Value) :=
  h.spaces[n]?.map (·.environments)

/-- Loading a document of the workspace `n` has changed nothing of the outside world or of where
workspaces lie, and no environments but those of `n`. -/
structure Host.LoadedIn (n : Nat) (h h' : Host) : Prop where
  machine : h'.machine = h.machine
  engines : h'.engines = h.engines
  rootPathAt : ∀ m, h'.rootPathAt m = h.rootPathAt m
  environments : ∀ m, m ≠ n → h'.environmentsAt m = h.environmentsAt m

namespace Host.LoadedIn

variable {n : Nat} {h h' h'' : Host}

theorem refl (n : Nat) (h : Host) : h.LoadedIn n h := ⟨rfl, rfl, fun _ => rfl, fun _ _ => rfl⟩

theorem trans (h1 : h.LoadedIn n h') (h2 : h'.LoadedIn n h'') : h.LoadedIn n h'' :=
  ⟨h2.machine.trans h1.machine, h2.engines.trans h1.engines,
    fun m => (h2.rootPathAt m).trans (h1.rootPathAt m),
    fun m hm => (h2.environments m hm).trans (h1.environments m hm)⟩

end Host.LoadedIn

/-- Settings that change in place are no concern of loading. -/
theorem Host.loadedIn_amendClient (revision : Nat) (path : List String)
    (shared : Settings.Settled → Bool) (f : Value → Value) (h : Host) (n : Nat) :
    h.LoadedIn n (amendClient revision path shared f h) ∧
      (amendClient revision path shared f h).environmentsAt n = h.environmentsAt n := by
  have henvironments : ∀ m, (amendClient revision path shared f h).environmentsAt m =
      h.environmentsAt m := fun _ => map_spaces_amendClient fun _ _ => rfl
  exact ⟨⟨rfl, rfl, fun _ => map_spaces_amendClient fun _ _ => rfl, fun m _ => henvironments m⟩,
    henvironments n⟩

namespace Engine

variable {h : Host} {d : Document}

/-! ## Settings -/

/-- The configuration of a workspace, if it has one, names an environment and more directories for
the documents with a path. -/
def Settles (h : Host) (n : Nat) (path : String) (environment extra : Value) : Prop :=
  match h.configAt n with
  | none => environment = .null ∧ extra = .null
  | some _ => ∃ settings h', Host.pluginSettings n "jedi" (.str path) h = .ok settings h' ∧
      settings.get "environment" = .ok environment ∧ settings.get "extra_paths" = .ok extra

theorem ensures_engineSettings (h : Host) (d : Document) :
    Ensures (engineSettings d) h
      (fun settings h' => Settles h d.home d.path settings.1 settings.2.1 ∧
        ∃ cache, h' = { h with cache })
      fun _ h' => ∃ cache, h' = { h with cache } := by
  simp only [engineSettings, ensures_bind, Host.ensures_space]
  refine ⟨fun w hw => ?_, fun _ => ⟨h.cache, rfl⟩⟩
  have hconfig : h.configAt d.home = w.config := by rw [Host.configAt, hw, Option.bind_some]
  simp only [Settles, hconfig]
  rcases w.config with _ | c
  · exact ⟨⟨rfl, rfl⟩, h.cache, rfl⟩
  · rw [if_neg (by simp)]
    have hrun := (Host.ensures_pluginSettings_cache h d.home "jedi" (.str d.path)).and
      (Ensures.self (Host.pluginSettings d.home "jedi" (.str d.path)) h)
    refine hrun.bind ?_ fun _ _ hfailed => hfailed.1
    rintro settings h' ⟨hcache, hrun⟩
    simp only [ensures_bind, ensures_liftExcept, ensures_pure]
    exact ⟨fun environment henvironment => ⟨fun extra hextra =>
      ⟨fun _ _ => ⟨⟨settings, h', hrun, henvironment, hextra⟩, hcache⟩, fun _ _ => hcache⟩,
      fun _ _ => hcache⟩, fun _ _ => hcache⟩

theorem ensures_engineVariables (h : Host) (d : Document) (vars : Value) :
    Ensures (engineVariables d vars) h
      (fun _ h' => h.LoadedIn d.home h' ∧ h'.environmentsAt d.home = h.environmentsAt d.home)
      fun _ h' => h.LoadedIn d.home h' := by
  have hrefl := Host.LoadedIn.refl d.home h
  cases vars with
  | object members =>
    simp only [engineVariables, Host.dropVariable, ensures_bind]
    refine (Host.ensures_config h d.home).mono ?_ ?_
    · rintro config _ rfl
      exact Host.loadedIn_amendClient _ _ _ _ _ _
    · rintro _ _ rfl
      exact hrefl
  | null => exact ⟨hrefl, rfl⟩
  | _ => exact hrefl

/-! ## Environments -/

/-- The environments of a workspace once one is needed. Null stands for the default one, which is
always there. -/
def withEnvironment (environment : Value) (environments : List Value) : List Value :=
  if environment.isNull || environments.any (environment.alike ·) then environments
  else environments ++ [environment]

theorem withEnvironment_withEnvironment (environment : Value) (environments : List Value) :
    withEnvironment environment (withEnvironment environment environments) =
      withEnvironment environment environments := by
  by_cases hthere : (environment.isNull || environments.any (environment.alike ·)) = true
  · have hsame : withEnvironment environment environments = environments := if_pos hthere
    rw [hsame, hsame]
  · have hnew : withEnvironment environment environments = environments ++ [environment] :=
      if_neg hthere
    rw [hnew]
    exact if_pos (by simp [(Value.alike_iff environment environment).2 rfl])

theorem ensures_ensureEnvironment (h : Host) (n : Nat) (path vars : Value) :
    Ensures (ensureEnvironment n path vars) h
      (fun _ h' => h.LoadedIn n h' ∧
        h'.environmentsAt n = (h.environmentsAt n).map (withEnvironment path))
      fun _ h' => h.LoadedIn n h' := by
  have hrefl := Host.LoadedIn.refl n h
  rw [ensureEnvironment]
  by_cases hnull : path.isNull = true
  · rw [if_pos hnull]
    refine ⟨hrefl, ?_⟩
    have hsame : withEnvironment path = id := funext fun xs => by simp [withEnvironment, hnull]
    rw [hsame, Option.map_id, id_eq]
  · rw [if_neg hnull]
    split
    · exact hrefl
    · simp only [ensures_bind, Host.ensures_space]
      refine ⟨fun w hw => ?_, fun _ => hrefl⟩
      have hat : h.environmentsAt n = some w.environments := by rw [Host.environmentsAt, hw]; rfl
      rw [hat, Option.map_some]
      split
      · rename_i hthere
        refine ⟨hrefl, hat.trans ?_⟩
        rw [withEnvironment, if_pos (by rw [hthere, Bool.or_true])]
      · rename_i hnew
        simp only [Host.ask, Host.setSpace, ensures_bind, ensures_modify, ensures_get]
        split
        · exact ⟨rfl, rfl, fun _ => rfl, fun _ _ => rfl⟩
        · obtain ⟨hlt, -⟩ := List.getElem?_eq_some_iff.1 hw
          refine ⟨⟨rfl, rfl, fun m => ?_, fun m hm => ?_⟩, ?_⟩
          · rw [Host.rootPathAt, Host.rootPathAt, List.getElem?_set]
            by_cases hm : n = m
            · subst hm
              rw [if_pos rfl, if_pos hlt, hw]
              rfl
            · rw [if_neg hm]
          · rw [Host.environmentsAt, Host.environmentsAt, List.getElem?_set, if_neg (Ne.symm hm)]
          · rw [Host.environmentsAt, List.getElem?_set, if_pos rfl, if_pos hlt, Option.map_some,
              withEnvironment, if_neg]
            rwa [Bool.eq_false_iff.2 hnull, Bool.false_or]

/-! ## Loading -/

theorem ensures_place (desk : Desk) (position : Value) :
    Ensures (Job.place position) desk (fun _ desk' => desk' = desk)
      fun _ desk' => desk' = desk := by
  simp only [Job.place, Job.files, ensures_bind, ensures_get]
  split
  · simp only [ensures_bind, ensures_get, ensures_pure, ensures_liftExcept]
    exact ⟨fun _ _ => trivial, fun _ _ => trivial⟩
  · split
    · exact rfl
    · simp only [ensures_bind, ensures_liftExcept, ensures_throw]
      exact ⟨fun _ _ => ⟨fun _ _ => trivial, fun _ _ => trivial⟩, fun _ _ => trivial⟩

end Engine

/-- A document was loaded for its home `w`. The engine got its text and the root path of `w`; the
environment is the one that the settings of `w` name, which is kept with `w`; and modules are looked
for in the directories of the document, of the engine and of these settings, and last in the one
of the document itself. -/
def Document.LoadedWith (d : Document) (w : Workspace) (useDocumentPath : Bool) (h h' : Host) :
    Prop :=
  ∃ code environment extra more, d.held h.machine.files = .ok code ∧
    Engine.Settles h d.home d.path environment extra ∧ Engine.extraPaths extra = .ok more ∧
    h'.environmentsAt d.home = some (Engine.withEnvironment environment w.environments) ∧
    h'.asked.getLast? = some (.script code d.path
      (if environment.truthy then environment else .null) w.rootPath
      (d.searchPath.map .str ++ h.engines.searchPath ++ more ++
        if useDocumentPath then [.str (String.ofList (Path.normalize (Path.dirname d.path.toList)))]
        else []))

namespace Engine

variable {h : Host} {d : Document}

/-- **A document is loaded with the root path, the settings and the environments of its home.** -/
theorem ensures_load {w : Workspace} (hw : h.spaces[d.home]? = some w) (useDocumentPath : Bool)
    (position : Value) :
    Ensures (load useDocumentPath position) ⟨h, some d⟩
      (fun _ desk => h.LoadedIn d.home desk.host ∧ d.LoadedWith w useDocumentPath h desk.host)
      fun _ desk => h.LoadedIn d.home desk.host := by
  have hat : h.environmentsAt d.home = some w.environments := by rw [Host.environmentsAt, hw]; rfl
  simp only [load, Job.document, ensures_bind, ensures_get, ensures_pure, ensures_liftJob]
  refine (ensures_engineSettings h d).mono ?_ ?_
  · rintro ⟨environment, extra, vars⟩ _ ⟨hsettles, cache, rfl⟩
    have hl₁ : h.LoadedIn d.home { h with cache } := ⟨rfl, rfl, fun _ => rfl, fun _ _ => rfl⟩
    refine (ensures_engineVariables _ d vars).mono ?_ fun _ _ hl => hl₁.trans hl
    rintro vars h₂ ⟨hl₂, hat₂⟩
    replace hl₂ := hl₁.trans hl₂
    replace hat₂ : h₂.environmentsAt d.home = some w.environments := hat₂.trans hat
    -- the environment that the settings name is made, if they name one
    refine ensures_ite_bind (fun desk => (h.LoadedIn d.home desk.host ∧
      (desk.host.environmentsAt d.home).map (withEnvironment environment) =
        some (withEnvironment environment w.environments)) ∧ desk.document = some d) ?_
      ⟨⟨hl₂, by rw [hat₂]; rfl⟩, rfl⟩ ?_
    · rw [ensures_liftJob]
      refine (ensures_ensureEnvironment h₂ d.home environment vars).mono ?_ fun _ _ hl =>
        hl₂.trans hl
      rintro _ h₃ ⟨hl₃, hat₃⟩
      refine ⟨⟨hl₂.trans hl₃, ?_⟩, rfl⟩
      rw [hat₃, hat₂, Option.map_some, Option.map_some, withEnvironment_withEnvironment]
    · rintro ⟨h₃, _⟩ ⟨⟨hl₃, hat₃⟩, rfl⟩
      simp only [searchPath, ensures_bind, ensures_get, ensures_pure, ensures_liftJob,
        ensures_liftExcept]
      refine (ensures_ensureEnvironment h₃ d.home environment vars).mono ?_ fun _ _ hl =>
        hl₃.trans hl
      rintro _ h₄ ⟨hl₄, hat₄⟩
      have hl := hl₃.trans hl₄
      refine ⟨fun more hmore => ?_, fun _ _ => hl⟩
      simp only [Job.held, Job.document, Job.files, ensures_bind, ensures_get, ensures_pure,
        ensures_liftExcept, Host.ensures_space]
      refine ⟨fun code hcode => ⟨fun w' hw' => ?_, fun _ => hl⟩, fun _ _ => hl⟩
      have hpath : w'.rootPath = w.rootPath := by
        have hroot := hl.rootPathAt d.home
        rw [Host.rootPathAt, Host.rootPathAt, hw', hw] at hroot
        exact Option.some_inj.1 hroot
      split
      · refine (ensures_place _ position).bind ?_ ?_
        · rintro _ _ rfl
          exact hl
        · rintro _ _ rfl
          exact hl
      · simp only [Job.ask, Host.ask, ensures_liftJob, ensures_modify]
        refine ⟨⟨hl.machine, hl.engines, hl.rootPathAt, hl.environments⟩, code, environment, extra,
          more, hl.machine ▸ hcode, hsettles, hmore, hat₄.trans hat₃, ?_⟩
        rw [List.getLast?_concat, hpath, hl.engines]
        cases useDocumentPath with
        | true => rfl
        | false => rw [if_neg Bool.false_ne_true, if_neg Bool.false_ne_true, List.append_nil]
  · rintro _ _ ⟨cache, rfl⟩
    exact ⟨rfl, rfl, fun _ => rfl, fun _ _ => rfl⟩

end Engine
end LangServer
