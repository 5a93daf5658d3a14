import LangServer.Proofs.Linting.Effects
import LangServer.Proofs.Session.Documents

/-!
# What starting and changes of folders do

Both change which workspaces a session has, and so where documents are looked for. Both consist of
steps of a few kinds (`Shift`), whether they succeed or not, so that what each of these steps keeps,
they keep. `Regrouped` is one such property: the host has at most gained workspaces, and the
session stays sound and does not lose its root.

The last thing that a change of folders does is to move the documents of the root (`Migrated`).
Each document that the root has goes to the workspace where it would be looked for; the documents of
the other workspaces stay.
-/

namespace LangServer

open Relation

theorem Host.sameSpaces_of_consult {h h' : Host} (hsteps : ReflTransGen Consult h h') :
    h.SameSpaces h' := by
  induction hsteps with
  | refl => exact .refl h
  | tail _ hstep ih => cases hstep <;> exact ⟨ih.machine, ih.spaces⟩

namespace Session

variable {s t u : Session} {α : Type}

/-! ## Steps -/

/-- One step of a start or a change of folders, before documents are moved. -/
inductive Shift : Session → Session → Prop where
  /-- Folders may go, and what belongs to no folder may change. -/
  | left {s t : Session} (hhost : t.host = s.host) (hroot : t.root = s.root)
      (hconfig : t.config = s.config) (hfolders : ∀ f ∈ t.folders, f ∈ s.folders) : Shift s t
  /-- Plugins look things up. -/
  | consulted {s : Session} {h : Host} (hsteps : ReflTransGen Host.Consult s.host h) :
      Shift s { s with host := h }
  /-- No workspace can be made. -/
  | failed {s : Session} {uri : String} {initOptions processId capabilities : Value} {f : Fault}
      {h : Host}
      (hrun : Host.createSpace uri initOptions processId capabilities s.host = .error f h) :
      Shift s { s with host := h }
  /-- A workspace is made, which becomes the root and a folder. -/
  | founded {s : Session} {uri : String} {initOptions processId capabilities : Value} {n : Nat}
      {h : Host}
      (hrun : Host.createSpace uri initOptions processId capabilities s.host = .ok n h) :
      Shift s { s with
        host := h, rootUri := .str uri, config := some n, root := some n
        folders := Value.insert uri n s.folders }
  /-- A workspace is made, which gets the settings in force and becomes a folder, unless the
  settings have a fault. -/
  | joined {s : Session} {uri : String} {initOptions processId capabilities : Value} {m n : Nat}
      {client : Value} {revision : Nat} {h h' : Host} {folders : List (String × Nat)}
      (hconfig : s.config = some m)
      (hrun : Host.createSpace uri initOptions processId capabilities s.host = .ok n h)
      (hupdate : h' = h ∨ ∃ fault?, h.Updated n client revision fault? h')
      (hfolders : folders = s.folders ∨ folders = Value.insert uri n s.folders) :
      Shift s { s with host := h', folders }
  /-- A folder becomes the root. -/
  | adopted {s : Session} {uri : String} {n : Nat} (hn : Value.lookup uri s.folders = some n) :
      Shift s { s with rootUri := .str uri, config := some n, root := some n }

theorem moves_require {r : Session → Session → Prop} (o : Option α) : Moves r (require o) := by
  cases o with
  | some a => exact Moves.pure a
  | none => exact Moves.throw _

theorem moves_liftAct_space {r : Session → Session → Prop} (n : Nat) :
    Moves r (liftM (Host.space n) : Serve Workspace) := by
  intro s
  rw [ensures_liftAct, Host.ensures_space]
  exact ⟨fun _ _ => .refl, fun _ => .refl⟩

/-! ## Folders that come and go -/

theorem moves_addFolder (uri : Value) : Moves Shift (addFolder uri) := by
  intro s
  simp only [addFolder, ensures_bind, ensures_get, ensures_require, ensures_liftAct,
    Host.ensures_config_iff, ensures_liftExcept]
  refine ⟨fun m hm => ⟨fun c _ => ⟨fun name _ => ?_, fun _ _ => .refl⟩, fun _ => .refl⟩,
    fun _ => .refl⟩
  refine (Ensures.self _ _).mono ?_ fun _ _ hrun => .single (.failed hrun)
  intro n h hrun
  refine (Host.ensures_updateConfig h n c.client c.revision).mono ?_ ?_
  · exact fun _ h' hupdated => .single (.joined hm hrun (.inr ⟨none, hupdated⟩) (.inr rfl))
  · exact fun f h' hupdated =>
      .single (.joined hm hrun (hupdated.imp_right fun h => ⟨some f, h⟩) (.inl rfl))

theorem moves_addFolders (rootUri : String) (folders : Value) :
    Moves Shift (addFolders rootUri folders) := by
  refine Moves.ite ((Moves.ofExcept _).bind fun items => ?_) (Moves.pure _)
  refine (Moves.forIn (fun folder => ?_) items).bind fun _ => Moves.pure _
  refine (Moves.ofExcept _).bind fun uri => ?_
  exact Moves.ite ((moves_addFolder uri).bind fun _ => Moves.pure _) (Moves.pure _)

theorem moves_removeFolders (gone : List Value) : Moves Shift (removeFolders gone) := by
  induction gone with
  | nil => exact Moves.pure _
  | cons info rest ih =>
    rw [removeFolders]
    refine (Moves.ofExcept _).bind fun counts => Moves.ite ?_ ih
    refine (Moves.ofExcept _).bind fun uri => ?_
    split
    · exact (Moves.modify fun _ => .left rfl rfl rfl fun _ => Value.mem_of_mem_erase).bind
        fun _ => ih
    · exact Moves.ite (Moves.throw _) ih

theorem moves_insertFolders (added : List Value) : Moves Shift (insertFolders added) := by
  induction added with
  | nil => exact Moves.pure _
  | cons info rest ih =>
    rw [insertFolders]
    refine (Moves.ofExcept _).bind fun counts => Moves.ite ?_ ih
    exact (Moves.ofExcept _).bind fun uri => (moves_addFolder uri).bind fun _ => ih

theorem moves_adoptRoot (uri : Value) : Moves Shift (adoptRoot uri) := by
  intro s
  rw [adoptRoot.eq_def]
  split
  · rename_i name
    rw [ensures_bind, ensures_get]
    cases hn : Value.lookup name s.folders with
    | none => exact .refl
    | some n => exact .single (.adopted hn)
  · exact .refl

theorem moves_replaceRoot (first : Option Value) : Moves Shift (replaceRoot first) := by
  rw [replaceRoot.eq_def]
  split
  · exact (Moves.modify fun _ => .left rfl rfl rfl fun _ => id).bind fun _ => moves_adoptRoot _
  · refine Moves.get.bind fun s => ?_
    split
    · exact moves_adoptRoot _
    · exact Moves.pure _

/-! ## Starting -/

theorem ensures_rootUriArg (s : Session) (ps : Params) :
    Ensures (rootUriArg ps) s (fun _ t => t = s) fun _ t => t = s := by
  rw [rootUriArg]
  split
  · exact rfl
  · simp only [ensures_bind, ensures_get, ensures_liftExcept, ensures_pure]
    exact ⟨fun _ _ => trivial, fun _ _ => trivial⟩
  · exact rfl

theorem moves_leaveRoot (uri : Value) : Moves Shift (leaveRoot uri) := by
  intro s
  simp only [leaveRoot, ensures_bind, ensures_get]
  split
  · exact .single (.left rfl rfl rfl fun _ => Value.mem_of_mem_erase)
  · split
    · exact .single (.left rfl rfl rfl fun _ => id)
    · exact .refl

theorem moves_perform_start (c : Caller) (plugins : List Plugin) :
    Moves (Desk.Along Host.Consult) (Hook.start.perform c plugins) := by
  refine Hook.moves_perform fun p _ job hjob => ?_
  cases p <;> cases hjob
  have hpreload : Moves Host.Consult (Host.preload c) := by
    refine (Host.moves_pluginSettings _ _ _).bind fun settings => ?_
    refine (Moves.ofExcept _).bind fun modules => ?_
    exact Moves.ite (Host.moves_ask _) (Moves.pure _)
  exact hpreload.liftJob.bind fun _ => Moves.pure _

theorem ensures_hook_start (s : Session) :
    Ensures (hook .start .null) s
      (fun _ t => ∃ h, ReflTransGen Host.Consult s.host h ∧ t = { s with host := h })
      fun _ t => t = s := by
  simp only [hook, settingFor, plugins, spaceFor, ensures_bind, ensures_get, ensures_pure,
    ensures_require, ensures_liftAct, Host.ensures_config_iff]
  refine ⟨fun c _ => ⟨fun m _ => ⟨fun d _ => ?_, fun _ => trivial⟩, fun _ => trivial⟩,
    fun _ => trivial⟩
  have hsteps := Hook.reflTransGen_call (moves_perform_start ⟨c, m⟩
    (s.host.machine.loaded.filter fun p => d.runs s.host.machine p)) ⟨s.host, none⟩
  exact ⟨_, Desk.host_of_along hsteps, rfl⟩

theorem moves_hook_start : Moves Shift (hook .start .null) := by
  refine fun s => (ensures_hook_start s).mono ?_ ?_
  · rintro _ _ ⟨h, hsteps, rfl⟩
    exact .single (.consulted hsteps)
  · rintro _ _ rfl
    exact .refl

theorem ensures_watch (s : Session) (pid : Value) :
    Ensures (watch pid) s
      (fun _ t => t = { s with isClosed := true } ∨
        t = { s with timers := s.timers.start watchPause (.watch pid) })
      fun _ t => t = s := by
  simp only [watch, close, ensures_bind, ensures_liftExcept, ensures_get]
  refine ⟨fun p _ => ?_, fun _ _ => trivial⟩
  split
  · exact .inr rfl
  · exact .inl rfl

theorem moves_watch (pid : Value) : Moves Shift (watch pid) := by
  refine fun s => (ensures_watch s pid).mono ?_ ?_
  · rintro _ _ (rfl | rfl) <;> exact .single (.left rfl rfl rfl fun _ => id)
  · rintro _ _ rfl
    exact .refl

theorem ensures_found {rest : Serve α} (hrest : Moves Shift rest) (uri : String)
    (initOptions processId capabilities : Value) (s : Session) :
    Ensures (do
      let n ← Host.createSpace uri initOptions processId capabilities
      setRoot uri n
      modify fun s => { s with folders := Value.insert uri n s.folders }
      rest : Serve α) s
      (fun _ t => ∃ u, s.Shift u ∧ u.root ≠ none ∧ ReflTransGen Shift u t)
      fun _ t => ReflTransGen Shift s t := by
  simp only [ensures_bind, ensures_liftAct, setRoot, ensures_modify]
  refine (Ensures.self _ _).mono ?_ fun _ _ hrun => .single (.failed hrun)
  intro n h hrun
  have hstep : s.Shift _ := .founded hrun
  exact (hrest _).mono (fun _ t ht => ⟨_, hstep, Option.some_ne_none n, ht⟩)
    fun _ t ht => .head hstep ht

theorem ensures_start_shift (s : Session) (ps : Params) :
    Ensures (start ps) s
      (fun _ t => ∃ u, ReflTransGen Shift s u ∧ u.root ≠ none ∧ ReflTransGen Shift u t)
      fun _ t => ReflTransGen Shift s t := by
  have hbad : ∀ (f : Fault) t, ReflTransGen Shift s t → ReflTransGen Shift s t := fun _ _ h => h
  rw [start]
  refine (ensures_rootUriArg s ps).bind ?_ fun _ _ h => h ▸ .refl
  rintro uri _ rfl
  refine (moves_leaveRoot uri).ensures_bind .refl (fun _ t ht => ?_) hbad
  refine (Moves.ofExcept _).ensures_bind ht (fun name t ht => ?_) hbad
  refine (ensures_found ?_ name _ _ _ t).mono ?_ fun _ _ h => ht.trans h
  · refine (moves_addFolders name _).bind fun _ => ?_
    refine (Moves.modify fun _ => .left rfl rfl rfl fun _ => id).bind fun _ => ?_
    refine moves_hook_start.bind fun _ => ?_
    intro s
    rw [ensures_bind, ensures_get]
    split
    · have hset : s.Shift { s with isWatching := true } := .left rfl rfl rfl fun _ => id
      rw [ensures_bind, ensures_set]
      exact ((moves_watch _).bind fun _ => Moves.pure _).head hset
    · exact .refl
  · rintro _ v ⟨u, hu, hroot, hv⟩
    exact ⟨u, ht.tail hu, hroot, hv⟩

/-! ## Sessions with other folders -/

/-- The session has perhaps other folders and another root, but the same documents. -/
structure Regrouped (s s' : Session) : Prop where
  host : s.host.Extends s'.host
  root_ne_none : s.root ≠ none → s'.root ≠ none
  sound : s.Sound → s'.Sound

namespace Regrouped

theorem refl (s : Session) : s.Regrouped s := ⟨Host.Extends.refl _, fun h => h, fun h => h⟩

theorem trans (h1 : s.Regrouped t) (h2 : t.Regrouped u) : s.Regrouped u :=
  ⟨h1.host.trans h2.host, fun h => h2.root_ne_none (h1.root_ne_none h),
    fun h => h2.sound (h1.sound h)⟩

theorem of_extends (hhost : s.host.Extends t.host) (hroot : t.root = s.root)
    (hconfig : t.config = s.config) (hfolders : ∀ f ∈ t.folders, f ∈ s.folders) :
    s.Regrouped t := by
  refine ⟨hhost, fun h => hroot ▸ h, fun hs => ⟨fun n hn => ?_, ?_, fun hnone => ?_⟩⟩
  · refine Nat.lt_of_lt_of_le (hs.lt_of_holds n ?_) hhost.length_le
    rw [Holds, hroot] at hn
    exact hn.imp_right fun hn => hn.imp fun folder => hfolders (folder, n)
  · rw [hroot, hconfig, hs.config_eq]
  · rw [hroot] at hnone
    refine List.eq_nil_iff_forall_not_mem.2 fun f hf => ?_
    have hmem := hfolders f hf
    rw [hs.folders_eq_nil hnone] at hmem
    cases hmem

theorem insert (h : s.Regrouped t) {n : Nat} (hlt : n < t.host.spaces.length)
    (hroot : s.Sound → t.root ≠ none) (name : String) :
    s.Regrouped { t with folders := Value.insert name n t.folders } := by
  refine ⟨h.host, h.root_ne_none, fun hs => ⟨?_, (h.sound hs).config_eq,
    fun hnone => absurd hnone (hroot hs)⟩⟩
  rintro m (hm | ⟨folder, hm⟩)
  · exact (h.sound hs).lt_of_holds m (Or.inl hm)
  · rcases Value.mem_of_mem_insert hm with hm | hm
    · obtain ⟨-, rfl⟩ := Prod.mk.inj hm
      exact hlt
    · exact (h.sound hs).lt_of_holds m (Or.inr ⟨folder, hm⟩)

theorem setRoot (h : s.Regrouped t) {n : Nat} (hlt : s.Sound → n < t.host.spaces.length)
    (rootUri : Value) : s.Regrouped { t with rootUri, config := some n, root := some n } := by
  refine ⟨h.host, fun _ => Option.some_ne_none n, fun hs => ⟨?_, rfl,
    fun hnone => absurd hnone (Option.some_ne_none n)⟩⟩
  rintro m (hm | hm)
  · obtain rfl := Option.some_inj.1 hm
    exact hlt hs
  · exact (h.sound hs).lt_of_holds m (Or.inr hm)

end Regrouped

theorem Shift.regrouped (hstep : s.Shift t) : s.Regrouped t := by
  cases hstep with
  | left hhost hroot hconfig hfolders =>
    exact .of_extends (hhost ▸ .refl _) hroot hconfig hfolders
  | consulted hsteps =>
    exact .of_extends (Host.sameSpaces_of_consult hsteps).extends rfl rfl fun _ => id
  | failed hrun =>
    exact .of_extends ((Host.ensures_createSpace _ _ _ _ _).error hrun) rfl rfl fun _ => id
  | @founded uri _ _ _ n h hrun =>
    obtain ⟨hext, hlt⟩ := (Host.ensures_createSpace _ _ _ _ _).ok hrun
    have hhost : s.Regrouped { s with host := h } := .of_extends hext rfl rfl fun _ => id
    exact (hhost.setRoot (fun _ => hlt) (.str uri)).insert hlt (fun _ => Option.some_ne_none n) uri
  | @joined uri _ _ _ m n _ _ h h' _ hconfig hrun hupdate hfolders =>
    obtain ⟨hcreate, hlt⟩ := (Host.ensures_createSpace _ _ _ _ _).ok hrun
    have hext : h.Extends h' := by
      rcases hupdate with rfl | ⟨_, hupdated⟩
      · exact .refl _
      · exact hupdated.extends
    have hhost : s.Regrouped { s with host := h' } :=
      .of_extends (hcreate.trans hext) rfl rfl fun _ => id
    rcases hfolders with rfl | rfl
    · exact hhost
    · refine hhost.insert (Nat.lt_of_lt_of_le hlt hext.length_le) (fun hs => ?_) uri
      rw [← hs.config_eq, hconfig]
      exact Option.some_ne_none m
  | @adopted uri n hn =>
    refine (Regrouped.refl s).setRoot (fun hs => hs.lt_of_holds n ?_) (.str uri)
    exact .inr ⟨uri, Value.mem_of_lookup hn⟩

theorem regrouped_of_steps (hsteps : ReflTransGen Shift s t) : s.Regrouped t := by
  induction hsteps with
  | refl => exact .refl s
  | tail _ hstep ih => exact ih.trans hstep.regrouped

/-- **Starting** makes the root and the folders that the client names; if it fails, it has at most
done so in part. -/
theorem ensures_start (s : Session) (ps : Params) :
    Ensures (start ps) s (fun _ t => s.Regrouped t ∧ t.root ≠ none) fun _ t => s.Regrouped t := by
  refine (ensures_start_shift s ps).mono ?_ fun _ _ => regrouped_of_steps
  rintro _ t ⟨u, hu, hroot, ht⟩
  exact ⟨regrouped_of_steps (hu.trans ht), (regrouped_of_steps ht).root_ne_none hroot⟩

/-! ## Moving documents -/

/-- Where a document is once the root `r` has handed it on to the workspace `n`. -/
def handOn (r n : Nat) (place : Nat → Option Document) (m : Nat) : Option Document :=
  if (place r).isSome then if m = n then place r else if m = r then none else place m else place m

theorem handOn_self (r : Nat) (place : Nat → Option Document) : handOn r r place = place := by
  funext m
  by_cases hm : m = r <;> simp [handOn, hm]

theorem handOn_handOn (r n : Nat) (place : Nat → Option Document) :
    handOn r n (handOn r n place) = handOn r n place := by
  funext m
  by_cases hr : (place r).isSome
  · by_cases hn : r = n
    · rw [hn, handOn_self]
    · simp [handOn, hr, hn]
  · simp [handOn, hr]

/-- The host after the documents of the root `r` were moved. -/
structure Migrated (t : Session) (r : Nat) (h : Host) : Prop extends t.host.SameRoots h where
  documentAt : ∀ m v, h.documentAt m v =
    handOn r ((t.spaceOf? v).getD r) (fun k => t.host.documentAt k v) m

theorem Placed.getD_spaceOf?_lt (hs : s.Placed) {r : Nat} (hr : s.root = some r) (uri : String) :
    (s.spaceOf? uri).getD r < s.host.spaces.length := by
  cases hn : s.spaceOf? uri with
  | none => exact hs r (Or.inl hr)
  | some n => exact hs n (holds_of_spaceOf? hn)

theorem ensures_migrate (hs : s.Placed) {r : Nat} (hr : s.root = some r) (uri : String) :
    Ensures (migrate r uri) s
      (fun _ t => ∃ host, t = { s with host } ∧ s.host.SameRoots host ∧
        (∀ m, host.documentAt m uri =
          handOn r ((s.spaceOf? uri).getD r) (fun k => s.host.documentAt k uri) m) ∧
        ∀ m v, v ≠ uri → host.documentAt m v = s.host.documentAt m v)
      fun _ _ => False := by
  have hlt : r < s.host.spaces.length := hs r (Or.inl hr)
  obtain ⟨w, hw⟩ : ∃ w, s.host.spaces[r]? = some w := ⟨_, List.getElem?_eq_getElem hlt⟩
  have hdoc : s.host.documentAt r uri = Value.lookup uri w.documents := by
    rw [Host.documentAt, hw]
    rfl
  rw [migrate, ensures_bind, ensures_liftAct, Host.ensures_space_of_some hw]
  cases hd : Value.lookup uri w.documents with
  | none =>
    refine ⟨s.host, rfl, Host.SameRoots.refl _, fun m => ?_, fun _ _ _ => rfl⟩
    rw [handOn, hdoc, hd]
    rfl
  | some d =>
    rw [hd] at hdoc
    have htarget := hs.getD_spaceOf?_lt hr uri
    have hremove := Host.sameRoots_remove s.host r uri
    rw [← hremove.length] at htarget
    simp only [ensures_bind, ensures_liftAct, Host.ensures_setSpace hw (Value.erase uri),
      ensures_get, Host.ensures_storeDocument]
    refine ⟨fun _ => ⟨(s.host.remove r uri).put ((s.spaceOf? uri).getD r) uri d, rfl,
      hremove.trans (Host.sameRoots_put _ _ _ _), fun m => ?_, fun m v hv => ?_⟩,
      fun hle => Nat.not_lt.2 hle htarget⟩
    · rw [Host.documentAt_put htarget, Host.documentAt_remove, handOn, hdoc]
      simp
    · rw [Host.documentAt_put htarget, Host.documentAt_remove, if_neg fun h => hv h.2,
        if_neg fun h => hv h.2]

/-- **All documents of the root are moved.** That fails only where there is no root. -/
theorem ensures_migrateAll (hs : s.Placed) :
    Ensures migrateAll s
      (fun _ t => ∃ r host, s.root = some r ∧ s.Migrated r host ∧ t = { s with host })
      fun _ t => s.root = none ∧ t = s := by
  simp only [migrateAll, ensures_bind, ensures_get, ensures_require, ensures_liftAct,
    Host.ensures_space]
  refine ⟨fun r hr => ?_, fun hnone => ⟨hnone, trivial⟩⟩
  have hlt : r < s.host.spaces.length := hs r (Or.inl hr)
  refine ⟨fun w hw => ?_,
    fun hnone => absurd hlt (Nat.not_lt.2 (List.getElem?_eq_none_iff.1 hnone))⟩
  -- a document is handed on already, or it is left to do and where it was
  refine (ensures_forIn (motive := fun rest t => ∃ host, t = { s with host } ∧
    s.host.SameRoots host ∧ ∀ v,
      (∀ m, host.documentAt m v =
        handOn r ((s.spaceOf? v).getD r) (fun k => s.host.documentAt k v) m) ∨
      v ∈ rest.map (·.1) ∧ ∀ m, host.documentAt m v = s.host.documentAt m v) ?_
    ⟨s.host, rfl, Host.SameRoots.refl _, fun v => ?_⟩).imp ?_
  · rintro ⟨uri, d⟩ rest _ ⟨host, rfl, hroots, hdocs⟩
    have hs' : ({ s with host } : Session).Placed := fun n hn => hroots.length ▸ hs n hn
    refine (ensures_migrate hs' hr uri).bind ?_ fun _ _ h => h.elim
    rintro _ _ ⟨host', rfl, hroots', huri, hothers⟩
    refine ⟨rfl, host', rfl, hroots.trans hroots', fun v => ?_⟩
    by_cases hv : v = uri
    · subst hv
      refine .inl fun m => (huri m).trans ?_
      rcases hdocs v with hdone | ⟨-, hleft⟩
      · exact (congrFun (congrArg _ (funext hdone)) m).trans (congrFun (handOn_handOn _ _ _) m)
      · exact congrFun (congrArg _ (funext hleft)) m
    · rcases hdocs v with hdone | ⟨hmem, hleft⟩
      · exact .inl fun m => (hothers m v hv).trans (hdone m)
      · refine .inr ⟨?_, fun m => (hothers m v hv).trans (hleft m)⟩
        exact (List.mem_cons.1 hmem).resolve_left hv
  · by_cases hmem : v ∈ w.documents.map (·.1)
    · exact .inr ⟨hmem, fun _ => rfl⟩
    · have hnone : s.host.documentAt r v = none := by
        rw [Host.documentAt, hw]
        exact Value.lookup_eq_none_iff.2 hmem
      refine .inl fun m => ?_
      rw [handOn, hnone]
      rfl
  · rintro _ _ ⟨host, rfl, hroots, hdocs⟩
    refine ⟨r, host, hr, ⟨hroots, fun m v => ?_⟩, rfl⟩
    exact (hdocs v).elim (fun h => h m) fun h => absurd h.1 List.not_mem_nil

/-- Moving documents changes nothing but tables of documents. -/
theorem moves_migrateAll :
    Moves (fun s t => ∃ n f, t = { s with host := s.host.withDocuments n f }) migrateAll := by
  refine Moves.get.bind fun s => (moves_require _).bind fun root => ?_
  refine (moves_liftAct_space _).bind fun w => ?_
  refine (Moves.forIn (fun member => ?_) w.documents).bind fun _ => Moves.pure _
  refine Moves.bind ?_ fun _ => Moves.pure _
  intro s
  rw [migrate, ensures_bind, ensures_liftAct, Host.ensures_space]
  refine ⟨fun w hw => ?_, fun _ => .refl⟩
  split
  · exact .refl
  · simp only [ensures_bind, ensures_liftAct, Host.ensures_setSpace hw (Value.erase member.1),
      ensures_get, Host.ensures_storeDocument]
    exact ⟨fun _ => (ReflTransGen.single ⟨_, _, rfl⟩).tail ⟨_, _, rfl⟩,
      fun _ => .single ⟨_, _, rfl⟩⟩

/-- A change of folders is made in steps, and then documents are moved. -/
theorem ensures_didChangeWorkspaceFolders_shift (s : Session) (ps : Params) :
    Ensures (didChangeWorkspaceFolders ps) s
      (fun _ t => (arg ps "event").isNull = true ∧ t = s ∨
        (arg ps "event").isNull = false ∧ ∃ u, ReflTransGen Shift s u ∧ migrateAll u = .ok () t)
      fun f t => ReflTransGen Shift s t ∨
        ∃ u, ReflTransGen Shift s u ∧ migrateAll u = .error f t := by
  rw [didChangeWorkspaceFolders]
  cases (arg ps "event").isNull with
  | true => exact .inl ⟨rfl, rfl⟩
  | false =>
    have hmove : ∀ (u : Session), ReflTransGen Shift s u →
        Ensures (do migrateAll; return Value.null) u
          (fun _ t => false = true ∧ t = s ∨
            false = false ∧ ∃ u, ReflTransGen Shift s u ∧ migrateAll u = .ok () t)
          fun f t => ReflTransGen Shift s t ∨
            ∃ u, ReflTransGen Shift s u ∧ migrateAll u = .error f t := by
      intro u hu
      exact (Ensures.self _ _).bind (fun _ _ hrun => .inr ⟨rfl, u, hu, hrun⟩)
        fun _ _ hrun => .inr ⟨u, hu, hrun⟩
    have hbad : ∀ (f : Fault) t, ReflTransGen Shift s t → ReflTransGen Shift s t ∨
        ∃ u, ReflTransGen Shift s u ∧ migrateAll u = .error f t := fun _ _ => Or.inl
    refine (Moves.ofExcept _).ensures_bind .refl (fun added t ht => ?_) hbad
    refine (Moves.ofExcept _).ensures_bind ht (fun removed t ht => ?_) hbad
    refine (Moves.ofExcept _).ensures_bind ht (fun gone t ht => ?_) hbad
    refine (moves_removeFolders gone).ensures_bind ht (fun _ t ht => ?_) hbad
    refine (Moves.ofExcept _).ensures_bind ht (fun coming t ht => ?_) hbad
    refine (moves_insertFolders coming).ensures_bind ht (fun _ t ht => ?_) hbad
    refine Moves.get.ensures_bind ht (fun s' t ht => ?_) hbad
    refine (Moves.ofExcept _).ensures_bind ht (fun isGone t ht => ?_) hbad
    split
    · refine (Moves.ofExcept _).ensures_bind ht (fun first t ht => ?_) hbad
      exact (moves_replaceRoot first).ensures_bind ht (fun _ => hmove) hbad
    · exact (Moves.ofExcept _).ensures_bind ht (fun _ => hmove) hbad

/-- **A change of folders** regroups the session and then moves the documents of the root. An empty
event does nothing, and a failure comes before any document is moved. -/
theorem ensures_didChangeWorkspaceFolders (hs : s.Sound) (ps : Params) :
    Ensures (didChangeWorkspaceFolders ps) s
      (fun _ s' => (arg ps "event").isNull = true ∧ s' = s ∨
        (arg ps "event").isNull = false ∧ ∃ t r host, s.Regrouped t ∧ t.root = some r ∧
          t.Migrated r host ∧ s' = { t with host })
      fun _ s' => s.Regrouped s' := by
  refine (ensures_didChangeWorkspaceFolders_shift s ps).mono ?_ ?_
  · rintro _ s' (hsame | ⟨hevent, t, ht, hrun⟩)
    · exact .inl hsame
    · have hregrouped := regrouped_of_steps ht
      obtain ⟨r, host, hr, hmigrated, rfl⟩ :=
        (ensures_migrateAll (hregrouped.sound hs).placed).ok hrun
      exact .inr ⟨hevent, t, r, host, hregrouped, hr, hmigrated, rfl⟩
  · rintro _ s' (ht | ⟨t, ht, hrun⟩)
    · exact regrouped_of_steps ht
    · have hregrouped := regrouped_of_steps ht
      obtain ⟨-, rfl⟩ := (ensures_migrateAll (hregrouped.sound hs).placed).error hrun
      exact hregrouped

end Session
end LangServer
