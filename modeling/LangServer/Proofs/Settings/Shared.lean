import LangServer.Proofs.Nearest
import LangServer.Proofs.Settings.Handing

/-!
# One client, one set of settings

Every workspace has a configuration of its own, and a document keeps the configuration of the
workspace that it was opened in, wherever it is moved. All the same they all hold what the client
sent last (`Session.Shared`): new settings go to the configuration in force, to the workspace of
every folder, and through the documents of these to the configurations that documents have brought
along.

The one workspace that settings could miss is a root that is no folder any more, because its folder
came again and got a new workspace. A document that was moved there would keep settings that nobody
updates. But a document is moved only to a folder that its URI matches, so that it is moved on when
that folder gets a new workspace; what stays with such a root was opened there
(`Session.Shared.native`).

All configurations hold one object of the client, and the codes that a lint has flake8 ignore are
added to a list in it. So they are added for every workspace at once (`Host.Grows`).
-/

namespace LangServer

open Relation
open Workspace (Matches)

namespace Session

variable {s t : Session} {sent : Value × Nat}

theorem spaceOf?_eq_some {uri : String} {n : Nat} (h : s.spaceOf? uri = some n) :
    (∃ folder, Matches folder uri ∧ Value.lookup folder s.folders = some n) ∨
      s.root = some n ∧
        ∀ folder m, Value.lookup folder s.folders = some m → ¬ Matches folder uri := by
  rw [spaceOf?] at h
  split at h
  · rename_i folder hnear
    obtain ⟨hmem, hmatches⟩ := Workspace.matches_of_nearest? hnear
    obtain ⟨m, hm⟩ := exists_lookup_of_mem_keys hmem
    rw [hm] at h
    obtain rfl := Option.some_inj.1 h
    exact .inl ⟨folder, hmatches, hm⟩
  · rename_i hnear
    refine .inr ⟨h, fun folder m hm => Workspace.not_matches_of_nearest? hnear ?_⟩
    exact List.mem_map.2 ⟨(folder, m), Value.mem_of_lookup hm, rfl⟩

/-! ## The invariant -/

/-- The configurations of the root, of the folders and of the documents that are open in them hold
settings of the client. A document that was opened elsewhere than in the folder where it is matches
that folder. -/
structure Shares (sent : Value × Nat) (s : Session) : Prop extends Rooted s where
  ofRoot : ∀ r, s.root = some r → s.host.sentAt r = some sent
  ofFolder : ∀ name n, Value.lookup name s.folders = some n → s.host.sentAt n = some sent
  inRoot : ∀ r uri d, s.root = some r → s.host.documentAt r uri = some d →
    s.host.sentAt d.home = some sent
  inFolder : ∀ name n uri d, Value.lookup name s.folders = some n →
    s.host.documentAt n uri = some d → s.host.sentAt d.home = some sent
  moved : ∀ name n uri d, Value.lookup name s.folders = some n →
    s.host.documentAt n uri = some d → d.home = n ∨ Matches name uri

/-- Settings are shared, the root is named after a folder, and what was opened elsewhere than in the
root is there only while the root is the workspace of a folder. -/
structure Shared (sent : Value × Nat) (s : Session) : Prop extends Shares sent s where
  listed : ∃ uri n, s.rootUri = .str uri ∧ Value.lookup uri s.folders = some n
  native : ∀ r uri d, s.root = some r → s.host.documentAt r uri = some d →
    d.home = r ∨ ∃ name, Value.lookup name s.folders = some r

/-! ## Folders that come and go -/

namespace Shares

theorem without (hs : s.Shares sent) (gone : List String) :
    ({ s with folders := without gone s.folders } : Session).Shares sent := by
  have hlookup : ∀ {name n}, Value.lookup name (Session.without gone s.folders) = some n →
      Value.lookup name s.folders = some n := by
    intro name n h
    rw [lookup_without] at h
    split at h
    · cases h
    · exact h
  exact ⟨hs.toRooted.gains (.refl _) fun _ hf => (mem_of_mem_without hf).1, hs.ofRoot,
    fun name n hn => hs.ofFolder name n (hlookup hn), hs.inRoot,
    fun name n uri d hn => hs.inFolder name n uri d (hlookup hn),
    fun name n uri d hn => hs.moved name n uri d (hlookup hn)⟩

theorem joined (hs : s.Shares sent) {name : String} (h : s.Joined name t) : t.Shares sent := by
  have hrooted := hs.toRooted.joined h
  obtain ⟨n, r, c, host, hr, hc, hle, hgains, -, hsent, rfl⟩ := h
  obtain ⟨r', -, hroot, hconfig, -⟩ := hs.toRooted.root
  obtain rfl := Option.some_inj.1 (hconfig.symm.trans hr)
  obtain rfl := Option.some_inj.1 (hc.symm.trans (hs.ofRoot r' hroot))
  have hempty : ∀ uri d, host.documentAt n uri ≠ some d := by
    intro uri d hd
    rw [hgains.documentAt] at hd
    exact absurd (Host.lt_of_documentAt hd) (Nat.not_lt.2 hle)
  -- a folder is the new one, or it was there with its documents
  have hlookup : ∀ {name' m}, Value.lookup name' (Value.insert name n s.folders) = some m →
      m = n ∨ Value.lookup name' s.folders = some m := by
    intro name' m hm
    rw [Value.lookup_insert] at hm
    split at hm
    · exact .inl (Option.some_inj.1 hm).symm
    · exact .inr hm
  refine ⟨hrooted, fun m hm => hgains.sentAt m c (hs.ofRoot m hm), fun name' m hm => ?_,
    fun m uri d hm hd => ?_, fun name' m uri d hm hd => ?_, fun name' m uri d hm hd => ?_⟩
  · rcases hlookup hm with rfl | hm
    · exact hsent
    · exact hgains.sentAt m c (hs.ofFolder name' m hm)
  · rw [hgains.documentAt] at hd
    exact hgains.sentAt _ c (hs.inRoot m uri d hm hd)
  · rcases hlookup hm with rfl | hm
    · exact absurd hd (hempty uri d)
    · rw [hgains.documentAt] at hd
      exact hgains.sentAt _ c (hs.inFolder name' m uri d hm hd)
  · rcases hlookup hm with rfl | hm
    · exact absurd hd (hempty uri d)
    · rw [hgains.documentAt] at hd
      exact hs.moved name' m uri d hm hd

theorem joins (hs : s.Shares sent) {names : List String} (h : Joins s names t) :
    t.Shares sent := by
  induction h with
  | nil => exact hs
  | cons hjoined _ ih => exact ih (hs.joined hjoined)

theorem succeeds (hs : s.Shares sent) {first : Option String} (h : s.Succeeds first t) :
    t.Shares sent := by
  have hrooted := hs.toRooted.succeeds h
  rcases h with ⟨-, rfl⟩ | ⟨name, n, hn, -, rfl⟩
  · exact hs
  refine ⟨hrooted, fun r hr => ?_, hs.ofFolder, fun r uri d hr hd => ?_, hs.inFolder, hs.moved⟩
  · obtain rfl := Option.some_inj.1 hr
    exact hs.ofFolder name n hn
  · obtain rfl := Option.some_inj.1 hr
    exact hs.inFolder name n uri d hn hd

theorem name_eq (hs : s.Shares sent) {name name' : String} {n : Nat}
    (h : Value.lookup name s.folders = some n) (h' : Value.lookup name' s.folders = some n) :
    name = name' :=
  Option.some_inj.1 ((hs.folder name n (Value.mem_of_lookup h)).symm.trans
    (hs.folder name' n (Value.mem_of_lookup h')))

/-- A document that is moved takes its settings along, and matches the folder that it comes to. -/
theorem migrated (hs : s.Shares sent) {r : Nat} {host : Host} (hr : s.root = some r)
    (hmigrated : s.Migrated r host) (hsite : ∀ n, host.siteAt n = s.host.siteAt n)
    (hsent : ∀ n, host.sentAt n = s.host.sentAt n) :
    ({ s with host } : Session).Shares sent := by
  have hcome : ∀ {m uri d}, host.documentAt m uri = some d → s.host.documentAt m uri = some d ∨
      s.host.documentAt r uri = some d ∧ ∃ folder, Matches folder uri ∧
        Value.lookup folder s.folders = some m := by
    intro m uri d hd
    rw [hmigrated.documentAt] at hd
    rcases of_handOn hd with hd | ⟨rfl, hne, hd⟩
    · exact .inl hd
    refine .inr ⟨hd, ?_⟩
    rcases hspace : s.spaceOf? uri with _ | n
    · rw [hspace] at hne
      exact absurd rfl hne
    rw [hspace] at hne
    rcases spaceOf?_eq_some hspace with hfolder | ⟨hroot, -⟩
    · exact hfolder
    · exact absurd (Option.some_inj.1 (hroot.symm.trans hr)) hne
  have hhome : ∀ {n}, s.host.sentAt n = some sent → host.sentAt n = some sent := by
    intro n hn
    rw [hsent, hn]
  refine ⟨hs.toRooted.of_stays ⟨rfl, rfl, rfl, rfl, hsite⟩, fun m hm => hhome (hs.ofRoot m hm),
    fun name m hm => hhome (hs.ofFolder name m hm), fun m uri d hm hd => ?_,
    fun name m uri d hm hd => ?_, fun name m uri d hm hd => ?_⟩
  · rcases hcome hd with hd | ⟨hd, -⟩
    · exact hhome (hs.inRoot m uri d hm hd)
    · exact hhome (hs.inRoot r uri d hr hd)
  · rcases hcome hd with hd | ⟨hd, -⟩
    · exact hhome (hs.inFolder name m uri d hm hd)
    · exact hhome (hs.inRoot r uri d hr hd)
  · rcases hcome hd with hd | ⟨-, folder, hmatches, hfolder⟩
    · exact hs.moved name m uri d hm hd
    · exact .inr (hs.name_eq hfolder hm ▸ hmatches)

end Shares

namespace Shared

theorem home_or_matches (hs : s.Shared sent) {r : Nat} {root uri : String} {d : Document}
    (hr : s.root = some r) (hroot : s.rootUri = .str root)
    (hd : s.host.documentAt r uri = some d) : d.home = r ∨ Matches root uri := by
  rcases hs.native r uri d hr hd with hhome | ⟨name, hname⟩
  · exact .inl hhome
  obtain ⟨r', root', hr', -, hroot', hsite⟩ := hs.toRooted.root
  obtain rfl := Option.some_inj.1 (hr.symm.trans hr')
  obtain rfl := Value.str.inj (hroot.symm.trans hroot')
  obtain rfl := Option.some_inj.1 ((hs.folder name r (Value.mem_of_lookup hname)).symm.trans hsite)
  exact hs.moved name r uri d hname hd

/-- **A change of folders** leaves every configuration with the client's settings. -/
theorem reorganised (hs : s.Shared sent) {ps : Params} (h : s.Reorganised ps t)
    (hfolders : t.folders ≠ []) : t.Shared sent := by
  obtain ⟨s₁, s₂, r, host, hjoins, hgone, hstays, hr, hmigrated, hsite, hsent, rfl⟩ := h
  have h₁ : s₁.Shares sent := (hs.toShares.without _).joins hjoins
  by_cases hloses : ∃ uri ∈ departing ps, s.rootUri = .str uri
  · have hsucceeds := hgone hloses
    have h₂ := (h₁.succeeds hsucceeds).migrated hr hmigrated hsite hsent
    rcases hsucceeds with ⟨hnil, rfl⟩ | ⟨name, n, hn, -, rfl⟩
    · exact absurd hnil hfolders
    obtain rfl := Option.some_inj.1 hr
    refine ⟨h₂, ⟨name, n, rfl, hn⟩, fun m uri d hm _ => .inr ⟨name, ?_⟩⟩
    exact Option.some_inj.1 hm ▸ hn
  · obtain rfl := hstays hloses
    have heq := hjoins.eq
    obtain ⟨root, n, hroot, hn⟩ := hs.listed
    have hroot₂ : s₂.rootUri = .str root := by
      rw [heq]
      exact hroot
    have hr₀ : s.root = some r := by
      rw [heq] at hr
      exact hr
    -- the folder that the root is named after is still there, perhaps with a new workspace
    obtain ⟨n', hn'⟩ : ∃ n', Value.lookup root s₂.folders = some n' := by
      by_cases hcomes : root ∈ arriving ps
      · exact hjoins.exists_lookup_of_mem hcomes
      · refine ⟨n, (hjoins.lookup_of_not_mem hcomes).trans ?_⟩
        rw [lookup_without, if_neg fun hmem => hloses ⟨root, hmem, hroot⟩, hn]
    refine ⟨h₁.migrated hr hmigrated hsite hsent, ⟨root, n', hroot₂, hn'⟩,
      fun m uri d hm hd => ?_⟩
    obtain rfl := Option.some_inj.1 (hr.symm.trans hm)
    have hstill : s₂.host.documentAt r uri = some d ∧ (s₂.spaceOf? uri).getD r = r := by
      rw [hmigrated.documentAt] at hd
      rcases of_handOn hd with hd' | ⟨heq', hne, -⟩
      · refine ⟨hd', ?_⟩
        by_contra hne
        rw [handOn, hd', Option.isSome_some, if_pos rfl, if_neg fun h => hne h.symm, if_pos rfl]
          at hd
        cases hd
      · exact absurd heq'.symm hne
    rcases hs.home_or_matches hr₀ hroot ((hjoins.gains.documentAt r uri).symm.trans hstill.1) with
      hhome | hmatches
    · exact .inl hhome
    -- it matches a folder, so that it would have been moved to one
    obtain ⟨m, hspace⟩ := exists_spaceOf? h₁.toRooted.root_ne_none uri
    rw [hspace] at hstill
    obtain rfl : m = r := hstill.2
    rcases spaceOf?_eq_some hspace with ⟨folder, -, hfolder⟩ | ⟨-, hnone⟩
    · exact .inr ⟨folder, hfolder⟩
    · exact absurd hmatches (hnone root n' hn')

end Shared

end Session

/-! ## Codes that lints add -/

namespace Host

open Lint.Flake8 (grown grown_nil grown_grown)

variable {h h' h'' : Host}

/-- The documents are as they were. To the settings that the client sent, codes to ignore may have
been added: the same wherever the same settings are held. -/
structure Grows (h h' : Host) : Prop where
  documentAt : ∀ n uri, h'.documentAt n uri = h.documentAt n uri
  sentAt : ∀ sent, ∃ codes, ∀ n, h.sentAt n = some sent →
    h'.sentAt n = some (grown codes sent.1, sent.2)

namespace Grows

theorem of_same (hdocuments : ∀ n uri, h'.documentAt n uri = h.documentAt n uri)
    (hsent : ∀ n, h'.sentAt n = h.sentAt n) : h.Grows h' := by
  refine ⟨hdocuments, fun sent => ⟨[], fun n hn => ?_⟩⟩
  rw [hsent, hn, grown_nil]

theorem trans (h1 : h.Grows h') (h2 : h'.Grows h'') : h.Grows h'' := by
  refine ⟨fun n uri => (h2.documentAt n uri).trans (h1.documentAt n uri), fun sent => ?_⟩
  obtain ⟨xs, hxs⟩ := h1.sentAt sent
  obtain ⟨ys, hys⟩ := h2.sentAt (grown xs sent.1, sent.2)
  refine ⟨xs ++ ys, fun n hn => ?_⟩
  rw [hys n (hxs n hn), grown_grown]

theorem put {n : Nat} {uri : String} {d : Document} (hd : h.documentAt n uri = some d) :
    h.Grows (h.put n uri d) := by
  refine of_same (fun m v => ?_) fun m => ?_
  · rw [documentAt_put (lt_of_documentAt hd)]
    split
    · rename_i hmv
      rw [hmv.1, hmv.2, hd]
    · rfl
  · rw [Host.sentAt, Host.sentAt, Host.put, configAt_withDocuments]

theorem amendClient (revision : Nat) (shared : Settings.Settled → Bool) (codes : List Value) :
    h.Grows (h.amendClient revision Config.ignorePath shared (extend codes)) := by
  refine ⟨(extends_amendClient _ _ _ _ h).documentAt, fun sent => ?_⟩
  by_cases hrevision : sent.2 = revision
  · refine ⟨codes, fun n hn => ?_⟩
    obtain ⟨c, hc, rfl⟩ := Option.map_eq_some_iff.1 hn
    have hholds : c.revision = revision := hrevision
    rw [Host.sentAt, configAt_amendClient, hc, Option.map_some, Option.map_some, if_pos hholds]
    rfl
  · refine ⟨[], fun n hn => ?_⟩
    obtain ⟨c, hc, rfl⟩ := Option.map_eq_some_iff.1 hn
    have hother : ¬ c.revision = revision := hrevision
    rw [Host.sentAt, configAt_amendClient, hc, Option.map_some, Option.map_some, if_neg hother,
      grown_nil]

end Grows

theorem Touch.grows (hstep : h.Touch h') : h.Grows h' := by
  have hsame : ∀ cache asked, h.Grows { h with cache, asked } := fun _ _ =>
    .of_same (fun _ _ => rfl) fun _ => rfl
  rcases hstep with (hstep | hrun) | _
  · rcases hstep with _ | _ <;> exact hsame _ _
  · exact (ensures_extendIgnores_cases (P := h.Grows) _ _ _ (hsame _ _)
      (fun revision => .amendClient revision _ _) fun _ => hsame _ _).ok hrun
  · exact .of_same (fun _ _ => rfl) fun _ => rfl

theorem grows_of_touch (hsteps : ReflTransGen Touch h h') :
    h.Grows h' ∧ ∀ n, h'.siteAt n = h.siteAt n := by
  induction hsteps with
  | refl => exact ⟨.of_same (fun _ _ => rfl) fun _ => rfl, fun _ => rfl⟩
  | tail _ hstep ih =>
    exact ⟨ih.1.trans hstep.grows, fun n => (hstep.siteAt n).trans (ih.2 n)⟩

end Host

namespace Session

/-- What a lint leaves of folders, documents and settings. -/
structure Lints (s t : Session) : Prop where
  stays : s.Stays t
  grows : s.host.Grows t.host

theorem Lints.of_spaces {s t : Session} (hstays : s.Stays t)
    (hspaces : t.host.spaces = s.host.spaces) : s.Lints t := by
  refine ⟨hstays, .of_same (fun n uri => ?_) fun n => ?_⟩
  · rw [Host.documentAt, Host.documentAt, hspaces]
  · rw [Host.sentAt, Host.sentAt, Host.configAt, Host.configAt, hspaces]

theorem lints_of_steps {s t : Session} (hsteps : ReflTransGen Lints s t) : s.Lints t := by
  induction hsteps with
  | refl => exact .of_spaces ⟨rfl, rfl, rfl, rfl, fun _ => rfl⟩ rfl
  | tail _ hstep ih => exact ⟨ih.stays.trans hstep.stays, ih.grows.trans hstep.grows⟩

theorem lints_hook (isSaved : Bool) (uri : Value) : Moves Lints (hook (.lint isSaved) uri) := by
  intro s
  rw [hook]
  refine (ensures_settingFor_read s uri).bind ?_ fun _ _ h => h ▸ .refl
  rintro now s ⟨rfl, hopen⟩
  simp only [plugins, ensures_bind, ensures_get, ensures_pure, ensures_liftAct,
    Host.ensures_config_iff, ensures_set]
  refine ⟨fun config _ => ?_, fun _ => .refl⟩
  obtain ⟨found, desk, answer, -, hcall, -, hmoves, -⟩ := Hook.exists_linted_call now.caller isSaved
    s.host.machine config ⟨s.host, now.document⟩
  obtain ⟨hgrows, hsite⟩ := Host.grows_of_touch (Desk.host_of_along hmoves)
  have hlints : s.Lints { s with host := desk.host } := ⟨⟨rfl, rfl, rfl, rfl, hsite⟩, hgrows⟩
  simp only [hcall, Desk.document_of_along hmoves]
  rcases hu : now.openAs with _ | u
  · exact .single hlints
  obtain ⟨-, d, hd, hat⟩ := hopen u hu
  have hat' : desk.host.documentAt now.caller.space u = some d := by
    rw [hgrows.documentAt, hat]
  simp only [hd, ensures_bind, ensures_liftAct, Host.ensures_storeDocument, ensures_pure]
  refine ⟨fun _ => ?_, fun hle => absurd (Host.lt_of_documentAt hat') (Nat.not_lt.2 hle)⟩
  refine (ReflTransGen.single hlints).tail ⟨⟨rfl, rfl, rfl, rfl, ?_⟩, .put hat'⟩
  exact Host.siteAt_withDocuments _ _ _

/-- **A lint that comes due** changes folders and documents no more than any other. -/
theorem lints_after_fire (s : Session) (place : Nat) :
    s.Lints (Happening.after s (.fire place)) := by
  have hnotify : ∀ method params, Moves Lints (notify method params) := by
    refine fun _ _ => Moves.modify fun s => ?_
    split <;> exact .of_spaces ⟨rfl, rfl, rfl, rfl, fun _ => rfl⟩ rfl
  have hmoves : Moves Lints (Happening.act (.fire place)) :=
    Happening.moves_fire (fun _ _ _ => .of_spaces ⟨rfl, rfl, rfl, rfl, fun _ => rfl⟩ rfl)
      (fun uri isSaved => moves_lintNow (lints_hook isSaved uri) hnotify) place
  exact Happening.after_of_ensures (P := s.Lints)
    ((hmoves s).mono (fun _ _ => lints_of_steps) fun _ _ => lints_of_steps)

end Session

/-! ## New settings -/

namespace Session

variable {s t : Session} {sent : Value × Nat} {ps : Params} {answer : Value}

theorem home_mem_audience {n : Nat} {uri : String} {d : Document}
    (hd : s.host.documentAt n uri = some d) : d.home ∈ s.host.audience n := by
  obtain ⟨w, hw, hd⟩ := Option.bind_eq_some_iff.1 hd
  rw [Host.audience, hw]
  exact List.mem_cons_of_mem _ (List.mem_map_of_mem (Value.mem_of_lookup hd))

namespace Shared

/-- **New settings** reach the configuration in force, the folders, and the configurations that the
documents in these have. -/
theorem didChangeConfiguration (hs : s.Shared sent)
    (hrun : Session.didChangeConfiguration ps s = .ok answer t) :
    ∃ revision, ∀ client,
      t.Shared (Happening.clientAfter client (.message .didChangeConfiguration ps), revision) := by
  obtain ⟨r, root, hr, hconfig, hroot, hsite⟩ := hs.toRooted.root
  obtain ⟨host, timers, ⟨hall, hhanded⟩, rfl⟩ :=
    (ensures_didChangeConfiguration_handed s ps).ok hrun
  obtain ⟨client, hclient, hat⟩ : ∃ client, Host.serverPart (arg ps "settings") = .ok client ∧
      ∀ n ∈ s.audience, host.sentAt n = some (client, s.host.revisions + 1) := by
    have hfollows := fun n hn => (hall n hn).elim fun _ => hhanded.follows hn
    obtain ⟨client, -, -, hclient, -⟩ := hfollows r (by simp [audience, hconfig])
    refine ⟨client, hclient, fun n hn => ?_⟩
    obtain ⟨_, c, off, hclient', -, -, hc⟩ := hfollows n hn
    rw [Host.sentAt, hc, Except.ok.inj (hclient.symm.trans hclient')]
    rfl
  refine ⟨s.host.revisions + 1, fun before => ?_⟩
  rw [Happening.clientAfter, hclient, Except.toOption, Option.getD_some]
  have hr' : host.sentAt r = some (client, s.host.revisions + 1) :=
    hat r (by simp [audience, hconfig])
  have hfolder : ∀ {name n}, Value.lookup name s.folders = some n → ∀ m ∈ s.host.audience n,
      host.sentAt m = some (client, s.host.revisions + 1) := fun hn m hm =>
    hat m (List.mem_append_right _ (List.mem_flatMap.2 ⟨_, Value.mem_of_lookup hn, hm⟩))
  have hrooted := hs.toRooted.of_stays (t := { s with host, timers })
    ⟨rfl, rfl, rfl, rfl, hhanded.siteAt⟩
  refine ⟨⟨hrooted, fun m hm => ?_, fun name n hn => hfolder hn n List.mem_cons_self,
    fun m uri d hm hd => ?_, fun name n uri d hn hd => ?_, fun name n uri d hn hd => ?_⟩,
    hs.listed, fun m uri d hm hd => ?_⟩
  · exact Option.some_inj.1 (hr.symm.trans hm) ▸ hr'
  all_goals rw [hhanded.documentAt] at hd
  · -- the root hands settings on only where it is a folder, but else its documents are its own
    obtain rfl := Option.some_inj.1 (hr.symm.trans hm)
    rcases hs.native r uri d hm hd with hhome | ⟨name, hname⟩
    · rw [hhome]
      exact hr'
    · exact hfolder hname _ (home_mem_audience hd)
  · exact hfolder hn _ (home_mem_audience hd)
  · exact hs.moved name n uri d hn hd
  · exact hs.native m uri d hm hd

/-! ## Documents that are opened and closed -/

theorem withDocuments (hs : s.Shared sent) {n : Nat}
    {f : List (String × Document) → List (String × Document)} (timers : Timers Errand)
    (hnew : ∀ m uri d, (s.host.withDocuments n f).documentAt m uri = some d →
      d.home = m ∨ s.host.documentAt m uri = some d) :
    ({ s with host := s.host.withDocuments n f, timers } : Session).Shared sent := by
  have hsent : ∀ {m c}, s.host.sentAt m = some c →
      (s.host.withDocuments n f).sentAt m = some c := by
    intro m c hm
    rwa [Host.sentAt, Host.configAt_withDocuments]
  have hrooted := hs.toRooted.of_stays
    (t := { s with host := s.host.withDocuments n f, timers })
    ⟨rfl, rfl, rfl, rfl, Host.siteAt_withDocuments _ _ _⟩
  refine ⟨⟨hrooted, fun m hm => hsent (hs.ofRoot m hm),
    fun name m hm => hsent (hs.ofFolder name m hm), fun m uri d hm hd => ?_,
    fun name m uri d hm hd => ?_, fun name m uri d hm hd => ?_⟩, hs.listed, fun m uri d hm hd => ?_⟩
  · rcases hnew m uri d hd with hhome | hd
    · exact hhome ▸ hsent (hs.ofRoot m hm)
    · exact hsent (hs.inRoot m uri d hm hd)
  · rcases hnew m uri d hd with hhome | hd
    · exact hhome ▸ hsent (hs.ofFolder name m hm)
    · exact hsent (hs.inFolder name m uri d hm hd)
  · rcases hnew m uri d hd with hhome | hd
    · exact .inl hhome
    · exact hs.moved name m uri d hm hd
  · rcases hnew m uri d hd with hhome | hd
    · exact .inl hhome
    · exact hs.native m uri d hm hd

theorem didOpen (hs : s.Shared sent) (hrun : Session.didOpen ps s = .ok answer t) :
    t.Shared sent := by
  obtain ⟨uri, n, w, text, version, d, timers, -, -, hw, -, hd, rfl⟩ :=
    (ensures_didOpen s ps).ok hrun
  obtain ⟨hlt, -⟩ := List.getElem?_eq_some_iff.1 hw
  refine hs.withDocuments timers fun m v d' hd' => ?_
  rw [← Host.put, Host.documentAt_put hlt] at hd'
  split at hd'
  · rename_i hmv
    rw [← Option.some_inj.1 hd', hmv.1]
    exact .inl (Workspace.of_newDocument hd).2.1
  · exact .inr hd'

theorem didClose (hs : s.Shared sent) (hrun : Session.didClose ps s = .ok answer t) :
    t.Shared sent := by
  obtain ⟨uri, n, d, -, -, -, rfl⟩ := (ensures_didClose hs.toRooted.sound ps).ok hrun
  refine hs.withDocuments s.timers fun m v d' hd' => ?_
  rw [← Host.remove, Host.documentAt_remove] at hd'
  split at hd'
  · cases hd'
  · exact .inr hd'

/-! ## Lints -/

/-- The folders and the documents in them are as before, and what the client sent may have changed
where it is held. -/
theorem of_stays {sent' : Value × Nat} (hs : s.Shared sent) (hstays : s.Stays t)
    (hdocuments : ∀ n uri, t.host.documentAt n uri = s.host.documentAt n uri)
    (hsent : ∀ n, s.host.sentAt n = some sent → t.host.sentAt n = some sent') :
    t.Shared sent' := by
  have hroot : ∀ {r}, t.root = some r → s.root = some r := fun hr => hstays.root ▸ hr
  have hfolder : ∀ {name n}, Value.lookup name t.folders = some n →
      Value.lookup name s.folders = some n := fun hn => hstays.folders ▸ hn
  have hopen : ∀ {n uri d}, t.host.documentAt n uri = some d →
      s.host.documentAt n uri = some d := fun hd => hdocuments _ _ ▸ hd
  refine ⟨⟨hs.toRooted.of_stays hstays, fun r hr => hsent r (hs.ofRoot r (hroot hr)),
    fun name n hn => hsent n (hs.ofFolder name n (hfolder hn)),
    fun r uri d hr hd => hsent _ (hs.inRoot r uri d (hroot hr) (hopen hd)),
    fun name n uri d hn hd => hsent _ (hs.inFolder name n uri d (hfolder hn) (hopen hd)),
    fun name n uri d hn hd => hs.moved name n uri d (hfolder hn) (hopen hd)⟩, ?_,
    fun r uri d hr hd => ?_⟩
  · rw [hstays.rootUri, hstays.folders]
    exact hs.listed
  · rw [hstays.folders]
    exact hs.native r uri d (hroot hr) (hopen hd)

/-- **A lint** adds codes to the settings of the client, the same for everyone. -/
theorem lints (hs : s.Shared sent) (hlints : s.Lints t) :
    ∃ codes, t.Shared (Lint.Flake8.grown codes sent.1, sent.2) := by
  obtain ⟨codes, hcodes⟩ := hlints.grows.sentAt sent
  exact ⟨codes, hs.of_stays hlints.stays hlints.grows.documentAt hcodes⟩

/-! ## Runs -/

theorem of_start {machine : Machine} {engines : Engines} {checksParent : Bool}
    (hstart : handle ps .start (fresh machine engines checksParent) = .ok answer s) :
    s.Shared (.object [], 0) := by
  obtain ⟨uri, n, names, s₀, u, hsetUp, -, hjoins, hsame⟩ :=
    (ensures_start_setUp machine engines checksParent ps).ok hstart
  have hshares₀ : s₀.Shares (.object [], 0) := by
    have hnone : ∀ {m v d}, s₀.host.documentAt m v ≠ some d := by
      intro m v d hd
      rw [hsetUp.documentAt] at hd
      cases hd
    refine ⟨hsetUp.rooted, fun m hm => ?_, fun name m hm => ?_, fun _ _ _ _ hd => absurd hd hnone,
      fun _ _ _ _ _ hd => absurd hd hnone, fun _ _ _ _ _ hd => absurd hd hnone⟩
    · rw [← Option.some_inj.1 (hsetUp.root.symm.trans hm), hsetUp.sentAt]
    · have hmem := Value.mem_of_lookup hm
      rw [hsetUp.folders, List.mem_singleton] at hmem
      rw [(Prod.mk.inj hmem).2, hsetUp.sentAt]
  have hshares := hshares₀.joins hjoins
  have hsentAt : ∀ m, s.host.sentAt m = u.host.sentAt m := fun m => by
    rw [Host.sentAt, Host.sentAt, Host.configAt, Host.configAt, hsame.spaces]
  have hopen : ∀ {m v d}, s.host.documentAt m v ≠ some d := by
    intro m v d hd
    rw [documentAt_of_start hstart] at hd
    cases hd
  obtain ⟨root, r, hroot, -, hr⟩ := listed_of_start hstart
  refine ⟨⟨rooted_of_start hstart, fun m hm => ?_, fun name m hm => ?_,
    fun _ _ _ _ hd => absurd hd hopen, fun _ _ _ _ _ hd => absurd hd hopen,
    fun _ _ _ _ _ hd => absurd hd hopen⟩, ⟨root, r, hroot, hr⟩, fun _ _ _ _ hd => absurd hd hopen⟩
  · rw [hsentAt, hshares.ofRoot m (hsame.root ▸ hm)]
  · rw [hsentAt, hshares.ofFolder name m (hsame.folders ▸ hm)]

end Shared

/-- A message about settings, folders or documents, which the server handles without a fault, a lint
that comes due, or a change of the outside world. A change of folders leaves a folder. -/
def Obliges (s : Session) : Happening → Prop
  | .message method ps =>
    method ∈ [.didChangeConfiguration, .didChangeWorkspaceFolders, .didOpen, .didClose] ∧
      Ensures (handle ps method) s
        (fun _ t => method = .didChangeWorkspaceFolders → t.folders ≠ []) fun _ _ => False
  | .fire _ | .world _ _ _ => True

instance (s : Session) : (e : Happening) → Decidable (s.Obliges e)
  | .message method ps => inferInstanceAs (Decidable (
      method ∈ [.didChangeConfiguration, .didChangeWorkspaceFolders, .didOpen, .didClose] ∧
      Ensures (handle ps method) s
        (fun _ t => method = .didChangeWorkspaceFolders → t.folders ≠ []) fun _ _ => False))
  | .fire _ | .world _ _ _ => .isTrue trivial

/-- The settings of the client in the configuration of a workspace. -/
def clientAt (s : Session) (n : Nat) : Option Value := (s.host.configAt n).map (·.client)

/-- The configuration in force, those of the folders and those of the documents that are open in the
folders all hold these settings. -/
def Heeds (client : Value) (s : Session) : Prop :=
  (∃ r, s.config = some r ∧ s.clientAt r = some client) ∧
    ∀ name n, Value.lookup name s.folders = some n → s.clientAt n = some client ∧
      ∀ uri d, s.host.documentAt n uri = some d → s.clientAt d.home = some client

theorem Shared.heeds (hs : s.Shared sent) : s.Heeds sent.1 := by
  have hclient : ∀ {n}, s.host.sentAt n = some sent → s.clientAt n = some sent.1 := by
    intro n hn
    obtain ⟨c, hc, rfl⟩ := Option.map_eq_some_iff.1 hn
    rw [clientAt, hc]
    rfl
  obtain ⟨r, -, hr, hconfig, -⟩ := hs.toRooted.root
  exact ⟨⟨r, hconfig, hclient (hs.ofRoot r hr)⟩, fun name n hn =>
    ⟨hclient (hs.ofFolder name n hn), fun uri d hd => hclient (hs.inFolder name n uri d hn hd)⟩⟩

section

open Lint.Flake8 (grown grown_nil grown_grown)

variable {client : Value} {codes : List Value} {revision : Nat}

/-- **What happens** leaves everyone with the settings that the client sent last. To these only a
lint adds codes. -/
theorem Shared.after (hs : s.Shared (grown codes client, revision)) {e : Happening}
    (he : s.Obliges e) : ∃ codes' revision',
      (Happening.after s e).Shared (grown codes' (e.clientAfter client), revision') ∧
      ((∀ place, e ≠ .fire place) → codes = [] → codes' = []) := by
  rcases e with ⟨method, ps⟩ | place | ⟨files, time, engines⟩
  · obtain ⟨hmethod, hruns⟩ := he
    obtain ⟨v, t, hrun, hfolders⟩ := hruns.exists_ok
    rw [Happening.after_of_ok hrun]
    simp only [List.mem_cons, List.not_mem_nil, or_false] at hmethod
    rcases hmethod with rfl | rfl | rfl | rfl
    · obtain ⟨revision', hshared⟩ := hs.didChangeConfiguration hrun
      refine ⟨[], revision', ?_, fun _ _ => rfl⟩
      rw [grown_nil]
      exact hshared client
    · refine ⟨codes, revision, ?_, fun _ h => h⟩
      rcases hevent : (arg ps "event").isNull with _ | _
      · exact hs.reorganised ((ensures_didChangeWorkspaceFolders_reorganised hs.toRooted hevent).ok
          hrun) (hfolders rfl)
      · cases hrun.symm.trans (handle_of_isNull hevent s)
        exact hs
    · exact ⟨codes, revision, hs.didOpen hrun, fun _ h => h⟩
    · exact ⟨codes, revision, hs.didClose hrun, fun _ h => h⟩
  · obtain ⟨more, hshared⟩ := hs.lints (lints_after_fire s place)
    refine ⟨codes ++ more, revision, ?_, fun hno => absurd rfl (hno place)⟩
    rw [← grown_grown]
    exact hshared
  · refine ⟨codes, revision, ?_, fun _ h => h⟩
    exact hs.of_stays ⟨rfl, rfl, rfl, rfl, fun _ => rfl⟩ (fun _ _ => rfl) fun _ h => h

theorem Shared.run (hs : s.Shared (grown codes client, revision)) {es : List Happening}
    (hes : Always Happening.after Obliges s es) : ∃ codes' revision',
      (es.foldl Happening.after s).Shared
        (grown codes' (es.foldl Happening.clientAfter client), revision') ∧
      ((∀ place, .fire place ∉ es) → codes = [] → codes' = []) := by
  induction es generalizing s client codes revision with
  | nil => exact ⟨codes, revision, hs, fun _ h => h⟩
  | cons e es ih =>
    obtain ⟨codes₁, revision₁, hs₁, hnone₁⟩ := hs.after hes.1
    obtain ⟨codes₂, revision₂, hs₂, hnone₂⟩ := ih hs₁ hes.2
    refine ⟨codes₂, revision₂, hs₂, fun hno hcodes => hnone₂ (fun place hmem => ?_) ?_⟩
    · exact hno place (List.mem_cons_of_mem _ hmem)
    · exact hnone₁ (fun place heq => hno place (heq ▸ List.mem_cons_self)) hcodes

/-- **All workspaces see the same settings of the client.** From a start on, as long as the
messages about settings, folders and documents are handled without a fault and a folder is left, the
configuration in force, those of all folders and those of the documents in them hold what the client
sent last, in whatever order settings, folders and documents change and lints come due. Only lints
add to that, codes for flake8 to ignore: whatever a lint adds is added for all of them at once. -/
theorem settings_of_the_client_are_shared {machine : Machine} {engines : Engines}
    {checksParent : Bool} {ps : Params} {answer : Value} {s : Session}
    (hstart : handle ps .start (fresh machine engines checksParent) = .ok answer s)
    {es : List Happening} (hes : Always Happening.after Obliges s es) :
    ∃ codes, (es.foldl Happening.after s).Heeds
        (grown codes (es.foldl Happening.clientAfter (.object []))) ∧
      ((∀ place, .fire place ∉ es) → (es.foldl Happening.after s).Heeds
        (es.foldl Happening.clientAfter (.object []))) ∧
      ∀ place, ∃ more, (Happening.after (es.foldl Happening.after s) (.fire place)).Heeds
        (grown (codes ++ more) (es.foldl Happening.clientAfter (.object []))) := by
  have hs : s.Shared (grown [] (.object []), 0) := .of_start hstart
  obtain ⟨codes, revision, hshared, hnone⟩ := hs.run hes
  have hheeds := hshared.heeds
  refine ⟨codes, hheeds, fun hno => ?_, fun place => ?_⟩
  · rwa [hnone hno rfl, grown_nil] at hheeds
  obtain ⟨more, hmore⟩ := hshared.lints (lints_after_fire _ place)
  refine ⟨more, ?_⟩
  rw [← grown_grown]
  exact hmore.heeds

end

/-- Settings that have flake8 ignore a code everywhere, and another one in a single file. -/
def flake8Ignoring (codes : List Value) : Value :=
  .object [("plugins", .object [("flake8", .object [("enabled", .bool true),
    ("ignore", .list codes), ("perFileIgnores", .list [.str "a.py:F401"])])])]

/-- A document is opened in the root and moved to a folder that comes; then the root goes, and the
client changes its settings. The document is linted, and the folder that has become the root comes
again. -/
def rearrangements : List Happening := [
  .message .didOpen (opening "file:///w/u/a.py" "x\n"),
  .message .didChangeWorkspaceFolders (regrouping ["file:///w/u"] []),
  .message .didChangeWorkspaceFolders (regrouping [] ["file:///w"]),
  .message .didChangeConfiguration (telling (flake8Ignoring [.str "E501"])),
  .world {} 1 {},
  .fire 0,
  .message .didChangeWorkspaceFolders (regrouping ["file:///v"] [])]

theorem ensures_rearrangements :
    Ensures (handle (starting "file:///w" ["file:///v"]) .start) (fresh {} {} false)
      (fun _ s => Always Happening.after Obliges s rearrangements ∧
        (rearrangements.foldl Happening.after s).config.bind
            (rearrangements.foldl Happening.after s).clientAt =
          some (flake8Ignoring [.str "E501", .str "F401"])) fun _ _ => False := by
  decide +kernel

/-- The code for the file is in the list of every workspace afterwards. -/
theorem settings_shared_after_rearrangements : ∃ answer s,
    handle (starting "file:///w" ["file:///v"]) .start (fresh {} {} false) = .ok answer s ∧
    Always Happening.after Obliges s rearrangements ∧
    (rearrangements.foldl Happening.after s).Heeds
      (flake8Ignoring [.str "E501", .str "F401"]) := by
  obtain ⟨answer, s, hstart, hobliges, hclient⟩ := ensures_rearrangements.exists_ok
  obtain ⟨codes, hheeds, -⟩ := settings_of_the_client_are_shared hstart hobliges
  obtain ⟨r, hr, hat⟩ := hheeds.1
  rw [hr, Option.bind_some, hat] at hclient
  refine ⟨answer, s, hstart, hobliges, ?_⟩
  rwa [Option.some_inj.1 hclient] at hheeds

end Session
end LangServer
