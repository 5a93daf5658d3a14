import LangServer.Proofs.Session.Runs

/-!
# Where open documents are kept

Every message about a document finds the document's workspace anew, by the URI, among the folders of
that moment. An open document can be found only while it is kept there. A change of folders may
send messages elsewhere, but it moves no documents except those of the root.

So open documents are kept where they are looked for along a run if and only if no change of folders
on the way sends a document elsewhere that the root does not have (`Client.kept_iff_harmless`).
-/

namespace LangServer

/-! ## Documents that are found -/

namespace Session

variable {s s' : Session} {uri : String}

/-- The document is open in the workspace where it is looked for, and nowhere else. -/
def Locates (s : Session) (uri : String) : Prop :=
  ∃ n, s.spaceOf? uri = some n ∧ ∀ m, (s.host.documentAt m uri).isSome ↔ m = n

theorem locates_iff {n : Nat} (h : ∀ m, (s.host.documentAt m uri).isSome ↔ m = n) :
    s.Locates uri ↔ s.spaceOf? uri = some n := by
  constructor
  · rintro ⟨k, hk, hdoc⟩
    rw [hk, (hdoc n).1 ((h n).2 rfl)]
  · exact fun hn => ⟨n, hn, h⟩

theorem Locates.congr (hspace : s'.spaceOf? uri = s.spaceOf? uri)
    (hdoc : ∀ m, (s'.host.documentAt m uri).isSome = (s.host.documentAt m uri).isSome)
    (h : s.Locates uri) : s'.Locates uri := by
  obtain ⟨n, hn, hplace⟩ := h
  exact ⟨n, hspace.trans hn, fun m => by rw [hdoc m, hplace m]⟩

theorem isSome_handOn {r n k : Nat} {place : Nat → Option Document}
    (h : ∀ m, (place m).isSome ↔ m = n) (m : Nat) :
    (handOn r k place m).isSome ↔ m = if n = r then k else n := by
  by_cases hr : n = r
  · have hsome : (place r).isSome := (h r).2 hr.symm
    rw [handOn, if_pos hsome, if_pos hr]
    by_cases hk : m = k
    · simp [hk, hsome]
    · by_cases hm : m = r
      · rw [if_neg hk, if_pos hm]
        simp [hk]
      · rw [if_neg hk, if_neg hm, h m, hr]
        exact ⟨fun h => absurd h hm, fun h => absurd h hk⟩
  · have hnone : ¬ (place r).isSome := fun hsome => hr ((h r).1 hsome).symm
    rw [handOn, if_neg hnone, if_neg hr, h m]

/-- **A change of folders** leaves a document located if the root had it, or if it is still looked
for where it was. -/
theorem locates_of_migrated {t : Session} {r : Nat} {host : Host} (h : s.Locates uri)
    (ht : s.Regrouped t) (hr : t.root = some r) (hm : t.Migrated r host) :
    ({ t with host } : Session).Locates uri ↔
      s.spaceOf? uri = t.root ∨ t.spaceOf? uri = s.spaceOf? uri := by
  obtain ⟨n, hn, hplace⟩ := h
  obtain ⟨k, hk⟩ := exists_spaceOf? (hr ▸ Option.some_ne_none r) uri
  have hdoc : ∀ m, (host.documentAt m uri).isSome ↔ m = if n = r then k else n := by
    intro m
    rw [hm.documentAt, hk, Option.getD_some]
    exact isSome_handOn (fun m => by rw [ht.host.documentAt, hplace m]) m
  rw [locates_iff (s := { t with host }) hdoc]
  show t.spaceOf? uri = _ ↔ _
  rw [hn, hk, hr, Option.some_inj, Option.some_inj, Option.some_inj]
  by_cases hnr : n = r
  · simp [hnr]
  · simp [hnr]

theorem locates_of_regrouped (h : s.Locates uri) (ht : s.Regrouped s') :
    s'.Locates uri ↔ s'.spaceOf? uri = s.spaceOf? uri := by
  obtain ⟨n, hn, hplace⟩ := h
  rw [hn]
  exact locates_iff fun m => by rw [ht.host.documentAt, hplace m]

end Session

/-! ## Clients -/

open Session (documentUri?)

/-- A server and the documents that its client has open. -/
structure Client where
  session : Session
  opened : List String

/-- The documents that the client has open after an event that succeeds. -/
def Event.track (opened : List String) : Event → List String
  | didOpen ps => (documentUri? ps).toList ++ opened
  | didClose ps => opened.filter fun u => documentUri? ps ≠ some u
  | _ => opened

namespace Client

/-- What an event does. -/
def step (c : Client) (e : Event) : Client :=
  match e.act c.session with
  | .ok _ s => ⟨s, e.track c.opened⟩
  | .error _ s => ⟨s, c.opened⟩

/-- The client starts once, opens only documents that are closed, and changes and closes only
documents that are open. -/
def Allows (c : Client) : Event → Prop
  | .start _ => False
  | .didOpen ps => ∀ u ∈ documentUri? ps, u ∉ c.opened
  | .didChange ps | .didClose ps => ∀ u ∈ documentUri? ps, u ∈ c.opened
  | .didChangeWorkspaceFolders _ | .files _ => True

instance decidableAllows (c : Client) : (e : Event) → Decidable (c.Allows e)
  | .start _ => .isFalse fun h => h
  | .didOpen ps => inferInstanceAs (Decidable (∀ u ∈ documentUri? ps, u ∉ c.opened))
  | .didChange ps => inferInstanceAs (Decidable (∀ u ∈ documentUri? ps, u ∈ c.opened))
  | .didClose ps => inferInstanceAs (Decidable (∀ u ∈ documentUri? ps, u ∈ c.opened))
  | .didChangeWorkspaceFolders _ => .isTrue trivial
  | .files _ => .isTrue trivial

/-- Every open document is kept where it is looked for, and nowhere else. -/
def Kept (c : Client) : Prop := ∀ u ∈ c.opened, c.session.Locates u

/-- The event sends no open document elsewhere, unless that document is in the root workspace of the
moment after it and is moved along. An event that fails moves nothing. -/
def Harmless (c : Client) : Event → Prop
  | .didChangeWorkspaceFolders ps =>
    Ensures (Session.didChangeWorkspaceFolders ps) c.session
      (fun _ s => ∀ u ∈ c.opened,
        c.session.spaceOf? u = s.root ∨ s.spaceOf? u = c.session.spaceOf? u)
      fun _ s => ∀ u ∈ c.opened, s.spaceOf? u = c.session.spaceOf? u
  | _ => True

instance decidableHarmless (c : Client) : (e : Event) → Decidable (c.Harmless e)
  | .didChangeWorkspaceFolders _ => Ensures.decidable
  | .start _ | .didOpen _ | .didChange _ | .didClose _ | .files _ => .isTrue trivial

/-- A message about an open document finds it: closing it succeeds, and when changing it fails for
a missing key, then the key is missing in one of the changes. -/
def Serves (c : Client) : Event → Prop
  | .didClose ps => (documentUri? ps).isSome →
    Ensures (Session.didClose ps) c.session (fun _ _ => True) fun _ _ => False
  | .didChange ps => (documentUri? ps).isSome →
    Ensures (Session.didChange ps) c.session (fun _ _ => True) fun f _ =>
      ∀ k, f = .missingKey k → ∃ changes, (Session.arg ps "contentChanges").elements = .ok changes ∧
        ∃ change ∈ changes, ∃ d,
          Document.change c.session.host.machine.files d change = .error f
  | _ => True

/-- What holds of a client and its server besides: documents that are stored are open. -/
structure Tidy (c : Client) : Prop where
  sound : c.session.Sound
  root_ne_none : c.session.root ≠ none
  opened : ∀ m u, (c.session.host.documentAt m u).isSome → u ∈ c.opened

variable {c : Client}

theorem step_of_ok {e : Event} {answer : Value} {s : Session} (h : e.act c.session = .ok answer s) :
    c.step e = ⟨s, e.track c.opened⟩ := by
  rw [step, h]

theorem step_of_error {e : Event} {f : Fault} {s : Session} (h : e.act c.session = .error f s) :
    c.step e = ⟨s, c.opened⟩ := by
  rw [step, h]

theorem step_of_ensures {e : Event} {P : Client → Prop}
    (h : Ensures e.act c.session (fun _ s => P ⟨s, e.track c.opened⟩) fun _ s => P ⟨s, c.opened⟩) :
    P (c.step e) := by
  cases hx : e.act c.session with
  | ok answer s =>
    rw [step_of_ok hx]
    exact h.ok hx
  | error f s =>
    rw [step_of_error hx]
    exact h.error hx

theorem Tidy.documentAt_eq_none (ht : c.Tidy) {u : String} (hu : u ∉ c.opened) (m : Nat) :
    c.session.host.documentAt m u = none := by
  rw [← Option.not_isSome_iff_eq_none]
  exact fun h => hu (ht.opened m u h)

/-! ## What each event keeps -/

theorem step_didOpen (ht : c.Tidy) (hk : c.Kept) {ps : Session.Params}
    (ha : c.Allows (.didOpen ps)) :
    (c.step (.didOpen ps)).Tidy ∧ (c.step (.didOpen ps)).Kept := by
  refine step_of_ensures (P := fun c => c.Tidy ∧ c.Kept)
    ((Session.ensures_didOpen c.session ps).mono ?_ ?_)
  · rintro _ _ ⟨uri, n, w, text, version, d, timers, huri, hn, hw, -, -, rfl⟩
    have hnew : uri ∉ c.opened := ha uri huri
    obtain ⟨hlt, -⟩ := List.getElem?_eq_some_iff.1 hw
    have htrack : (Event.didOpen ps).track c.opened = uri :: c.opened := by
      rw [Event.track, huri]
      rfl
    rw [htrack]
    have hlength := (Host.sameRoots_put c.session.host n uri d).length
    refine ⟨⟨ht.sound.of_length_le (Nat.le_of_eq hlength.symm), ht.root_ne_none, ?_⟩, ?_⟩
    · intro m u hsome
      rw [Host.documentAt_put hlt] at hsome
      split at hsome
      · rename_i hmu
        exact hmu.2 ▸ List.mem_cons_self
      · exact List.mem_cons_of_mem _ (ht.opened m u hsome)
    · intro u hu
      by_cases h : u = uri
      · subst h
        refine ⟨n, hn, fun m => ?_⟩
        rw [Host.documentAt_put hlt, ht.documentAt_eq_none hnew]
        by_cases hm : m = n <;> simp [hm]
      · refine Session.Locates.congr (s := c.session) rfl (fun m => ?_)
          (hk u ((List.mem_cons.1 hu).resolve_left h))
        rw [Host.documentAt_put hlt, if_neg fun hmu => h hmu.2]
  · rintro _ _ (rfl | ⟨hnone, u, n, hn⟩)
    · exact ⟨ht, hk⟩
    · exact absurd hnone (ht.sound.config_ne_none hn)

theorem step_didChange (ht : c.Tidy) (hk : c.Kept) (ps : Session.Params) :
    (c.step (.didChange ps)).Tidy ∧ (c.step (.didChange ps)).Kept := by
  have hrevised : ∀ {host : Host} {timers : Timers Errand}, c.session.host.Revised host →
      (⟨{ c.session with host, timers }, c.opened⟩ : Client).Tidy ∧
        (⟨{ c.session with host, timers }, c.opened⟩ : Client).Kept := by
    intro host timers hrev
    have hsome : ∀ m u, (host.documentAt m u).isSome = (c.session.host.documentAt m u).isSome := by
      intro m u
      rw [← Option.isSome_map (f := Document.origin), hrev.origin, Option.isSome_map]
    refine ⟨⟨ht.sound.of_length_le (Nat.le_of_eq hrev.length.symm), ht.root_ne_none, ?_⟩, ?_⟩
    · exact fun m u h => ht.opened m u (hsome m u ▸ h)
    · exact fun u hu => Session.Locates.congr (s := c.session) rfl (fun m => hsome m u) (hk u hu)
  refine step_of_ensures (P := fun c => c.Tidy ∧ c.Kept)
    ((Session.ensures_didChange c.session ps).mono ?_ ?_)
  · rintro _ _ ⟨host, timers, rfl, hrev⟩
    exact hrevised hrev
  · rintro _ _ ⟨⟨host, timers, rfl, hrev⟩, -⟩
    exact hrevised hrev

theorem step_didClose (ht : c.Tidy) (hk : c.Kept) {ps : Session.Params}
    (ha : c.Allows (.didClose ps)) :
    (c.step (.didClose ps)).Tidy ∧ (c.step (.didClose ps)).Kept := by
  refine step_of_ensures (P := fun c => c.Tidy ∧ c.Kept)
    ((Session.ensures_didClose ht.sound ps).mono ?_ ?_)
  · rintro _ _ ⟨uri, n, d, huri, hn, hd, rfl⟩
    obtain ⟨n', hn', hplace⟩ := hk uri (ha uri huri)
    obtain rfl : n = n' := Option.some_inj.1 (hn.symm.trans hn')
    have hmem : ∀ u, u ∈ (Event.didClose ps).track c.opened ↔ u ∈ c.opened ∧ u ≠ uri := by
      intro u
      rw [Event.track, huri, List.mem_filter, decide_eq_true_iff, ne_eq, Option.some_inj]
      exact and_congr_right fun _ => ⟨Ne.symm, Ne.symm⟩
    have hlength := (Host.sameRoots_remove c.session.host n uri).length
    refine ⟨⟨ht.sound.of_length_le (Nat.le_of_eq hlength.symm), ht.root_ne_none, ?_⟩, ?_⟩
    · intro m u hsome
      rw [Host.documentAt_remove] at hsome
      split at hsome
      · cases hsome
      · rename_i hmu
        refine (hmem u).2 ⟨ht.opened m u hsome, ?_⟩
        -- the document was in one workspace only, and was taken out there
        rintro rfl
        exact hmu ⟨(hplace m).1 hsome, rfl⟩
    · intro u hu
      obtain ⟨hu, hne⟩ := (hmem u).1 hu
      refine Session.Locates.congr (s := c.session) rfl (fun m => ?_) (hk u hu)
      rw [Host.documentAt_remove, if_neg fun hmu => hne hmu.2]
  · rintro _ _ ⟨rfl, -⟩
    exact ⟨ht, hk⟩

theorem step_files (ht : c.Tidy) (hk : c.Kept) (fs : Files) :
    (c.step (.files fs)).Tidy ∧ (c.step (.files fs)).Kept :=
  ⟨⟨⟨ht.sound.lt_of_holds, ht.sound.config_eq, ht.sound.folders_eq_nil⟩, ht.root_ne_none,
    ht.opened⟩, hk⟩

theorem Tidy.of_regrouped (ht : c.Tidy) {s : Session} (hs : c.session.Regrouped s) :
    (⟨s, c.opened⟩ : Client).Tidy := by
  refine ⟨hs.sound ht.sound, hs.root_ne_none ht.root_ne_none, fun m u h => ht.opened m u ?_⟩
  rwa [hs.host.documentAt] at h

theorem isSome_of_isSome_handOn {r k m : Nat} {place : Nat → Option Document}
    (h : (Session.handOn r k place m).isSome) : ∃ n, (place n).isSome := by
  rw [Session.handOn] at h
  by_cases hr : (place r).isSome
  · exact ⟨r, hr⟩
  · rw [if_neg hr] at h
    exact ⟨m, h⟩

/-- **A change of folders keeps open documents where they are looked for exactly when it is
harmless.** -/
theorem step_didChangeWorkspaceFolders (ht : c.Tidy) (hk : c.Kept) (ps : Session.Params) :
    (c.step (.didChangeWorkspaceFolders ps)).Tidy ∧
      ((c.step (.didChangeWorkspaceFolders ps)).Kept ↔
        c.Harmless (.didChangeWorkspaceFolders ps)) := by
  have hspec := Session.ensures_didChangeWorkspaceFolders ht.sound ps
  rw [Harmless, Ensures]
  cases hx : Session.didChangeWorkspaceFolders ps c.session with
  | ok answer s =>
    rw [step_of_ok (e := .didChangeWorkspaceFolders ps) hx]
    rcases hspec.ok hx with ⟨-, rfl⟩ | ⟨-, t, r, host, hregrouped, hr, hmigrated, rfl⟩
    · exact ⟨ht, fun _ _ _ => .inr rfl, fun _ => hk⟩
    · have ht' := ht.of_regrouped hregrouped
      refine ⟨⟨ht'.sound.of_length_le (Nat.le_of_eq hmigrated.length.symm), ht'.root_ne_none, ?_⟩,
        forall₂_congr fun u hu => Session.locates_of_migrated (hk u hu) hregrouped hr hmigrated⟩
      intro m u hsome
      rw [hmigrated.documentAt] at hsome
      obtain ⟨n, hn⟩ := isSome_of_isSome_handOn hsome
      exact ht'.opened n u hn
  | error f s =>
    rw [step_of_error (e := .didChangeWorkspaceFolders ps) hx]
    have hregrouped := hspec.error hx
    exact ⟨ht.of_regrouped hregrouped,
      forall₂_congr fun u hu => Session.locates_of_regrouped (hk u hu) hregrouped⟩

/-! ## Runs -/

/-- **One step** that the client may take keeps open documents where they are looked for exactly
when it is harmless. -/
theorem kept_step_iff (ht : c.Tidy) (hk : c.Kept) {e : Event} (ha : c.Allows e) :
    (c.step e).Tidy ∧ ((c.step e).Kept ↔ c.Harmless e) := by
  cases e with
  | start ps => exact ha.elim
  | didOpen ps => exact (step_didOpen ht hk ha).imp_right fun h => iff_of_true h trivial
  | didChange ps => exact (step_didChange ht hk ps).imp_right fun h => iff_of_true h trivial
  | didClose ps => exact (step_didClose ht hk ha).imp_right fun h => iff_of_true h trivial
  | didChangeWorkspaceFolders ps => exact step_didChangeWorkspaceFolders ht hk ps
  | files fs => exact (step_files ht hk fs).imp_right fun h => iff_of_true h trivial

theorem serves_of_kept (ht : c.Tidy) (hk : c.Kept) {e : Event} (ha : c.Allows e) :
    c.Serves e := by
  cases e with
  | didClose ps =>
    intro huri
    obtain ⟨uri, huri⟩ := Option.isSome_iff_exists.1 huri
    obtain ⟨n, hn, hplace⟩ := hk uri (ha uri huri)
    refine (Session.ensures_didClose ht.sound ps).mono (fun _ _ _ => trivial) ?_
    rintro _ _ ⟨-, hnone⟩
    have hsome := (hplace n).2 rfl
    rw [hnone uri n huri hn] at hsome
    cases hsome
  | didChange ps =>
    intro huri
    obtain ⟨uri, huri⟩ := Option.isSome_iff_exists.1 huri
    obtain ⟨n, hn, hplace⟩ := hk uri (ha uri huri)
    obtain ⟨d, hd⟩ := Option.isSome_iff_exists.1 ((hplace n).2 rfl)
    refine (Session.ensures_didChange c.session ps).mono (fun _ _ _ => trivial) ?_
    rintro f _ ⟨-, hkey⟩ k hf
    exact hkey uri n d k huri hn hd hf
  | start _ | didOpen _ | didChangeWorkspaceFolders _ | files _ => trivial

/-- A client whose server has just started. -/
def started (machine : Machine) (engines : Engines) (checksParent : Bool) (ps : Session.Params) :
    Client :=
  step ⟨.fresh machine engines checksParent, []⟩ (.start ps)

theorem tidy_started {machine : Machine} {engines : Engines} {checksParent : Bool}
    {ps : Session.Params} (hstart : Ensures (Session.start ps)
      (.fresh machine engines checksParent) (fun _ _ => True) fun _ _ => False) :
    (started machine engines checksParent ps).Tidy ∧
      (started machine engines checksParent ps).opened = [] := by
  obtain ⟨answer, s, hx, -⟩ := hstart.exists_ok
  have hfresh := Session.sound_fresh machine engines checksParent
  obtain ⟨hregrouped, hroot⟩ := (Session.ensures_start _ ps).ok hx
  have hstep : started machine engines checksParent ps = ⟨s, []⟩ :=
    step_of_ok (e := .start ps) hx
  rw [hstep]
  refine ⟨⟨hregrouped.sound hfresh, hroot, fun m u h => ?_⟩, rfl⟩
  rw [hregrouped.host.documentAt, Session.documentAt_fresh] at h
  cases h

/-- **Open documents are kept where they are looked for, along a whole run, if and only if every
change of folders on the way is harmless**; and then every message about an open document finds it.
The server has started once, and the client opens only closed documents and changes and closes only
open ones. -/
theorem kept_iff_harmless {machine : Machine} {engines : Engines} {checksParent : Bool}
    {ps : Session.Params} {events : List Event}
    (hstart : Ensures (Session.start ps) (.fresh machine engines checksParent)
      (fun _ _ => True) fun _ _ => False)
    (hallowed : Always step Allows (started machine engines checksParent ps) events) :
    (Always step (fun c e => (c.step e).Kept) (started machine engines checksParent ps) events ↔
      Always step Harmless (started machine engines checksParent ps) events) ∧
    (Always step Harmless (started machine engines checksParent ps) events →
      Always step Serves (started machine engines checksParent ps) events) := by
  obtain ⟨htidy, hopened⟩ := tidy_started hstart
  have hkept : (started machine engines checksParent ps).Kept := by
    intro u hu
    rw [hopened] at hu
    cases hu
  constructor
  · refine Always.iff (I := fun c => c.Tidy ∧ c.Kept) ?_ ⟨htidy, hkept⟩ hallowed
    rintro c e ⟨ht, hk⟩ ha
    obtain ⟨ht', hiff⟩ := kept_step_iff ht hk ha
    exact ⟨hiff, fun hk' => ⟨ht', hk'⟩⟩
  · refine Always.of_inv (I := fun c => c.Tidy ∧ c.Kept) ?_ ?_ ⟨htidy, hkept⟩ hallowed
    · rintro c e ⟨ht, hk⟩ ha hharmless
      obtain ⟨ht', hiff⟩ := kept_step_iff ht hk ha
      exact ⟨ht', hiff.2 hharmless⟩
    · exact fun c e h ha => serves_of_kept h.1 h.2 ha

/-- A nested folder comes and gets the document of the root that lies in it; a folder goes after its
document was closed. -/
theorem kept_when_folders_nest :
    let ps := Session.starting "file:///w" ["file:///v"]
    let events : List Event := [
      .didOpen (Session.opening "file:///w/sub/a.py" "x"),
      .didOpen (Session.opening "file:///v/b.py" "y"),
      .didChangeWorkspaceFolders (Session.regrouping ["file:///w/sub"] []),
      .didClose (Session.closing "file:///v/b.py"),
      .didChangeWorkspaceFolders (Session.regrouping [] ["file:///v"])]
    Ensures (Session.start ps) (.fresh {} {} false) (fun _ _ => True) (fun _ _ => False) ∧
      Always step Allows (started {} {} false ps) events ∧
      Always step Harmless (started {} {} false ps) events ∧
      Always step (fun c e => (c.step e).Kept) (started {} {} false ps) events ∧
      Always step Serves (started {} {} false ps) events := by
  intro ps events
  have hstart : Ensures (Session.start ps) (.fresh {} {} false) (fun _ _ => True)
      fun _ _ => False := by decide +kernel
  have hallowed : Always step Allows (started {} {} false ps) events := by decide +kernel
  have hharmless : Always step Harmless (started {} {} false ps) events := by decide +kernel
  obtain ⟨hkept, hserves⟩ := kept_iff_harmless hstart hallowed
  exact ⟨hstart, hallowed, hharmless, hkept.2 hharmless, hserves hharmless⟩

/-- A folder that goes while a document in it is open does harm. -/
example :
    let ps := Session.starting "file:///w" ["file:///v"]
    let events : List Event := [
      .didOpen (Session.opening "file:///v/b.py" "y"),
      .didChangeWorkspaceFolders (Session.regrouping [] ["file:///v"])]
    Always step Allows (started {} {} false ps) events ∧
      ¬ Always step Harmless (started {} {} false ps) events := by
  decide +kernel

end Client
end LangServer
