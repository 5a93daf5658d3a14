import LangServer.Proofs.Session.Arrivals

/-!
# Documents that are moved

A change of folders ends by moving the documents of the root, which may be a workspace that has just
become the root and has documents already. Each of them is taken out of the very table into which
it may go back, and goes where the folders of that moment send it.

Before that, folders only come and go (`Rearranged`): no document changes its place, and a workspace
that the session did not have before has none. So the documents of the workspaces that are left are
the same after the event as before it, each is still open in one workspace only, and only documents
of the root have changed their place (`Session.documents_moved_unchanged`).

Nothing is assumed of the session but that its workspaces are there and no document is open in two
of them; where documents of workspaces go that the session loses is not said.
-/

namespace LangServer

namespace Host

/-- The URIs under which documents are open in a workspace. -/
def openIn (h : Host) (n : Nat) : List String :=
  (h.spaces[n]?.elim [] (·.documents)).map (·.1)

theorem isSome_documentAt_iff {h : Host} {n : Nat} {uri : String} :
    (h.documentAt n uri).isSome ↔ uri ∈ h.openIn n := by
  rw [documentAt, openIn]
  cases h.spaces[n]? with
  | none => simp
  | some w =>
    rw [Option.bind_some, Option.elim_some, ← not_iff_not, Option.not_isSome_iff_eq_none]
    exact Value.lookup_eq_none_iff

theorem documentAt_of_length_le {h : Host} {n : Nat} (hn : h.spaces.length ≤ n) (uri : String) :
    h.documentAt n uri = none := by
  rw [documentAt, List.getElem?_eq_none hn]
  rfl

end Host

namespace Session

variable {s t u : Session}

/-! ## Documents that are open once -/

/-- No document is open in two workspaces of the session. -/
def OpenOnce (s : Session) : Prop :=
  ∀ uri m n, s.Holds m → s.Holds n → (s.host.documentAt m uri).isSome →
    (s.host.documentAt n uri).isSome → m = n

/-- The workspaces of the session. -/
def held (s : Session) : List Nat := s.root.toList ++ s.folders.map (·.2)

theorem mem_held_iff {n : Nat} : n ∈ s.held ↔ s.Holds n := by
  simp [held, Holds]

instance (s : Session) : Decidable s.Placed :=
  decidable_of_iff (∀ n ∈ s.held, n < s.host.spaces.length)
    (forall_congr' fun _ => imp_congr_left mem_held_iff)

instance (s : Session) : Decidable s.OpenOnce :=
  decidable_of_iff (∀ m ∈ s.held, ∀ n ∈ s.held, ∀ uri ∈ s.host.openIn m,
      (s.host.documentAt n uri).isSome → m = n) <| by
    constructor
    · exact fun h uri m n hm hn hdoc =>
        h m (mem_held_iff.2 hm) n (mem_held_iff.2 hn) uri (Host.isSome_documentAt_iff.1 hdoc)
    · exact fun h m hm n hn uri huri =>
        h uri m n (mem_held_iff.1 hm) (mem_held_iff.1 hn) (Host.isSome_documentAt_iff.2 huri)

/-! ## Folders that come and go -/

/-- Folders have come and gone, and another may be the root. Documents are where they were, and
none is in a workspace that the session did not have before. -/
structure Rearranged (s t : Session) : Prop where
  documentAt : ∀ n uri, t.host.documentAt n uri = s.host.documentAt n uri
  old_or_empty : ∀ n, t.Holds n → s.Holds n ∨ ∀ uri, s.host.documentAt n uri = none
  placed : s.Placed → t.Placed

namespace Rearranged

theorem refl (s : Session) : s.Rearranged s := ⟨fun _ _ => rfl, fun _ => Or.inl, fun h => h⟩

theorem trans (h1 : s.Rearranged t) (h2 : t.Rearranged u) : s.Rearranged u := by
  refine ⟨fun n uri => (h2.documentAt n uri).trans (h1.documentAt n uri), fun n hn => ?_,
    fun hs => h2.placed (h1.placed hs)⟩
  rcases h2.old_or_empty n hn with hold | hempty
  · exact h1.old_or_empty n hold
  · exact .inr fun uri => (h1.documentAt n uri).symm.trans (hempty uri)

theorem of_without (s : Session) (gone : List String) :
    s.Rearranged { s with folders := without gone s.folders } := by
  have hholds : ∀ n, ({ s with folders := without gone s.folders } : Session).Holds n →
      s.Holds n := by
    rintro n (hroot | ⟨folder, hmem⟩)
    · exact .inl hroot
    · exact .inr ⟨folder, (mem_of_mem_without hmem).1⟩
  exact ⟨fun _ _ => rfl, fun n hn => .inl (hholds n hn), fun hs n hn => hs n (hholds n hn)⟩

theorem joined {name : String} (h : s.Joined name t) : s.Rearranged t := by
  obtain ⟨n, r, client, host, -, -, hnew, hgains, hsite, -, rfl⟩ := h
  have hholds : ∀ m, ({ s with host, folders := Value.insert name n s.folders } : Session).Holds m →
      s.Holds m ∨ m = n := by
    rintro m (hroot | ⟨folder, hmem⟩)
    · exact .inl (Or.inl hroot)
    · rcases Value.mem_of_mem_insert hmem with heq | hmem
      · exact .inr (Prod.mk.inj heq).2
      · exact .inl (Or.inr ⟨folder, hmem⟩)
  refine ⟨hgains.documentAt, fun m hm => ?_, fun hs m hm => ?_⟩
  · rcases hholds m hm with hold | rfl
    · exact .inl hold
    · exact .inr (Host.documentAt_of_length_le hnew)
  · rcases hholds m hm with hold | rfl
    · exact Nat.lt_of_lt_of_le (hs m hold) hgains.length_le
    · exact Host.lt_of_siteAt hsite

theorem joins {names : List String} (h : Joins s names t) : s.Rearranged t := by
  induction h with
  | nil => exact refl _
  | cons hjoined _ ih => exact (joined hjoined).trans ih

theorem succeeds {first : Option String} (h : s.Succeeds first t) : s.Rearranged t := by
  rcases h with ⟨-, rfl⟩ | ⟨name, n, hn, -, rfl⟩
  · exact refl _
  have hholds : ∀ m, ({ s with rootUri := .str name, config := some n, root := some n } :
      Session).Holds m → s.Holds m := by
    rintro m (hroot | hfolder)
    · obtain rfl := Option.some_inj.1 hroot
      exact .inr ⟨name, Value.mem_of_lookup hn⟩
    · exact .inr hfolder
  exact ⟨fun _ _ => rfl, fun m hm => .inl (hholds m hm), fun hs m hm => hs m (hholds m hm)⟩

theorem openOnce (h : s.Rearranged t) (hone : s.OpenOnce) : t.OpenOnce := by
  have hheld : ∀ {n uri}, t.Holds n → (t.host.documentAt n uri).isSome → s.Holds n := by
    intro n uri hn hdoc
    refine (h.old_or_empty n hn).resolve_right fun hempty => ?_
    rw [h.documentAt, hempty uri] at hdoc
    cases hdoc
  intro uri m n hm hn hdocm hdocn
  have hold := hone uri m n (hheld hm hdocm) (hheld hn hdocn)
  rw [← h.documentAt, ← h.documentAt] at hold
  exact hold hdocm hdocn

end Rearranged

/-- **A change of folders** lets folders come and go, and then moves the documents of the root. -/
theorem ensures_didChangeWorkspaceFolders_rearranged (hs : s.Placed) {ps : Params}
    (hevent : (arg ps "event").isNull = false) :
    Ensures (didChangeWorkspaceFolders ps) s
      (fun _ s' => ∃ t r host, s.Rearranged t ∧ t.root = some r ∧ t.Migrated r host ∧
        s' = { t with host })
      fun _ _ => True := by
  rw [didChangeWorkspaceFolders, hevent]
  simp only [Bool.false_eq_true, if_false, ensures_bind, ensures_liftExcept]
  refine ⟨fun added _ => ⟨fun removed _ => ⟨fun gone _ => ?_, fun _ _ => trivial⟩,
    fun _ _ => trivial⟩, fun _ _ => trivial⟩
  refine (ensures_removeFolders_without s gone).mono ?_ fun _ _ _ => trivial
  rintro _ _ rfl
  refine ⟨fun items hitems => ?_, fun _ _ => trivial⟩
  refine (ensures_insertFolders_joins _ items).mono ?_ fun _ _ _ => trivial
  rintro _ s₁ ⟨hjoins, htexts⟩
  have h₁ : s.Rearranged s₁ := (Rearranged.of_without s _).trans (.joins hjoins)
  have hmove : ∀ {t : Session}, s.Rearranged t → Ensures migrateAll t
      (fun _ s' => ∃ t r host, s.Rearranged t ∧ t.root = some r ∧ t.Migrated r host ∧
        s' = { t with host }) fun _ _ => True := by
    intro t ht
    refine (ensures_migrateAll (ht.placed hs)).mono ?_ fun _ _ _ => trivial
    rintro _ _ ⟨r, host, hr, hmigrated, rfl⟩
    exact ⟨t, r, host, ht, hr, hmigrated, rfl⟩
  rw [ensures_get]
  refine ⟨fun isGone _ => ?_, fun _ _ => trivial⟩
  split
  · simp only [ensures_bind, ensures_liftExcept]
    refine ⟨fun first hfirst => ?_, fun _ _ => trivial⟩
    refine (ensures_replaceRoot_firstAdded hitems hfirst htexts hjoins).mono ?_ fun _ _ h => h.elim
    intro _ s₂ h₂
    exact hmove (h₁.trans (.succeeds h₂))
  · simp only [ensures_bind, ensures_liftExcept]
    exact ⟨fun _ _ => hmove h₁, fun _ _ => trivial⟩

/-! ## Documents that the root hands on -/

section HandOn

variable {r k m n : Nat} {place : Nat → Option Document} {d : Document}

theorem handOn_target (h : place r = some d) : handOn r k place k = some d := by
  rw [handOn, h]
  simp

theorem handOn_of_none (h : place r = none) : handOn r k place = place := by
  funext m
  rw [handOn, h]
  simp

theorem eq_of_isSome_handOn (h : (place r).isSome) (honly : (place m).isSome → m = r)
    (hm : (handOn r k place m).isSome) : m = k := by
  rw [handOn, if_pos h] at hm
  by_cases hk : m = k
  · exact hk
  · rw [if_neg hk] at hm
    split at hm
    · cases hm
    · exact absurd (honly hm) ‹_›

end HandOn

/-! ## What is left of the documents -/

/-- **A change of folders moves documents and does nothing else to them.** It succeeds in a session
whose workspaces are there and in which no document is open twice. Then the workspaces that are
left have the same documents, taken together, as they had before; no document is open twice;
documents of a workspace other than the root stay there; and each document of the root is where it
is looked for. -/
theorem documents_moved_unchanged {s s' : Session} {ps : Params} {answer : Value} (hs : s.Placed)
    (hone : s.OpenOnce) (hevent : (arg ps "event").isNull = false)
    (hrun : handle ps .didChangeWorkspaceFolders s = .ok answer s') :
    (∀ uri d, (∃ n, s'.Holds n ∧ s'.host.documentAt n uri = some d) ↔
      ∃ n, s'.Holds n ∧ s.host.documentAt n uri = some d) ∧
    s'.OpenOnce ∧
    ∃ r, s'.root = some r ∧
      (∀ n uri d, s'.Holds n → n ≠ r → s.host.documentAt n uri = some d →
        s'.host.documentAt n uri = some d) ∧
      ∀ uri d, s.host.documentAt r uri = some d →
        ∃ k, s'.spaceOf? uri = some k ∧ s'.host.documentAt k uri = some d := by
  obtain ⟨t, r, host, ht, hr, hmigrated, rfl⟩ :=
    (ensures_didChangeWorkspaceFolders_rearranged hs hevent).ok hrun
  have hroot : t.Holds r := Or.inl hr
  -- a document of the root goes to `k`, and one that the root does not have stays
  have htarget : ∀ uri, ∃ k, t.spaceOf? uri = some k ∧ t.Holds k ∧
      ∀ m, host.documentAt m uri = handOn r k (fun n => t.host.documentAt n uri) m := by
    intro uri
    obtain ⟨k, hk⟩ := exists_spaceOf? (hr ▸ Option.some_ne_none r) uri
    refine ⟨k, hk, holds_of_spaceOf? hk, fun m => ?_⟩
    rw [hmigrated.documentAt, hk, Option.getD_some]
  have hstay : ∀ {uri}, t.host.documentAt r uri = none →
      ∀ m, host.documentAt m uri = t.host.documentAt m uri := by
    intro uri hnone m
    obtain ⟨k, -, -, hat⟩ := htarget uri
    rw [hat, handOn_of_none hnone]
  have hone' : t.OpenOnce := ht.openOnce hone
  have honly : ∀ {uri n d}, t.Holds n → t.host.documentAt n uri = some d →
      n = r ∨ t.host.documentAt r uri = none := by
    intro uri n d hn hdoc
    rw [← Option.not_isSome_iff_eq_none, or_iff_not_imp_right, not_not]
    exact hone' uri n r hn hroot (by rw [hdoc]; rfl)
  simp only [← ht.documentAt]
  refine ⟨fun uri d => ⟨?_, ?_⟩, ?_, r, hr, ?_, ?_⟩
  · rintro ⟨n, hn, hdoc⟩
    obtain ⟨k, -, -, hat⟩ := htarget uri
    rcases of_handOn ((hat n).symm.trans hdoc) with h | ⟨-, -, h⟩
    · exact ⟨n, hn, h⟩
    · exact ⟨r, hroot, h⟩
  · rintro ⟨n, hn, hdoc⟩
    rcases honly hn hdoc with rfl | hnone
    · obtain ⟨k, -, hk, hat⟩ := htarget uri
      exact ⟨k, hk, (hat k).trans (handOn_target hdoc)⟩
    · exact ⟨n, hn, (hstay hnone n).trans hdoc⟩
  · intro uri m n hm hn hdocm hdocn
    cases hdoc : t.host.documentAt r uri with
    | none =>
      rw [hstay hdoc] at hdocm hdocn
      exact hone' uri m n hm hn hdocm hdocn
    | some d =>
      obtain ⟨k, -, -, hat⟩ := htarget uri
      have hsome : (t.host.documentAt r uri).isSome := by
        rw [hdoc]
        rfl
      rw [hat] at hdocm hdocn
      rw [eq_of_isSome_handOn hsome (fun h => hone' uri m r hm hroot h hsome) hdocm,
        eq_of_isSome_handOn hsome (fun h => hone' uri n r hn hroot h hsome) hdocn]
  · intro n uri d hn hne hdoc
    rw [hstay ((honly hn hdoc).resolve_left hne), hdoc]
  · intro uri d hdoc
    obtain ⟨k, hk, -, hat⟩ := htarget uri
    exact ⟨k, hk, (hat k).trans (handOn_target hdoc)⟩

/-- Two documents are opened in one folder, which is not the root, and then a folder comes that lies
in it. -/
def openings : List Happening := [
  .message .didOpen (opening "file:///v/sub/a.py" "x\n"),
  .message .didOpen (opening "file:///v/b.py" "y\n"),
  .message .didChangeWorkspaceFolders (regrouping ["file:///v/sub"] [])]

theorem ensures_openings :
    Ensures (handle (starting "file:///w" ["file:///v"]) .start) (fresh {} {} false)
      (fun _ s₀ => (openings.foldl Happening.after s₀).Placed ∧
        (openings.foldl Happening.after s₀).OpenOnce ∧
        ((openings.foldl Happening.after s₀).host.documentAt 1 "file:///v/sub/a.py").isSome ∧
        ((openings.foldl Happening.after s₀).host.documentAt 1 "file:///v/b.py").isSome ∧
        Ensures (handle (regrouping [] ["file:///w"]) .didChangeWorkspaceFolders)
          (openings.foldl Happening.after s₀)
          (fun _ s' => s'.root = some 1 ∧ s'.spaceOf? "file:///v/sub/a.py" = some 2 ∧
            s'.spaceOf? "file:///v/b.py" = some 1)
          fun _ _ => False)
      fun _ _ => False := by
  decide +kernel

/-- The root goes, and a folder with documents becomes the root: one of them is moved to the folder
that lies in it, and one stays. -/
theorem documents_moved_to_inner_folder : ∃ s s' answer,
    s.Placed ∧ s.OpenOnce ∧ (arg (regrouping [] ["file:///w"]) "event").isNull = false ∧
    handle (regrouping [] ["file:///w"]) .didChangeWorkspaceFolders s = .ok answer s' ∧
    s'.OpenOnce ∧ s'.root = some 1 ∧ ∃ a b,
      s.host.documentAt 1 "file:///v/sub/a.py" = some a ∧
      s'.host.documentAt 2 "file:///v/sub/a.py" = some a ∧
      s.host.documentAt 1 "file:///v/b.py" = some b ∧
      s'.host.documentAt 1 "file:///v/b.py" = some b := by
  obtain ⟨_, s₀, -, hs, hone, ha, hb, hregroup⟩ := ensures_openings.exists_ok
  obtain ⟨answer, s', hrun, hroot, hspacea, hspaceb⟩ := hregroup.exists_ok
  obtain ⟨a, ha⟩ := Option.isSome_iff_exists.1 ha
  obtain ⟨b, hb⟩ := Option.isSome_iff_exists.1 hb
  obtain ⟨-, hone', r, hr, -, hmoved⟩ := documents_moved_unchanged hs hone rfl hrun
  obtain rfl : 1 = r := Option.some_inj.1 (hroot.symm.trans hr)
  obtain ⟨k, hk, ha'⟩ := hmoved _ a ha
  obtain rfl : 2 = k := Option.some_inj.1 (hspacea.symm.trans hk)
  obtain ⟨k, hk, hb'⟩ := hmoved _ b hb
  obtain rfl : 1 = k := Option.some_inj.1 (hspaceb.symm.trans hk)
  exact ⟨_, s', answer, hs, hone, rfl, hrun, hone', hroot, a, b, ha, ha', hb, hb'⟩

end Session
end LangServer
