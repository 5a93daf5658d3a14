import LangServer.Proofs.Session.Deeds

/-!
# Which folders come and go

A start and a change of folders are told here in full. A folder that comes gets a workspace of its
own, which has the client's settings of the configuration in force (`Joined`). A change of folders
first takes out the folders that go, then puts in those that come (`Joins`), then finds another root
if the root has gone (`Succeeds`), and at last moves the documents of the root. A change that fails
stops on the way while folders go or come, and the root has not changed by then
(`ensures_didChangeWorkspaceFolders_reorganised`).
-/

namespace LangServer

open Relation

/-! ## Hosts with more workspaces -/

/-- What the client sent last, and which revision of its settings that was. -/
def Config.sent (c : Config) : Value × Nat := (c.client, c.revision)

theorem Config.ensures_create_sent (m : Machine) (id : Nat) (rootUri : String)
    (initOptions processId capabilities : Value) (cache : Settings.Cache) :
    Ensures (create m id rootUri initOptions processId capabilities) cache
      (fun c _ => c.sent = (.object [], 0)) fun _ _ => True := by
  rw [create]
  split
  · refine (ensures_refresh_adds m _ cache).mono ?_ fun _ _ _ => trivial
    rintro c cache' ⟨⟨disabled, rfl⟩, -⟩
    rfl
  · trivial
  · trivial

theorem Config.sent_update (m : Machine) (c : Config) (client : Value) (revision : Nat) :
    (c.update m client revision).1.sent = (client, revision) := by
  rw [Config.update]
  have hkept := Config.ensures_refresh_adds m { c with client, revision } {}
  rcases hrun : Config.refresh m { c with client, revision } {} with ⟨c', cache⟩ | ⟨f, cache⟩
  · obtain ⟨⟨disabled, hc'⟩, -⟩ := hkept.ok hrun
    exact congrArg Config.sent hc'
  · rfl

namespace Host

/-- What the client sent last to the configuration of a workspace. -/
def sentAt (h : Host) (n : Nat) : Option (Value × Nat) := (h.configAt n).map Config.sent

/-- The workspaces are as they were, and there may be more of them, without documents. -/
structure Gains (h h' : Host) : Prop where
  length_le : h.spaces.length ≤ h'.spaces.length
  documentAt : ∀ n uri, h'.documentAt n uri = h.documentAt n uri
  siteAt : ∀ n uri, h.siteAt n = some uri → h'.siteAt n = some uri
  sentAt : ∀ n sent, h.sentAt n = some sent → h'.sentAt n = some sent

variable {h h' h'' : Host}

theorem Gains.refl (h : Host) : h.Gains h :=
  ⟨Nat.le_refl _, fun _ _ => rfl, fun _ _ hu => hu, fun _ _ hc => hc⟩

theorem Gains.trans (h1 : h.Gains h') (h2 : h'.Gains h'') : h.Gains h'' :=
  ⟨Nat.le_trans h1.length_le h2.length_le,
    fun n uri => (h2.documentAt n uri).trans (h1.documentAt n uri),
    fun n uri hu => h2.siteAt n uri (h1.siteAt n uri hu),
    fun n c hc => h2.sentAt n c (h1.sentAt n c hc)⟩

theorem Gains.of_spaces (hspaces : h'.spaces = h.spaces) : h.Gains h' := by
  refine ⟨Nat.le_of_eq (by rw [hspaces]), fun n uri => ?_, fun n uri hu => ?_, fun n c hc => ?_⟩
  · rw [Host.documentAt, Host.documentAt, hspaces]
  · rwa [Host.siteAt, hspaces]
  · rwa [Host.sentAt, configAt, hspaces]

theorem lt_of_siteAt {n : Nat} {uri : String} (hu : h.siteAt n = some uri) :
    n < h.spaces.length := by
  obtain ⟨w, hw, -⟩ := Option.bind_eq_some_iff.1 hu
  exact (List.getElem?_eq_some_iff.1 hw).1

theorem lt_of_sentAt {n : Nat} {sent : Value × Nat} (hc : h.sentAt n = some sent) :
    n < h.spaces.length := by
  obtain ⟨c, hc, -⟩ := Option.map_eq_some_iff.1 hc
  obtain ⟨w, hw, -⟩ := Option.bind_eq_some_iff.1 hc
  exact (List.getElem?_eq_some_iff.1 hw).1

theorem Gains.of_append {w : Workspace} (hmachine : h'.machine = h.machine)
    (hspaces : h'.spaces = h.spaces ++ [w]) (hw : w.documents = []) : h.Gains h' := by
  have hold : ∀ n, n < h.spaces.length → h'.spaces[n]? = h.spaces[n]? := fun n hn => by
    rw [hspaces, List.getElem?_append_left hn]
  have hext := Extends.of_append hmachine hspaces hw
  refine ⟨hext.length_le, hext.documentAt, fun n uri hu => ?_, fun n c hc => ?_⟩
  · rwa [Host.siteAt, hold n (lt_of_siteAt hu)]
  · rwa [Host.sentAt, configAt, hold n (lt_of_sentAt hc)]

/-- **A new workspace** comes last, is for its folder, and has no settings from the client. -/
theorem ensures_createSpace_gains (h : Host) (rootUri : String)
    (initOptions processId capabilities : Value) :
    Ensures (createSpace rootUri initOptions processId capabilities) h
      (fun n h' => n = h.spaces.length ∧ h.Gains h' ∧ h'.siteAt n = some rootUri ∧
        h'.sentAt n = some (.object [], 0))
      fun _ h' => h.Gains h' := by
  simp only [createSpace, createConfig, addSpace, ensures_bind, ensures_get, ensures_set,
    ensures_onCache_iff]
  refine (Config.ensures_create_sent h.machine h.configs rootUri initOptions processId
    capabilities h.cache).mono ?_ fun _ _ _ => .of_spaces rfl
  intro c cache hsent
  rw [ensures_liftExcept]
  refine ⟨fun w hw => ?_, fun _ _ => .of_spaces rfl⟩
  obtain ⟨hroot, hconfig, hdocuments⟩ := Workspace.of_create hw
  have hnew : (h.spaces ++ [w])[h.spaces.length]? = some w := by simp
  refine ⟨rfl, .of_append rfl rfl hdocuments, ?_, ?_⟩
  · simp only [Host.siteAt, hnew, Option.bind_some, hconfig, Option.map_some, hroot]
  · simp only [Host.sentAt, configAt, hnew, Option.bind_some, hconfig, Option.map_some, hsent]

/-- **Handing settings to a configuration** leaves the others as they are. -/
theorem ensures_updateConfig_sent (h : Host) (n : Nat) (client : Value) (revision : Nat) :
    Ensures (updateConfig n client revision) h
      (fun _ h' => h.Spares h' ∧
        ∀ m, h'.sentAt m = if m = n then some (client, revision) else h.sentAt m)
      fun _ h' => h.Spares h' ∧ ∀ m, m ≠ n → h'.sentAt m = h.sentAt m := by
  have hat : ∀ {fault? h'}, h.Updated n client revision fault? h' →
      ∀ m, h'.sentAt m = if m = n then some (client, revision) else h.sentAt m := by
    rintro _ _ ⟨hw, -⟩ m
    rw [Host.sentAt, configAt_set hw, Host.sentAt]
    split
    · rw [Option.map_some, Config.sent_update]
    · rfl
  refine (ensures_updateConfig h n client revision).mono (fun _ _ hu => ⟨hu.spares, hat hu⟩) ?_
  rintro _ h' (rfl | hu)
  · exact ⟨.refl _, fun _ _ => rfl⟩
  · exact ⟨hu.spares, fun m hm => (hat hu m).trans (if_neg hm)⟩

end Host

namespace Session

/-! ## Folders that come -/

/-- A folder has come. It has a workspace of its own, with the client's settings of the
configuration in force. -/
def Joined (s : Session) (name : String) (t : Session) : Prop :=
  ∃ n r sent host, s.config = some r ∧ s.host.sentAt r = some sent ∧
    s.host.spaces.length ≤ n ∧ s.host.Gains host ∧ host.siteAt n = some name ∧
    host.sentAt n = some sent ∧
    t = { s with host, folders := Value.insert name n s.folders }

/-- Folders have come one after the other. -/
inductive Joins : Session → List String → Session → Prop where
  | nil (s : Session) : Joins s [] s
  | cons {s t u : Session} {name : String} {names : List String} (hjoined : s.Joined name t)
      (hrest : Joins t names u) : Joins s (name :: names) u

/-- Folders have come, and then the server has failed to make a workspace for one more. -/
def JoinsPartly (s t : Session) : Prop :=
  ∃ names u host, Joins s names u ∧ u.host.Gains host ∧ t = { u with host }

variable {s t u : Session}

theorem Joins.partly {names : List String} (h : Joins s names t) : s.JoinsPartly t :=
  ⟨names, t, t.host, h, .refl _, rfl⟩

theorem Joined.partly {name : String} (h : s.Joined name t) (hrest : t.JoinsPartly u) :
    s.JoinsPartly u := by
  obtain ⟨names, v, host, hjoins, hgains, rfl⟩ := hrest
  exact ⟨name :: names, v, host, .cons h hjoins, hgains, rfl⟩

theorem ensures_addFolder_joined (s : Session) (uri : Value) :
    Ensures (addFolder uri) s (fun _ t => ∃ name, uri = .str name ∧ s.Joined name t)
      fun _ t => s.JoinsPartly t := by
  have hgains : ∀ {host : Host}, s.host.Gains host → s.JoinsPartly { s with host } :=
    fun h => ⟨[], s, _, .nil s, h, rfl⟩
  simp only [addFolder, ensures_bind, ensures_get, ensures_require, ensures_liftAct,
    Host.ensures_config_iff, ensures_liftExcept, Value.textOr_eq_ok_iff]
  refine ⟨fun r hr => ⟨fun c hc => ⟨fun name hname => ?_, fun _ _ => hgains (.refl _)⟩,
    fun _ => hgains (.refl _)⟩, fun _ => hgains (.refl _)⟩
  refine (Host.ensures_createSpace_gains s.host _ _ _ _).mono ?_ fun _ _ h => hgains h
  rintro n h₁ ⟨hn, hg, hsite, -⟩
  have hsent : s.host.sentAt r = some c.sent := by rw [Host.sentAt, hc, Option.map_some]
  -- the settings go to the new workspace, whose number no other has
  have hupdated : ∀ {h₂ : Host}, h₁.Spares h₂ → (∀ m, m ≠ n → h₂.sentAt m = h₁.sentAt m) →
      s.host.Gains h₂ := by
    intro h₂ hspares hothers
    refine ⟨Nat.le_trans hg.length_le hspares.length_le,
      fun m v => (hspares.documentAt m v).trans (hg.documentAt m v), fun m v hv => ?_,
      fun m v hv => ?_⟩
    · rw [hspares.siteAt]
      exact hg.siteAt m v hv
    · have hm : m ≠ n := by
        have hlt := Host.lt_of_sentAt hv
        omega
      rw [hothers m hm]
      exact hg.sentAt m v hv
  refine (Host.ensures_updateConfig_sent h₁ n c.client c.revision).mono ?_ ?_
  · rintro _ h₂ ⟨hspares, hat⟩
    refine ⟨name, hname, n, r, c.sent, h₂, hr, hsent, Nat.le_of_eq hn.symm,
      hupdated hspares fun m hm => (hat m).trans (if_neg hm), ?_, ?_, rfl⟩
    · rw [hspares.siteAt, hsite]
    · rw [hat, if_pos rfl]
      rfl
  · rintro _ h₂ ⟨hspares, hothers⟩
    exact hgains (hupdated hspares hothers)

/-- The URI that an entry of an event carries. -/
def uriOf? (info : Value) : Option String :=
  match info.item "uri" with
  | .ok (.str uri) => some uri
  | _ => none

theorem uriOf?_eq_some_iff {info : Value} {uri : String} :
    uriOf? info = some uri ↔ info.item "uri" = .ok (.str uri) := by
  rw [uriOf?]
  split <;> simp_all

theorem holds_of_item {info v : Value} (h : info.item "uri" = .ok v) :
    info.holds "uri" = .ok true := by
  cases info with
  | object members =>
    rw [Value.item] at h
    split at h
    · rename_i hlookup
      rw [Value.holds, hlookup]
      rfl
    · cases h
  | _ => cases h

theorem uriOf?_of_holds {info : Value} (h : info.holds "uri" = .ok false) : uriOf? info = none := by
  rw [uriOf?]
  split
  · rename_i hitem
    cases h.symm.trans (holds_of_item hitem)
  · rfl

/-- **Folders are put in** in the order of the event. -/
theorem ensures_insertFolders_joins (s : Session) (added : List Value) :
    Ensures (insertFolders added) s
      (fun _ t => s.Joins (added.filterMap uriOf?) t ∧
        ∀ info ∈ added, ∀ v, info.item "uri" = .ok v → ∃ name, v = .str name)
      fun _ t => s.JoinsPartly t := by
  induction added generalizing s with
  | nil => exact ⟨.nil s, fun _ h => absurd h List.not_mem_nil⟩
  | cons info rest ih =>
    simp only [insertFolders, ensures_bind, ensures_liftExcept]
    refine ⟨fun holds hholds => ?_, fun _ _ => (Joins.nil s).partly⟩
    split
    · simp only [ensures_bind, ensures_liftExcept]
      refine ⟨fun uri huri => ?_, fun _ _ => (Joins.nil s).partly⟩
      refine (ensures_addFolder_joined s uri).imp ?_
      rintro _ t ⟨name, rfl, hjoined⟩
      rw [List.filterMap_cons_some (uriOf?_eq_some_iff.2 huri)]
      refine (ih t).mono (fun _ _ h => ⟨.cons hjoined h.1, ?_⟩) fun _ _ h => hjoined.partly h
      refine List.forall_mem_cons.2 ⟨fun v hv => ⟨name, ?_⟩, h.2⟩
      exact Except.ok.inj (hv.symm.trans huri)
    · rename_i hnot
      rw [Bool.not_eq_true] at hnot
      subst hnot
      rw [List.filterMap_cons_none (uriOf?_of_holds hholds)]
      refine (ih s).imp (fun _ _ h => ⟨h.1, ?_⟩)
      refine List.forall_mem_cons.2 ⟨fun v hv => ?_, h.2⟩
      cases hholds.symm.trans (holds_of_item hv)

theorem ensures_addFolders_joins (s : Session) (rootUri : String) (folders : Value) :
    Ensures (addFolders rootUri folders) s
      (fun _ t => ∃ names, rootUri ∉ names ∧ s.Joins names t) fun _ _ => True := by
  rw [addFolders]
  split
  · simp only [ensures_bind, ensures_liftExcept]
    refine ⟨fun items _ => ?_, fun _ _ => trivial⟩
    have hloop : ∀ (items : List Value) (s : Session), Ensures (forIn items PUnit.unit
        fun folder _ => do
          let uri ← liftExcept (folder.item "uri")
          if uri ≠ .str rootUri then do
            addFolder uri
            return ForInStep.yield PUnit.unit
          else return ForInStep.yield PUnit.unit) s
        (fun _ t => ∃ names, rootUri ∉ names ∧ s.Joins names t) fun _ _ => True := by
      intro items
      induction items with
      | nil => exact fun s => ⟨[], List.not_mem_nil, .nil s⟩
      | cons folder rest ih =>
        intro s
        simp only [List.forIn_cons, ensures_bind, ensures_liftExcept]
        refine ⟨fun uri _ => ?_, fun _ _ => trivial⟩
        split
        · rename_i hne
          refine (ensures_addFolder_joined s uri).bind ?_ fun _ _ _ => trivial
          rintro _ t ⟨name, rfl, hjoined⟩
          refine (ih t).imp ?_
          rintro _ u ⟨names, hnames, hjoins⟩
          refine ⟨name :: names, ?_, .cons hjoined hjoins⟩
          rw [List.mem_cons, not_or]
          exact ⟨fun h => hne (by rw [h]), hnames⟩
        · exact ih s
    exact hloop items s
  · exact ⟨[], List.not_mem_nil, .nil s⟩

namespace Joins

variable {names : List String}

theorem gains (h : Joins s names t) : s.host.Gains t.host := by
  induction h with
  | nil => exact .refl _
  | cons hjoined _ ih =>
    obtain ⟨n, r, sent, host, -, -, -, hgains, -, -, rfl⟩ := hjoined
    exact hgains.trans ih

/-- Nothing but the host and the folders changes. -/
theorem eq (h : Joins s names t) : t = { s with host := t.host, folders := t.folders } := by
  induction h with
  | nil => rfl
  | cons hjoined _ ih =>
    obtain ⟨n, r, sent, host, -, -, -, -, -, -, rfl⟩ := hjoined
    exact ih

theorem lookup_of_not_mem (h : Joins s names t) {name : String} (hname : name ∉ names) :
    Value.lookup name t.folders = Value.lookup name s.folders := by
  induction h with
  | nil => rfl
  | cons hjoined _ ih =>
    obtain ⟨n, r, sent, host, -, -, -, -, -, -, rfl⟩ := hjoined
    rw [List.mem_cons, not_or] at hname
    exact (ih hname.2).trans (Value.lookup_insert_of_ne hname.1 _ _)

theorem exists_lookup_of_mem (h : Joins s names t) {name : String} (hname : name ∈ names) :
    ∃ n, Value.lookup name t.folders = some n := by
  induction h with
  | nil => exact absurd hname List.not_mem_nil
  | @cons _ _ _ first rest hjoined hrest ih =>
    by_cases hlater : name ∈ rest
    · exact ih hlater
    · obtain ⟨n, r, sent, host, -, -, -, -, -, -, rfl⟩ := hjoined
      obtain rfl := (List.mem_cons.1 hname).resolve_right hlater
      exact ⟨n, (hrest.lookup_of_not_mem hlater).trans (Value.lookup_insert_self _ _ _)⟩

end Joins

/-! ## Folders that go -/

/-- The folders without some. -/
def without (gone : List String) (folders : List (String × Nat)) : List (String × Nat) :=
  gone.foldl (fun folders uri => Value.erase uri folders) folders

theorem lookup_without (gone : List String) (folders : List (String × Nat)) (name : String) :
    Value.lookup name (without gone folders) =
      if name ∈ gone then none else Value.lookup name folders := by
  induction gone generalizing folders with
  | nil => simp [without]
  | cons uri rest ih =>
    have hcons : without (uri :: rest) folders = without rest (Value.erase uri folders) := rfl
    rw [hcons, ih, Value.lookup_erase]
    by_cases hname : name = uri <;> simp [hname]

theorem mem_of_mem_without {gone : List String} {folders : List (String × Nat)} {f : String × Nat}
    (h : f ∈ without gone folders) : f ∈ folders ∧ f.1 ∉ gone := by
  induction gone generalizing folders with
  | nil => exact ⟨h, List.not_mem_nil⟩
  | cons uri rest ih =>
    obtain ⟨hmem, hrest⟩ := ih h
    obtain ⟨hmem, hne⟩ := List.mem_filter.1 hmem
    refine ⟨hmem, ?_⟩
    rw [List.mem_cons, not_or]
    exact ⟨by simpa using hne, hrest⟩

/-- **Folders are taken out**; a failure comes when some of them are. -/
theorem ensures_removeFolders_without (s : Session) (gone : List Value) :
    Ensures (removeFolders gone) s
      (fun _ t => t = { s with folders := without (gone.filterMap uriOf?) s.folders })
      fun _ t => ∃ taken, t = { s with folders := without taken s.folders } := by
  induction gone generalizing s with
  | nil => exact rfl
  | cons info rest ih =>
    have hnone : ∃ taken, s = { s with folders := without taken s.folders } := ⟨[], rfl⟩
    simp only [removeFolders, ensures_bind, ensures_liftExcept]
    refine ⟨fun holds hholds => ?_, fun _ _ => hnone⟩
    split
    · rw [ensures_bind, ensures_liftExcept]
      refine ⟨fun uri huri => ?_, fun _ _ => hnone⟩
      split
      · rename_i uri
        rw [ensures_bind, ensures_modify, List.filterMap_cons_some (uriOf?_eq_some_iff.2 huri)]
        refine (ih _).mono (fun _ _ h => h) ?_
        rintro _ _ ⟨taken, rfl⟩
        exact ⟨uri :: taken, rfl⟩
      · rename_i hstr
        have hcarries : uriOf? info = none := by
          rw [uriOf?, huri]
          split
          · rename_i heq
            exact absurd (Except.ok.inj heq) (hstr _)
          · rfl
        rw [List.filterMap_cons_none hcarries]
        split
        · exact hnone
        · exact ih s
    · rename_i hnot
      rw [Bool.not_eq_true] at hnot
      subst hnot
      rw [List.filterMap_cons_none (uriOf?_of_holds hholds)]
      exact ih s

/-! ## Another root -/

/-- Whether the root is among the folders that go can be told as long as each of them up to it
carries a URI. -/
theorem removesRoot_eq_ok {uri : String} {gone : List Value} {isGone : Bool}
    (h : removesRoot (.str uri) gone = .ok isGone) :
    isGone = true ↔ uri ∈ gone.filterMap uriOf? := by
  induction gone with
  | nil =>
    obtain rfl := Except.ok.inj h
    simp
  | cons info rest ih =>
    obtain ⟨v, hv, h⟩ := exists_of_bind_eq_ok h
    split at h
    · rename_i heq
      obtain rfl := Except.ok.inj h
      rw [List.filterMap_cons_some (uriOf?_eq_some_iff.2 (heq ▸ hv))]
      simp
    · rename_i hne
      rw [ih h]
      rcases hinfo : uriOf? info with _ | name
      · rw [List.filterMap_cons_none hinfo]
      · have hother : uri ≠ name := by
          rintro rfl
          exact hne (Except.ok.inj (hv.symm.trans (uriOf?_eq_some_iff.1 hinfo)))
        rw [List.filterMap_cons_some hinfo, List.mem_cons]
        exact ⟨Or.inr, fun h => h.resolve_left hother⟩

theorem least?_eq_none_iff {xs : List String} : least? xs = none ↔ xs = [] := by
  rcases xs with _ | ⟨x, xs⟩
  · simp [least?]
  · rw [least?]
    split <;> simp

theorem mem_of_least? {xs : List String} {m : String} (h : least? xs = some m) : m ∈ xs := by
  induction xs generalizing m with
  | nil => cases h
  | cons x xs ih =>
    rw [least?] at h
    split at h
    · rename_i y hy
      obtain rfl := Option.some_inj.1 h
      split
      · exact List.mem_cons_of_mem _ (ih hy)
      · exact List.mem_cons_self
    · rw [← Option.some_inj.1 h]
      exact List.mem_cons_self

theorem not_lt_of_least? {xs : List String} {m : String} (h : least? xs = some m) {x : String}
    (hx : x ∈ xs) : ¬ x < m := by
  induction xs generalizing m with
  | nil => cases h
  | cons y ys ih =>
    rw [least?] at h
    split at h
    · rename_i z hz
      obtain rfl := Option.some_inj.1 h
      rcases List.mem_cons.1 hx with rfl | hx
      · split
        · rename_i hlt
          exact String.lt_asymm hlt
        · exact String.lt_irrefl x
      · have hxz := ih hz hx
        split
        · exact hxz
        · rename_i hle
          exact String.not_lt.2 (String.le_trans (String.not_lt.1 hle) (String.not_lt.1 hxz))
    · rename_i hnone
      obtain rfl := Option.some_inj.1 h
      rw [least?_eq_none_iff.1 hnone, List.mem_singleton] at hx
      exact hx ▸ String.lt_irrefl y

/-- The entries of an event about folders. -/
def entries (ps : Params) (key : String) : List Value :=
  match (arg ps "event").getD key (.list []) with
  | .ok v => v.elements.toOption.getD []
  | .error _ => []

/-- The folders that go. -/
def departing (ps : Params) : List String := (entries ps "removed").filterMap uriOf?

/-- The folders that come. -/
def arriving (ps : Params) : List String := (entries ps "added").filterMap uriOf?

/-- The first of the folders that come, if it carries a URI. -/
def firstArriving? (ps : Params) : Option String := (entries ps "added").head?.bind uriOf?

theorem firstAdded?_eq_ok {added : Value} {items : List Value} {first : Option Value}
    (hitems : added.elements = .ok items) (h : firstAdded? added = .ok first) :
    first = none ∧ items.head?.bind uriOf? = none ∨
      ∃ info v, info ∈ items.head? ∧ info.item "uri" = .ok v ∧ first = some v := by
  rw [firstAdded?, hitems] at h
  rcases items with _ | ⟨info, rest⟩
  · left
    cases added <;> exact ⟨(Except.ok.inj h).symm, rfl⟩
  have hcarries : (do
      if ← info.holds "uri" then return some (← info.item "uri")
      else return none : Except Fault (Option Value)) = .ok first := by
    cases added with
    | object => cases h
    | _ => exact h
  obtain ⟨holds, hholds, hcarries⟩ := exists_of_bind_eq_ok hcarries
  split at hcarries
  · obtain ⟨v, hv, hcarries⟩ := exists_of_bind_eq_ok hcarries
    exact .inr ⟨info, v, rfl, hv, (Except.ok.inj hcarries).symm⟩
  · rename_i hnot
    rw [Bool.not_eq_true] at hnot
    subst hnot
    refine .inl ⟨(Except.ok.inj hcarries).symm, ?_⟩
    rw [List.head?_cons, Option.bind_some, uriOf?_of_holds hholds]

/-- Another folder has become the root, if there is any: the one that came first, or else the least
by name. -/
def Succeeds (s : Session) (first : Option String) (t : Session) : Prop :=
  s.folders = [] ∧ t = s ∨ ∃ name n, Value.lookup name s.folders = some n ∧
    (first = some name ∨ first = none ∧ least? (s.folders.map (·.1)) = some name) ∧
    t = { s with rootUri := .str name, config := some n, root := some n }

theorem exists_lookup_of_mem_keys {α : Type} {key : String} {ms : List (String × α)}
    (h : key ∈ ms.map (·.1)) : ∃ v, Value.lookup key ms = some v := by
  rcases hv : Value.lookup key ms with _ | v
  · exact absurd h (Value.lookup_eq_none_iff.1 hv)
  · exact ⟨v, rfl⟩

theorem ensures_adoptRoot_of_lookup (s : Session) {name : String} {n : Nat}
    (hn : Value.lookup name s.folders = some n) (good : Unit → Session → Prop)
    (bad : Fault → Session → Prop) :
    Ensures (adoptRoot (.str name)) s good bad ↔
      good () { s with rootUri := .str name, config := some n, root := some n } := by
  rw [adoptRoot.eq_def]
  simp only [ensures_bind, ensures_get, hn, setRoot, ensures_modify]

theorem ensures_replaceRoot_some (s : Session) {name : String} {n : Nat}
    (hn : Value.lookup name s.folders = some n) :
    Ensures (replaceRoot (some (.str name))) s (fun _ t => s.Succeeds (some name) t)
      fun _ _ => False := by
  rw [replaceRoot, ensures_bind, ensures_modify]
  refine (ensures_adoptRoot_of_lookup { s with rootUri := .str name } hn _ _).2 ?_
  exact .inr ⟨name, n, hn, .inl rfl, rfl⟩

theorem ensures_replaceRoot_none (s : Session) :
    Ensures (replaceRoot none) s (fun _ t => s.Succeeds none t) fun _ _ => False := by
  rw [replaceRoot, ensures_bind, ensures_get]
  split
  · rename_i name hleast
    obtain ⟨n, hn⟩ := exists_lookup_of_mem_keys (mem_of_least? hleast)
    refine (ensures_adoptRoot_of_lookup s hn _ _).2 ?_
    exact .inr ⟨name, n, hn, .inr ⟨rfl, hleast⟩, rfl⟩
  · rename_i hleast
    have hnil : s.folders = [] := by simpa using least?_eq_none_iff.1 hleast
    exact .inl ⟨hnil, rfl⟩

/-- **Another root** is found once the folders of the event are there. -/
theorem ensures_replaceRoot_firstAdded {added : Value} {items : List Value} {first : Option Value}
    (hitems : added.elements = .ok items) (hfirst : firstAdded? added = .ok first)
    (htexts : ∀ info ∈ items, ∀ v, info.item "uri" = .ok v → ∃ name, v = .str name)
    (hjoins : Joins s (items.filterMap uriOf?) t) :
    Ensures (replaceRoot first) t (fun _ u => t.Succeeds (items.head?.bind uriOf?) u)
      fun _ _ => False := by
  rcases firstAdded?_eq_ok hitems hfirst with ⟨rfl, hnone⟩ | ⟨info, v, hinfo, hv, rfl⟩
  · rw [hnone]
    exact ensures_replaceRoot_none t
  · have hmem := List.mem_of_mem_head? hinfo
    obtain ⟨name, rfl⟩ := htexts info hmem v hv
    have hname := uriOf?_eq_some_iff.2 hv
    obtain ⟨n, hn⟩ := hjoins.exists_lookup_of_mem (List.mem_filterMap.2 ⟨info, hmem, hname⟩)
    rw [Option.bind_eq_some_iff.2 ⟨info, hinfo, hname⟩]
    exact ensures_replaceRoot_some t hn

/-! ## Sessions with a root -/

/-- The root is the workspace of the folder that is named as the root, and its configuration is in
force. Every folder has the workspace that was made for it. -/
structure Rooted (s : Session) : Prop where
  root : ∃ r uri, s.root = some r ∧ s.config = some r ∧ s.rootUri = .str uri ∧
    s.host.siteAt r = some uri
  folder : ∀ name n, (name, n) ∈ s.folders → s.host.siteAt n = some name

namespace Rooted

theorem root_ne_none (hs : s.Rooted) : s.root ≠ none := by
  obtain ⟨r, uri, hr, -⟩ := hs.root
  rw [hr]
  exact Option.some_ne_none r

theorem sound (hs : s.Rooted) : s.Sound := by
  obtain ⟨r, uri, hr, hconfig, -, hsite⟩ := hs.root
  refine ⟨?_, hconfig.trans hr.symm, fun hnone => absurd hnone hs.root_ne_none⟩
  rintro n (hn | ⟨name, hn⟩)
  · obtain rfl := Option.some_inj.1 (hr.symm.trans hn)
    exact Host.lt_of_siteAt hsite
  · exact Host.lt_of_siteAt (hs.folder name n hn)

theorem gains (hs : s.Rooted) {host : Host} (hgains : s.host.Gains host)
    {folders : List (String × Nat)} (hfolders : ∀ f ∈ folders, f ∈ s.folders) :
    ({ s with host, folders } : Session).Rooted := by
  obtain ⟨r, uri, hr, hconfig, huri, hsite⟩ := hs.root
  exact ⟨⟨r, uri, hr, hconfig, huri, hgains.siteAt r uri hsite⟩, fun name n hn =>
    hgains.siteAt n name (hs.folder name n (hfolders _ hn))⟩

theorem joined (hs : s.Rooted) {name : String} (h : s.Joined name t) : t.Rooted := by
  obtain ⟨n, r, sent, host, -, -, -, hgains, hsite, -, rfl⟩ := h
  obtain ⟨r', uri, hr, hconfig, huri, hroot⟩ := hs.root
  refine ⟨⟨r', uri, hr, hconfig, huri, hgains.siteAt r' uri hroot⟩, fun name' m hm => ?_⟩
  rcases Value.mem_of_mem_insert hm with heq | hm
  · obtain ⟨rfl, rfl⟩ := Prod.mk.inj heq
    exact hsite
  · exact hgains.siteAt m name' (hs.folder name' m hm)

theorem joins (hs : s.Rooted) {names : List String} (h : Joins s names t) : t.Rooted := by
  induction h with
  | nil => exact hs
  | cons hjoined _ ih => exact ih (hs.joined hjoined)

theorem joinsPartly (hs : s.Rooted) (h : s.JoinsPartly t) : t.Rooted := by
  obtain ⟨names, u, host, hjoins, hgains, rfl⟩ := h
  exact (hs.joins hjoins).gains hgains fun _ hf => hf

theorem succeeds (hs : s.Rooted) {first : Option String} (h : s.Succeeds first t) : t.Rooted := by
  rcases h with ⟨-, rfl⟩ | ⟨name, n, hn, -, rfl⟩
  · exact hs
  · exact ⟨⟨n, name, rfl, rfl, rfl, hs.folder name n (Value.mem_of_lookup hn)⟩, hs.folder⟩

/-- Nothing changes but what the session does not keep itself. -/
theorem of_stays (hs : s.Rooted) (h : s.Stays t) : t.Rooted := by
  obtain ⟨r, uri, hr, hconfig, huri, hsite⟩ := hs.root
  refine ⟨⟨r, uri, h.root.trans hr, h.config.trans hconfig, h.rootUri.trans huri,
    (h.siteAt r).trans hsite⟩, fun name n hn => ?_⟩
  rw [h.folders] at hn
  rw [h.siteAt, hs.folder name n hn]

end Rooted

/-! ## A change of folders -/

theorem of_handOn {r n m : Nat} {place : Nat → Option Document} {d : Document}
    (h : handOn r n place m = some d) : place m = some d ∨ m = n ∧ n ≠ r ∧ place r = some d := by
  rw [handOn] at h
  split at h
  · split at h
    · rename_i hm
      by_cases hn : n = r
      · subst hm hn
        exact .inl h
      · exact .inr ⟨hm, hn, h⟩
    · split at h
      · cases h
      · exact .inl h
  · exact .inl h

/-- **All documents of the root are moved**, and no workspace gets another folder or other
settings. -/
theorem ensures_migrateAll_same (hs : s.Sound) (hroot : s.root ≠ none) :
    Ensures migrateAll s
      (fun _ t => ∃ r host, s.root = some r ∧ s.Migrated r host ∧
        (∀ n, host.siteAt n = s.host.siteAt n) ∧ (∀ n, host.sentAt n = s.host.sentAt n) ∧
        t = { s with host })
      fun _ _ => False := by
  have hsame : ∀ t, ReflTransGen (fun s t : Session => ∃ n f,
      t = { s with host := s.host.withDocuments n f }) s t →
      (∀ n, t.host.siteAt n = s.host.siteAt n) ∧ ∀ n, t.host.sentAt n = s.host.sentAt n := by
    intro t ht
    induction ht with
    | refl => exact ⟨fun _ => rfl, fun _ => rfl⟩
    | tail _ hstep ih =>
      obtain ⟨n, f, rfl⟩ := hstep
      refine ⟨fun m => (Host.siteAt_withDocuments _ n f m).trans (ih.1 m), fun m => ?_⟩
      rw [← ih.2 m, Host.sentAt, Host.configAt_withDocuments, Host.sentAt]
  refine ((ensures_migrateAll hs.placed).and (moves_migrateAll s)).mono ?_ ?_
  · rintro _ _ ⟨⟨r, host, hr, hmigrated, rfl⟩, hsteps⟩
    exact ⟨r, host, hr, hmigrated, (hsame _ hsteps).1, (hsame _ hsteps).2, rfl⟩
  · rintro _ _ ⟨⟨hnone, -⟩, -⟩
    exact hroot hnone

/-- What a change of folders does when it succeeds. -/
def Reorganised (s : Session) (ps : Params) (t : Session) : Prop :=
  ∃ s₁ s₂ r host,
    Joins { s with folders := without (departing ps) s.folders } (arriving ps) s₁ ∧
    ((∃ uri ∈ departing ps, s.rootUri = .str uri) → s₁.Succeeds (firstArriving? ps) s₂) ∧
    ((¬ ∃ uri ∈ departing ps, s.rootUri = .str uri) → s₂ = s₁) ∧
    s₂.root = some r ∧ s₂.Migrated r host ∧ (∀ n, host.siteAt n = s₂.host.siteAt n) ∧
    (∀ n, host.sentAt n = s₂.host.sentAt n) ∧ t = { s₂ with host }

theorem Rooted.reorganised (hs : s.Rooted) {ps : Params} (h : s.Reorganised ps t) : t.Rooted := by
  obtain ⟨s₁, s₂, r, host, hjoins, hgone, hstays, -, -, hsite, -, rfl⟩ := h
  have h₁ : s₁.Rooted :=
    (hs.gains (.refl _) fun _ hf => (mem_of_mem_without hf).1).joins hjoins
  have h₂ : s₂.Rooted := by
    by_cases hroot : ∃ uri ∈ departing ps, s.rootUri = .str uri
    · exact h₁.succeeds (hgone hroot)
    · exact hstays hroot ▸ h₁
  exact h₂.of_stays ⟨rfl, rfl, rfl, rfl, hsite⟩

theorem handle_of_isNull {ps : Params} (h : (arg ps "event").isNull = true) (s : Session) :
    handle ps .didChangeWorkspaceFolders s = .ok .null s := by
  rw [handle, didChangeWorkspaceFolders, h]
  rfl

/-- **A change of folders** does all that the event asks for, or it fails while folders go and
come. -/
theorem ensures_didChangeWorkspaceFolders_reorganised (hs : s.Rooted) {ps : Params}
    (hevent : (arg ps "event").isNull = false) :
    Ensures (didChangeWorkspaceFolders ps) s (fun _ t => s.Reorganised ps t)
      fun _ t => ∃ taken,
        ({ s with folders := without taken s.folders } : Session).JoinsPartly t := by
  have hnone : ∃ taken, ({ s with folders := without taken s.folders } : Session).JoinsPartly s :=
    ⟨[], (Joins.nil s).partly⟩
  obtain ⟨r₀, uri, hr₀, -, huri, -⟩ := hs.root
  rw [didChangeWorkspaceFolders, hevent]
  simp only [Bool.false_eq_true, if_false, ensures_bind, ensures_liftExcept]
  refine ⟨fun added hadded => ⟨fun removed hremoved => ⟨fun gone hgone => ?_, fun _ _ => hnone⟩,
    fun _ _ => hnone⟩, fun _ _ => hnone⟩
  have hdeparting : gone.filterMap uriOf? = departing ps := by
    rw [departing, entries, hremoved]
    simp only [hgone, Except.toOption, Option.getD_some]
  refine (ensures_removeFolders_without s gone).mono ?_ ?_
  · rintro _ _ rfl
    rw [hdeparting]
    refine ⟨fun items hitems => ?_, fun _ _ => ⟨_, (Joins.nil _).partly⟩⟩
    obtain rfl : entries ps "added" = items := by
      rw [entries, hadded]
      simp only [hitems, Except.toOption, Option.getD_some]
    refine (ensures_insertFolders_joins _ _).mono ?_ fun _ _ h => ⟨_, h⟩
    rintro _ s₁ ⟨hjoins, htexts⟩
    have hfail : ∃ taken,
        ({ s with folders := without taken s.folders } : Session).JoinsPartly s₁ :=
      ⟨_, hjoins.partly⟩
    have h₁ : s₁.Rooted := (hs.gains (.refl _) fun _ hf => (mem_of_mem_without hf).1).joins hjoins
    have huri₁ : s₁.rootUri = .str uri := by
      rw [hjoins.eq]
      exact huri
    rw [ensures_get, huri₁]
    refine ⟨fun isGone hisGone => ?_, fun _ _ => hfail⟩
    have hisGone := removesRoot_eq_ok hisGone
    rw [hdeparting] at hisGone
    -- what is left to do once it is known which root there is
    have hmove : ∀ {s₂ : Session}, s₂.Rooted →
        ((∃ uri ∈ departing ps, s.rootUri = .str uri) → s₁.Succeeds (firstArriving? ps) s₂) →
        ((¬ ∃ uri ∈ departing ps, s.rootUri = .str uri) → s₂ = s₁) →
        Ensures migrateAll s₂ (fun _ t => s.Reorganised ps t) fun _ t => ∃ taken,
          ({ s with folders := without taken s.folders } : Session).JoinsPartly t := by
      intro s₂ h₂ hgone hstays
      refine (ensures_migrateAll_same h₂.sound h₂.root_ne_none).mono ?_ fun _ _ h => h.elim
      rintro _ _ ⟨r, host, hr, hmigrated, hsite, hsent, rfl⟩
      exact ⟨s₁, s₂, r, host, hjoins, hgone, hstays, hr, hmigrated, hsite, hsent, rfl⟩
    have hroot : (∃ uri ∈ departing ps, s.rootUri = .str uri) ↔ isGone = true := by
      rw [hisGone, huri]
      constructor
      · rintro ⟨u, hu, heq⟩
        exact Value.str.inj heq ▸ hu
      · exact fun hu => ⟨uri, hu, rfl⟩
    split
    · rename_i htrue
      simp only [ensures_bind, ensures_liftExcept]
      refine ⟨fun first hfirst => ?_, fun _ _ => hfail⟩
      refine (ensures_replaceRoot_firstAdded hitems hfirst htexts hjoins).mono (fun _ s₂ h₂ => ?_)
        fun _ _ h => h.elim
      exact hmove (h₁.succeeds h₂) (fun _ => h₂) fun hnot => absurd (hroot.2 htrue) hnot
    · rename_i hfalse
      simp only [ensures_bind, ensures_liftExcept]
      refine ⟨fun _ _ => ?_, fun _ _ => hfail⟩
      exact hmove h₁ (fun h => absurd (hroot.1 h) hfalse) fun _ => rfl
  · rintro _ _ ⟨taken, rfl⟩
    exact ⟨taken, (Joins.nil _).partly⟩

/-! ## Starting -/

/-- The folders, the root, the configuration in force and the workspaces are the same. -/
structure SameGroups (s t : Session) : Prop where
  rootUri : t.rootUri = s.rootUri
  config : t.config = s.config
  root : t.root = s.root
  folders : t.folders = s.folders
  spaces : t.host.spaces = s.host.spaces

theorem SameGroups.trans (h1 : s.SameGroups t) (h2 : t.SameGroups u) : s.SameGroups u :=
  ⟨h2.rootUri.trans h1.rootUri, h2.config.trans h1.config, h2.root.trans h1.root,
    h2.folders.trans h1.folders, h2.spaces.trans h1.spaces⟩

theorem SameGroups.siteAt (h : s.SameGroups t) (n : Nat) : t.host.siteAt n = s.host.siteAt n := by
  rw [Host.siteAt, Host.siteAt, h.spaces]

theorem SameGroups.stays (h : s.SameGroups t) : s.Stays t :=
  ⟨h.rootUri, h.config, h.root, h.folders, h.siteAt⟩

theorem ensures_hook_start_same (s : Session) :
    Ensures (hook .start .null) s (fun _ t => s.SameGroups t) fun _ _ => True := by
  refine (ensures_hook_start s).mono ?_ fun _ _ _ => trivial
  rintro _ _ ⟨h, hsteps, rfl⟩
  exact ⟨rfl, rfl, rfl, rfl, (Host.sameSpaces_of_consult hsteps).spaces⟩

theorem ensures_watch_same (s : Session) (pid : Value) :
    Ensures (watch pid) s (fun _ t => s.SameGroups t) fun _ _ => True := by
  refine (ensures_watch s pid).mono ?_ fun _ _ _ => trivial
  rintro _ _ (rfl | rfl) <;> exact ⟨rfl, rfl, rfl, rfl, rfl⟩

/-- The session once the root folder has its workspace, in which nothing is open. -/
structure SetUp (uri : String) (n : Nat) (s : Session) : Prop where
  root : s.root = some n
  config : s.config = some n
  rootUri : s.rootUri = .str uri
  folders : s.folders = [(uri, n)]
  siteAt : s.host.siteAt n = some uri
  sentAt : s.host.sentAt n = some (.object [], 0)
  documentAt : ∀ m v, s.host.documentAt m v = none

theorem SetUp.rooted {uri : String} {n : Nat} (hs : s.SetUp uri n) : s.Rooted := by
  refine ⟨⟨n, uri, hs.root, hs.config, hs.rootUri, hs.siteAt⟩, fun name m hm => ?_⟩
  rw [hs.folders, List.mem_singleton] at hm
  obtain ⟨rfl, rfl⟩ := Prod.mk.inj hm
  exact hs.siteAt

/-- **A start** makes the root, and then the other folders that the client names come. -/
theorem ensures_start_setUp (machine : Machine) (engines : Engines) (checksParent : Bool)
    (ps : Params) :
    Ensures (start ps) (fresh machine engines checksParent)
      (fun _ t => ∃ uri n names s u, SetUp uri n s ∧ uri ∉ names ∧ Joins s names u ∧ u.SameGroups t)
      fun _ _ => True := by
  simp only [start, ensures_bind]
  refine (ensures_rootUriArg _ ps).mono ?_ fun _ _ _ => trivial
  rintro v _ rfl
  have hleave : Ensures (leaveRoot v) (fresh machine engines checksParent)
      (fun _ s => s = { fresh machine engines checksParent with rootUri := v }) fun _ _ => True :=
    rfl
  refine hleave.mono ?_ fun _ _ _ => trivial
  rintro _ _ rfl
  simp only [ensures_liftExcept, ensures_liftAct]
  refine ⟨fun uri _ => ?_, fun _ _ => trivial⟩
  refine (Host.ensures_createSpace_gains _ _ _ _ _).mono ?_ fun _ _ _ => trivial
  rintro n host ⟨-, hgains, hsite, hsent⟩
  simp only [setRoot, ensures_modify]
  refine (ensures_addFolders_joins _ uri _).mono ?_ fun _ _ _ => trivial
  rintro _ u ⟨names, hnames, hjoins⟩
  have hsetUp : SetUp uri n { fresh machine engines checksParent with
      host, rootUri := .str uri, config := some n, root := some n, folders := [(uri, n)] } :=
    ⟨rfl, rfl, rfl, rfl, hsite, hsent, hgains.documentAt⟩
  refine (ensures_hook_start_same _).mono ?_ fun _ _ _ => trivial
  intro _ t ht
  have hsame : u.SameGroups t := ⟨ht.rootUri, ht.config, ht.root, ht.folders, ht.spaces⟩
  rw [ensures_get]
  split
  · simp only [ensures_bind, ensures_set]
    refine (ensures_watch_same _ _).mono ?_ fun _ _ _ => trivial
    intro _ t' ht'
    have hsame' : u.SameGroups t' :=
      hsame.trans ⟨ht'.rootUri, ht'.config, ht'.root, ht'.folders, ht'.spaces⟩
    exact ⟨uri, n, names, _, u, hsetUp, hnames, hjoins, hsame'⟩
  · exact ⟨uri, n, names, _, u, hsetUp, hnames, hjoins, hsame⟩

section Started

variable {machine : Machine} {engines : Engines} {checksParent : Bool} {ps : Params}
  {answer : Value}

theorem rooted_of_start
    (hstart : handle ps .start (fresh machine engines checksParent) = .ok answer s) :
    s.Rooted := by
  obtain ⟨uri, n, names, s₀, u, hsetUp, -, hjoins, hsame⟩ :=
    (ensures_start_setUp machine engines checksParent ps).ok hstart
  exact (hsetUp.rooted.joins hjoins).of_stays hsame.stays

theorem listed_of_start
    (hstart : handle ps .start (fresh machine engines checksParent) = .ok answer s) :
    ∃ uri r, s.rootUri = .str uri ∧ s.root = some r ∧ Value.lookup uri s.folders = some r := by
  obtain ⟨uri, n, names, s₀, u, hsetUp, hnames, hjoins, hsame⟩ :=
    (ensures_start_setUp machine engines checksParent ps).ok hstart
  refine ⟨uri, n, ?_, ?_, ?_⟩
  · rw [hsame.rootUri, hjoins.eq, hsetUp.rootUri]
  · rw [hsame.root, hjoins.eq, hsetUp.root]
  · rw [hsame.folders, hjoins.lookup_of_not_mem hnames, hsetUp.folders]
    simp [Value.lookup]

theorem documentAt_of_start
    (hstart : handle ps .start (fresh machine engines checksParent) = .ok answer s)
    (n : Nat) (uri : String) : s.host.documentAt n uri = none := by
  obtain ⟨_, _, names, s₀, u, hsetUp, -, hjoins, hsame⟩ :=
    (ensures_start_setUp machine engines checksParent ps).ok hstart
  rw [Host.documentAt, hsame.spaces, ← Host.documentAt, hjoins.gains.documentAt,
    hsetUp.documentAt]

end Started

end Session
end LangServer
