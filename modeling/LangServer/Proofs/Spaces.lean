import LangServer.Proofs.Action
import LangServer.Proofs.Members

/-!
# What the workspaces of a host hold

A host keeps all workspaces that were ever made, by number. What matters about them is seen through
two functions: the document that is open under a URI in a workspace (`documentAt`), and the root
path of a workspace (`rootPathAt`).

* `put` and `remove` are the two ways in which a document table changes, and the actions of a
  workspace are described by them: opening, storing and changing a document puts, closing one
  removes.
* `Extends` says that a host has at most gained workspaces without documents. That is all that
  making a workspace or handing on settings does.
-/

namespace LangServer

theorem Workspace.of_create {m : Machine} {rootUri : String} {config : Option Config}
    {w : Workspace} (h : Workspace.create m rootUri config = .ok w) :
    w.rootUri = rootUri ∧ w.config = config ∧ w.documents = [] := by
  rw [Workspace.create] at h
  obtain ⟨parts, -, h⟩ := exists_of_bind_eq_ok h
  obtain ⟨path, -, h⟩ := exists_of_bind_eq_ok h
  obtain rfl := Except.ok.inj h
  exact ⟨rfl, rfl, rfl⟩

namespace Host

/-! ## The view -/

/-- The document that is open under a URI in the workspace with a number. -/
def documentAt (h : Host) (n : Nat) (uri : String) : Option Document :=
  h.spaces[n]?.bind fun w => Value.lookup uri w.documents

/-- The root path of the workspace with a number. -/
def rootPathAt (h : Host) (n : Nat) : Option String := h.spaces[n]?.map (·.rootPath)

/-- The host with another table of documents in a workspace. -/
def withDocuments (h : Host) (n : Nat) (f : List (String × Document) → List (String × Document)) :
    Host :=
  { h with spaces := h.spaces.modify n fun w => { w with documents := f w.documents } }

/-- The host with a document in a workspace. -/
def put (h : Host) (n : Nat) (uri : String) (d : Document) : Host :=
  h.withDocuments n (Value.insert uri d)

/-- The host without a document in a workspace. -/
def remove (h : Host) (n : Nat) (uri : String) : Host := h.withDocuments n (Value.erase uri)

variable {h : Host} {n : Nat} {uri : String} {d : Document}

theorem lt_of_documentAt (hd : h.documentAt n uri = some d) : n < h.spaces.length := by
  rw [documentAt] at hd
  obtain ⟨w, hw, -⟩ := Option.bind_eq_some_iff.1 hd
  exact (List.getElem?_eq_some_iff.1 hw).1

theorem documentAt_withDocuments (f : List (String × Document) → List (String × Document))
    (m : Nat) (v : String) :
    (h.withDocuments n f).documentAt m v =
      if m = n then h.spaces[n]?.bind fun w => Value.lookup v (f w.documents)
      else h.documentAt m v := by
  rw [documentAt, documentAt, withDocuments, List.getElem?_modify]
  by_cases hm : n = m
  · subst hm
    cases h.spaces[n]? <;> simp
  · simp [hm, Ne.symm hm]

theorem documentAt_put (hn : n < h.spaces.length) (m : Nat) (v : String) :
    (h.put n uri d).documentAt m v = if m = n ∧ v = uri then some d else h.documentAt m v := by
  rw [put, documentAt_withDocuments]
  by_cases hm : m = n
  · subst hm
    rw [documentAt, List.getElem?_eq_getElem hn]
    simp [Value.lookup_insert]
  · simp [hm]

theorem documentAt_remove (m : Nat) (v : String) :
    (h.remove n uri).documentAt m v = if m = n ∧ v = uri then none else h.documentAt m v := by
  rw [remove, documentAt_withDocuments]
  by_cases hm : m = n
  · subst hm
    rw [documentAt]
    cases h.spaces[m]? with
    | none => simp
    | some w => simp [Value.lookup_erase]
  · simp [hm]

theorem length_withDocuments (f : List (String × Document) → List (String × Document)) :
    (h.withDocuments n f).spaces.length = h.spaces.length := by
  simp [withDocuments]

theorem rootPathAt_withDocuments (f : List (String × Document) → List (String × Document))
    (m : Nat) : (h.withDocuments n f).rootPathAt m = h.rootPathAt m := by
  rw [rootPathAt, rootPathAt, withDocuments, List.getElem?_modify]
  cases h.spaces[m]? with
  | none => rfl
  | some w =>
    simp only [Option.map_eq_map, Option.map_some]
    split <;> rfl

/-- The hosts differ at most in the documents that are open in their workspaces. -/
structure SameRoots (h h' : Host) : Prop where
  machine : h'.machine = h.machine
  length : h'.spaces.length = h.spaces.length
  rootPathAt : ∀ n, h'.rootPathAt n = h.rootPathAt n

theorem SameRoots.refl (h : Host) : h.SameRoots h := ⟨rfl, rfl, fun _ => rfl⟩

theorem SameRoots.trans {h h' h'' : Host} (h1 : h.SameRoots h') (h2 : h'.SameRoots h'') :
    h.SameRoots h'' :=
  ⟨h2.machine.trans h1.machine, h2.length.trans h1.length,
    fun n => (h2.rootPathAt n).trans (h1.rootPathAt n)⟩

theorem sameRoots_put (h : Host) (n : Nat) (uri : String) (d : Document) :
    h.SameRoots (h.put n uri d) :=
  ⟨rfl, length_withDocuments _, rootPathAt_withDocuments _⟩

theorem sameRoots_remove (h : Host) (n : Nat) (uri : String) : h.SameRoots (h.remove n uri) :=
  ⟨rfl, length_withDocuments _, rootPathAt_withDocuments _⟩

/-! ## Actions on documents -/

variable {good : Unit → Host → Prop} {bad : Fault → Host → Prop}

theorem ensures_space (i : Nat) (good : Workspace → Host → Prop) :
    Ensures (space i) h good bad ↔
      (∀ w, h.spaces[i]? = some w → good w h) ∧ (h.spaces[i]? = none → bad .noMember h) := by
  rw [space, ensures_bind, ensures_get]
  cases h.spaces[i]? <;> simp

theorem ensures_space_of_some {i : Nat} {w : Workspace} (hw : h.spaces[i]? = some w)
    (good : Workspace → Host → Prop) : Ensures (space i) h good bad ↔ good w h := by
  rw [ensures_space, hw]
  simp

theorem ensures_setSpace {w : Workspace} (hw : h.spaces[n]? = some w)
    (f : List (String × Document) → List (String × Document)) :
    Ensures (setSpace n { w with documents := f w.documents }) h good bad ↔
      good () (h.withDocuments n f) := by
  have hset : h.spaces.set n { w with documents := f w.documents } =
      h.spaces.modify n fun w => { w with documents := f w.documents } := by
    refine List.ext_getElem? fun i => ?_
    rw [List.getElem?_set, List.getElem?_modify]
    by_cases hi : n = i
    · subst hi
      obtain ⟨hlt, -⟩ := List.getElem?_eq_some_iff.1 hw
      rw [hw]
      simp [hlt]
    · simp [hi]
  rw [setSpace, ensures_modify, hset]
  rfl

theorem ensures_storeDocument (n : Nat) (uri : String) (d : Document) :
    Ensures (storeDocument n uri d) h good bad ↔
      (n < h.spaces.length → good () (h.put n uri d)) ∧
        (h.spaces.length ≤ n → bad .noMember h) := by
  rw [storeDocument, ensures_bind, ensures_space]
  cases hw : h.spaces[n]? with
  | none =>
    have hle := List.getElem?_eq_none_iff.1 hw
    simp [hle, Nat.not_lt.2 hle]
  | some w =>
    obtain ⟨hlt, -⟩ := List.getElem?_eq_some_iff.1 hw
    simp only [Option.some_inj, forall_eq', ensures_setSpace hw (Value.insert uri d)]
    simp [hlt, Nat.not_le.2 hlt, put]

/-- A document is opened as the workspace makes it, or nothing happens. -/
theorem ensures_openDocument (n : Nat) (uri : String) (source : Content) (version : Value) :
    Ensures (openDocument n uri source version) h good bad ↔
      (∀ w, h.spaces[n]? = some w →
          (∀ d, w.newDocument h.machine n uri source version = .ok d → good () (h.put n uri d)) ∧
          ∀ f, w.newDocument h.machine n uri source version = .error f → bad f h) ∧
        (h.spaces[n]? = none → bad .noMember h) := by
  simp only [openDocument, newDocument, ensures_bind, ensures_space, ensures_get,
    ensures_liftExcept]
  cases hw : h.spaces[n]? with
  | none => simp
  | some w =>
    have hset : ∀ d, Ensures (setSpace n { w with documents := Value.insert uri d w.documents })
        h good bad ↔ good () (h.put n uri d) := fun d => ensures_setSpace hw (Value.insert uri d)
    simp [hset]

theorem ensures_document (hd : h.documentAt n uri = some d) (good : Document → Host → Prop) :
    Ensures (document n uri) h good bad ↔ good d h := by
  obtain ⟨w, hw, hd⟩ := Option.bind_eq_some_iff.1 hd
  rw [document, ensures_bind, ensures_space_of_some hw]
  simp [hd]

theorem ensures_closeDocument (n : Nat) (uri : String) :
    Ensures (closeDocument n uri) h good bad ↔
      (∀ d, h.documentAt n uri = some d → good () (h.remove n uri)) ∧
        (n < h.spaces.length → h.documentAt n uri = none → bad (.missingKey (.str uri)) h) ∧
        (h.spaces.length ≤ n → bad .noMember h) := by
  rw [closeDocument, ensures_bind, ensures_space, documentAt]
  cases hw : h.spaces[n]? with
  | none =>
    have hle := List.getElem?_eq_none_iff.1 hw
    simp [hle, Nat.not_lt.2 hle]
  | some w =>
    obtain ⟨hlt, -⟩ := List.getElem?_eq_some_iff.1 hw
    cases hd : Value.lookup uri w.documents with
    | none => simp [hd, hlt, Nat.not_le.2 hlt]
    | some d =>
      simp only [Option.some_inj, forall_eq', hd, ensures_setSpace hw (Value.erase uri)]
      simp [hd, Nat.not_le.2 hlt, remove]

/-- A change is applied to the document as it stands, or nothing happens. -/
theorem ensures_changeDocument (n : Nat) (uri : String) (change version : Value) :
    Ensures (changeDocument n uri change version) h good bad ↔
      (∀ d, h.documentAt n uri = some d →
          (∀ d', d.change h.machine.files change = .ok d' →
            good () (h.put n uri { d' with version })) ∧
          ∀ f, d.change h.machine.files change = .error f → bad f h) ∧
        (n < h.spaces.length → h.documentAt n uri = none → bad (.missingKey (.str uri)) h) ∧
        (h.spaces.length ≤ n → bad .noMember h) := by
  rw [changeDocument, ensures_bind, ensures_space, documentAt]
  cases hw : h.spaces[n]? with
  | none =>
    have hle := List.getElem?_eq_none_iff.1 hw
    simp [hle, Nat.not_lt.2 hle]
  | some w =>
    obtain ⟨hlt, -⟩ := List.getElem?_eq_some_iff.1 hw
    cases hd : Value.lookup uri w.documents with
    | none => simp [hd, hlt, Nat.not_le.2 hlt]
    | some d =>
      simp [hd, hlt, Nat.not_le.2 hlt, ensures_liftExcept, ensures_storeDocument]

/-! ## Hosts that have gained workspaces -/

/-- The host has changed at most in what no document depends on: it has the same files, documents
and root paths, and perhaps more workspaces, in which no document is open. -/
structure Extends (h h' : Host) : Prop where
  machine : h'.machine = h.machine
  length_le : h.spaces.length ≤ h'.spaces.length
  documentAt : ∀ n uri, h'.documentAt n uri = h.documentAt n uri
  rootPathAt : ∀ n p, h.rootPathAt n = some p → h'.rootPathAt n = some p

theorem Extends.refl (h : Host) : h.Extends h :=
  ⟨rfl, Nat.le_refl _, fun _ _ => rfl, fun _ _ hp => hp⟩

theorem Extends.trans {h h' h'' : Host} (h1 : h.Extends h') (h2 : h'.Extends h'') :
    h.Extends h'' :=
  ⟨h2.machine.trans h1.machine, Nat.le_trans h1.length_le h2.length_le,
    fun n uri => (h2.documentAt n uri).trans (h1.documentAt n uri),
    fun n p hp => h2.rootPathAt n p (h1.rootPathAt n p hp)⟩

/-- The hosts differ in neither the machine nor any workspace. -/
structure SameSpaces (h h' : Host) : Prop where
  machine : h'.machine = h.machine
  spaces : h'.spaces = h.spaces

theorem SameSpaces.refl (h : Host) : h.SameSpaces h := ⟨rfl, rfl⟩

theorem SameSpaces.trans {h h' h'' : Host} (h1 : h.SameSpaces h') (h2 : h'.SameSpaces h'') :
    h.SameSpaces h'' :=
  ⟨h2.machine.trans h1.machine, h2.spaces.trans h1.spaces⟩

theorem SameSpaces.extends {h h' : Host} (hsame : h.SameSpaces h') : h.Extends h' := by
  refine ⟨hsame.machine, Nat.le_of_eq (by rw [hsame.spaces]), fun n uri => ?_, fun n p hp => ?_⟩
  · rw [Host.documentAt, Host.documentAt, hsame.spaces]
  · rwa [Host.rootPathAt, hsame.spaces]

theorem Extends.of_append {h h' : Host} {w : Workspace} (hmachine : h'.machine = h.machine)
    (hspaces : h'.spaces = h.spaces ++ [w]) (hw : w.documents = []) : h.Extends h' := by
  have hnew : ∀ n, h'.spaces[n]? =
      if n < h.spaces.length then h.spaces[n]?
      else if n = h.spaces.length then some w else none := by
    intro n
    rw [hspaces]
    rcases Nat.lt_trichotomy n h.spaces.length with hlt | heq | hgt
    · rw [if_pos hlt, List.getElem?_append_left hlt]
    · rw [if_neg (by omega), if_pos heq, heq]
      simp
    · rw [if_neg (by omega), if_neg (by omega), List.getElem?_eq_none_iff]
      simp
      omega
  refine ⟨hmachine, by simp [hspaces], fun n uri => ?_, fun n p hp => ?_⟩
  · rw [Host.documentAt, Host.documentAt, hnew]
    by_cases hlt : n < h.spaces.length
    · rw [if_pos hlt]
    · rw [if_neg hlt, List.getElem?_eq_none_iff.2 (Nat.le_of_not_lt hlt)]
      split <;> simp [hw, Value.lookup]
  · rw [Host.rootPathAt] at hp ⊢
    obtain ⟨v, hv, hvp⟩ := Option.map_eq_some_iff.1 hp
    rw [hnew, if_pos (List.getElem?_eq_some_iff.1 hv).1, hv, Option.map_some, hvp]

theorem Extends.of_set {h h' : Host} {n : Nat} {w w' : Workspace}
    (hmachine : h'.machine = h.machine) (hw : h.spaces[n]? = some w)
    (hspaces : h'.spaces = h.spaces.set n w') (hdocs : w'.documents = w.documents)
    (hpath : w'.rootPath = w.rootPath) : h.Extends h' := by
  obtain ⟨hlt, -⟩ := List.getElem?_eq_some_iff.1 hw
  refine ⟨hmachine, by simp [hspaces], fun m uri => ?_, fun m p hp => ?_⟩
  · rw [Host.documentAt, Host.documentAt, hspaces, List.getElem?_set]
    by_cases hm : n = m
    · subst hm
      rw [hw]
      simp [hlt, hdocs]
    · simp [hm]
  · rw [Host.rootPathAt, hspaces, List.getElem?_set]
    by_cases hm : n = m
    · subst hm
      rw [Host.rootPathAt, hw, Option.map_some, ← hpath] at hp
      simpa [hlt] using hp
    · rw [Host.rootPathAt] at hp
      simpa [hm] using hp

/-! ## Making workspaces and handing on settings -/

theorem ensures_onCache {α : Type} (a : EStateM Fault Settings.Cache α) (h : Host) :
    Ensures (onCache a) h (fun _ h' => h.SameSpaces h') fun _ h' => h.SameSpaces h' := by
  rw [Ensures, onCache]
  cases a h.cache <;> exact ⟨rfl, rfl⟩

theorem ensures_createSpace (h : Host) (rootUri : String)
    (initOptions processId capabilities : Value) :
    Ensures (createSpace rootUri initOptions processId capabilities) h
      (fun n h' => h.Extends h' ∧ n < h'.spaces.length)
      fun _ h' => h.Extends h' := by
  simp only [createSpace, createConfig, addSpace, ensures_bind, ensures_get, ensures_set]
  have hcount : h.SameSpaces { h with configs := h.configs + 1 } := ⟨rfl, rfl⟩
  refine (ensures_onCache _ _).mono ?_ fun _ _ hsame => (hcount.trans hsame).extends
  rintro c h1 ⟨hmachine, hspaces⟩
  rw [ensures_liftExcept]
  refine ⟨fun w hw => ?_, fun _ _ => SameSpaces.extends ⟨hmachine, hspaces⟩⟩
  refine ⟨Extends.of_append (w := w) hmachine ?_ (Workspace.of_create hw).2.2, ?_⟩
  · rw [hspaces]
  · simp

theorem ensures_config (h : Host) (n : Nat) :
    Ensures (config n) h (fun _ h' => h' = h) fun _ h' => h' = h := by
  simp only [config, ensures_bind, ensures_space]
  refine ⟨fun w _ => ?_, fun _ => trivial⟩
  cases w.config <;> exact rfl

/-- Settings that change in place leave the rest of a workspace. -/
theorem map_spaces_amendClient {revision : Nat} {path : List String}
    {shared : Settings.Settled → Bool} {f : Value → Value} {field : Workspace → α}
    (hfield : ∀ w config, field { w with config } = field w) :
    (amendClient revision path shared f h).spaces[n]?.map field = h.spaces[n]?.map field := by
  rw [amendClient, List.getElem?_map, Option.map_map]
  refine congrArg (fun g => h.spaces[n]?.map g) (funext fun w => ?_)
  rw [Function.comp_apply]
  split
  · split
    · exact hfield w _
    · rfl
  · rfl

/-- The configuration of a workspace has taken over settings, be it with a fault or without. -/
inductive Updated (n : Nat) (client : Value) (revision : Nat) (h : Host) :
    Option Fault → Host → Prop where
  | mk {w : Workspace} {c : Config} (hw : h.spaces[n]? = some w) (hc : w.config = some c) :
      Updated n client revision h (c.update h.machine client revision).2.2 { h with
        cache := (c.update h.machine client revision).2.1
        spaces := h.spaces.set n { w with config := some (c.update h.machine client revision).1 } }

theorem ensures_updateConfig (h : Host) (n : Nat) (client : Value) (revision : Nat) :
    Ensures (updateConfig n client revision) h
      (fun _ h' => h.Updated n client revision none h')
      fun f h' => h' = h ∨ h.Updated n client revision (some f) h' := by
  simp only [updateConfig, config, ensures_bind, ensures_space, ensures_get]
  refine ⟨fun w hw => ⟨fun w' hw' => ?_, fun _ => .inl trivial⟩, fun _ => .inl trivial⟩
  obtain rfl := Option.some_inj.1 (hw.symm.trans hw')
  rcases hc : w.config with _ | c
  · exact .inl rfl
  have hupdated : h.Updated n client revision _ _ := .mk hw hc
  rw [ensures_pure, ensures_set]
  revert hupdated
  cases (c.update h.machine client revision).2.2 with
  | none => exact id
  | some f => exact Or.inr

theorem Updated.extends {n : Nat} {client : Value} {revision : Nat} {fault? : Option Fault}
    {h h' : Host} (hupdated : h.Updated n client revision fault? h') : h.Extends h' := by
  obtain ⟨hw, -⟩ := hupdated
  exact .of_set rfl hw rfl rfl rfl

end Host
end LangServer
