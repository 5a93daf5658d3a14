import LangServer.Proofs.Linting.Effects

/-!
# Which codes does flake8 ignore?

flake8 is started with the codes that the settings ignore, followed by the codes of those entries
for single files that apply to the document (`Lint.Flake8.ignoredCodes`). The codes are added to
the very list that the settings hold, so that the settings answer with a longer list afterwards
(`Host.ensures_extendIgnores`).

`Lint.Flake8.ensures_prepare` says both: what flake8 is started with is a matter of the settings
alone, and the settings then hold the codes that were added.
-/

namespace LangServer

open Settings Relation

/-! ## Changes at a path -/

namespace Value

variable {f g : Value → Value}

theorem modifyAt_eq_self {path : List String} {v : Value}
    (h : ∀ w, v.path? path = some w → f w = w) : v.modifyAt f path = v := by
  induction path generalizing v with
  | nil => exact h v rfl
  | cons key rest ih =>
    cases v with
    | object members =>
      cases hw : lookup key members with
      | none => simp only [modifyAt, hw]
      | some w =>
        rw [path?, hw] at h
        simp only [modifyAt, hw, ih h, insert_of_lookup hw]
    | _ => rfl

theorem modifyAt_modifyAt (path : List String) (v : Value) :
    (v.modifyAt f path).modifyAt g path = v.modifyAt (g ∘ f) path := by
  induction path generalizing v with
  | nil => rfl
  | cons key rest ih =>
    cases v with
    | object members =>
      cases hw : lookup key members with
      | none => simp only [modifyAt, hw]
      | some w => simp only [modifyAt, hw, lookup_insert_self, insert_insert, ih]
    | _ => rfl

end Value

theorem Host.extend_extend (xs ys : List Value) :
    Host.extend ys ∘ Host.extend xs = Host.extend (xs ++ ys) := by
  funext v
  cases v <;> simp [extend]

/-! ## The codes that are ignored -/

namespace Lint.Flake8

/-- The entries for single files. -/
def entriesOf (settings : Value) : Except Fault (List Value) := do
  let entries ← settings.get "perFileIgnores"
  if entries.truthy then entries.elements else return []

/-- Codes with those of the entries that apply to a path. Only to a list codes can be added. -/
def addCodes (path : String) (ignores : Value) : List Value → Except Fault Value
  | [] => .ok ignores
  | entry :: rest => do
    match ← fileIgnoresFor path entry with
    | none => addCodes path ignores rest
    | some codes =>
      match ignores with
      | .list items => addCodes path (.list (items ++ codes)) rest
      | _ => .error .noMember

/-- The codes of the settings with those that apply to a path. -/
def ignoredCodes (path : String) (settings : Value) : Except Fault Value := do
  let ignores ← settings.getD "ignore" (.list [])
  addCodes path ignores (← entriesOf settings)

/-- The codes of all entries that apply to a path. -/
def codesFor (path : String) (entries : List Value) : Except Fault (List Value) := do
  return ((← entries.mapM (fileIgnoresFor path)).filterMap id).flatten

theorem codesFor_cons (path : String) (entry : Value) (rest : List Value) :
    codesFor path (entry :: rest) = (do
      let found ← fileIgnoresFor path entry
      return found.getD [] ++ (← codesFor path rest)) := by
  rw [codesFor, codesFor, List.mapM_cons]
  cases fileIgnoresFor path entry with
  | error f => rfl
  | ok found =>
    cases rest.mapM (fileIgnoresFor path) with
    | error f => rfl
    | ok more => cases found <;> rfl

/-- **The codes of the settings come first**, and then those of the entries that apply. -/
theorem addCodes_list (path : String) (items entries : List Value) :
    addCodes path (.list items) entries = (codesFor path entries).map fun codes =>
      .list (items ++ codes) := by
  induction entries generalizing items with
  | nil => simp [addCodes, codesFor, pure, Except.pure, Except.map, bind, Except.bind]
  | cons entry rest ih =>
    rw [addCodes, codesFor_cons]
    cases fileIgnoresFor path entry with
    | error f => rfl
    | ok found =>
      cases found with
      | none =>
        show addCodes path (.list items) rest = _
        rw [ih]
        cases codesFor path rest <;> rfl
      | some codes =>
        show addCodes path (.list (items ++ codes)) rest = _
        rw [ih]
        cases codesFor path rest with
        | error f => rfl
        | ok more =>
          simp [Except.map, bind, Except.bind, pure, Except.pure]

/-- An entry applies to the path. -/
def Applies (path : String) (entries : List Value) : Prop :=
  ∃ entry ∈ entries, ∃ codes, fileIgnoresFor path entry = .ok (some codes)

theorem ne_nil_of_fileIgnores {entry : String} {pattern : List Char} {codes : List (List Char)}
    (h : fileIgnores entry = .ok (pattern, codes)) : codes ≠ [] := by
  rw [fileIgnores] at h
  split at h
  · rw [← (Prod.mk.inj (Except.ok.inj h)).2]
    exact Text.splitOn_ne_nil _ _
  · cases h

theorem ne_nil_of_fileIgnoresFor {path : String} {entry : Value} {codes : List Value}
    (h : fileIgnoresFor path entry = .ok (some codes)) : codes ≠ [] := by
  rw [fileIgnoresFor] at h
  cases htext : entry.text with
  | error f =>
    rw [htext] at h
    cases h
  | ok text =>
    rw [htext] at h
    cases hlist : fileIgnores text with
    | error f => simp [hlist, bind, Except.bind] at h
    | ok list =>
      obtain ⟨pattern, parts⟩ := list
      simp only [hlist, bind, Except.bind] at h
      split at h
      · cases h
      · cases h
      · rw [← Option.some_inj.1 (Except.ok.inj h)]
        exact fun hnil => ne_nil_of_fileIgnores hlist (List.map_eq_nil_iff.1 hnil)

theorem codesFor_ne_nil {path : String} {entries codes : List Value}
    (happlies : Applies path entries) (hcodes : codesFor path entries = .ok codes) :
    codes ≠ [] := by
  obtain ⟨entry, hentry, found, hfound⟩ := happlies
  induction entries generalizing codes with
  | nil => cases hentry
  | cons first rest ih =>
    rw [codesFor_cons] at hcodes
    obtain ⟨found', hfirst, hcodes⟩ := exists_of_bind_eq_ok hcodes
    obtain ⟨more, hmore, hcodes⟩ := exists_of_bind_eq_ok hcodes
    obtain rfl := Except.ok.inj hcodes
    intro hnil
    rw [List.append_eq_nil_iff] at hnil
    rcases List.mem_cons.1 hentry with rfl | hentry
    · obtain rfl := Except.ok.inj (hfirst.symm.trans hfound)
      exact ne_nil_of_fileIgnoresFor hfound hnil.1
    · exact ih hmore hentry hnil.2

end Lint.Flake8

/-! ## Answers that grow -/

theorem Config.exists_list_of_clientsIgnores {m : Machine} {c : Config} {path : Value}
    {settled : Settled} (hsettled : c.compute m path = .ok settled)
    (hclients : settled.clientsIgnores = true) :
    ∃ items, settled.value.path? ignorePath = some (.list items) := by
  unfold compute at hsettled
  simp only [bind, Except.bind, pure, Except.pure] at hsettled
  iterate 5
    split at hsettled
    · cases hsettled
  obtain rfl := Except.ok.inj hsettled
  simp only [isClientsIgnores] at hclients
  split at hclients
  · rename_i hlist
    exact ⟨_, hlist⟩
  · cases hclients

namespace Host

variable {h h' : Host} {n : Nat} {path : String}

/-- The cache holds a value as the answer to the question for a path. -/
structure Answers (h : Host) (n : Nat) (path : String) (value : Value) : Prop where
  found : ∃ c e, h.configAt n = some c ∧ h.cache.find? c.id (.named (.str path)) = some e ∧
    e.settled.value = value

theorem find?_map_entries {entries : List Entry} {g : Entry → Entry} {owner : Nat} {query : Query}
    {e : Entry} (hg : ∀ e, (g e).owner = e.owner ∧ (g e).query = e.query)
    (he : (Cache.mk entries).find? owner query = some e) :
    (Cache.mk (entries.map g)).find? owner query = some (g e) := by
  have hanswers : Cache.answers owner query ∘ g = Cache.answers owner query := by
    funext e
    rw [Function.comp_apply, Cache.answers, Cache.answers, (hg e).1, (hg e).2]
  rw [Cache.find?, List.find?_map, hanswers]
  show ((Cache.mk entries).find? owner query).map g = _
  rw [he]
  rfl

theorem configAt_amendClient (revision : Nat) (path : List String) (shared : Settled → Bool)
    (f : Value → Value) (n : Nat) :
    (h.amendClient revision path shared f).configAt n = (h.configAt n).map fun c =>
      if c.revision = revision then { c with client := c.client.modifyAt f path } else c := by
  simp only [configAt, amendClient, List.getElem?_map]
  cases h.spaces[n]? with
  | none => rfl
  | some w =>
    cases hc : w.config with
    | none => simp [hc]
    | some c => by_cases hrev : c.revision = revision <;> simp [hc, hrev]

/-- **Adding codes adds them to the answer.** -/
theorem ensures_extendIgnores {value : Value} (ha : h.Answers n path value) (codes : List Value) :
    Ensures (extendIgnores n (.named (.str path)) codes) h
      (fun _ h' => h'.Answers n path (value.modifyAt (extend codes) Config.ignorePath))
      fun _ _ => False := by
  obtain ⟨c, e, hc, he, rfl⟩ := ha.found
  rw [extendIgnores, ensures_bind, ensures_config_iff, hc]
  refine ⟨fun c' hc' => ?_, fun hno => absurd hno (Option.some_ne_none c)⟩
  obtain rfl := Option.some_inj.1 hc'
  rw [ensures_bind, ensures_get, he]
  obtain ⟨hmem, howner, hquery⟩ := Cache.find?_eq_some he
  dsimp only
  split
  · rename_i hshared
    rw [ensures_set]
    refine ⟨{ c with client := c.client.modifyAt (extend codes) Config.ignorePath },
      { e with settled := { e.settled with
        value := e.settled.value.modifyAt (extend codes) Config.ignorePath } }, ?_, ?_, rfl⟩
    · rw [configAt_amendClient, hc, Option.map_some, if_pos rfl]
    · have howns : (h.spaces.filterMap fun w => w.config.bind fun d =>
          if d.revision = c.revision then some d.id else none).contains e.owner = true := by
        obtain ⟨w, hw, hwc⟩ := Option.bind_eq_some_iff.1 hc
        rw [List.contains_iff_mem, List.mem_filterMap]
        exact ⟨w, List.mem_of_getElem? hw, by simp [hwc, howner]⟩
      have hfind := find?_map_entries (g := fun e' =>
        if (h.spaces.filterMap fun w => w.config.bind fun d =>
          if d.revision = c.revision then some d.id else none).contains e'.owner &&
            e'.settled.clientsIgnores then
          { e' with settled := { e'.settled with
            value := e'.settled.value.modifyAt (extend codes) Config.ignorePath } } else e')
        (fun e' => by split <;> exact ⟨rfl, rfl⟩) he
      rwa [if_pos (by rw [howns, hshared]; rfl)] at hfind
  · rw [ensures_set]
    refine ⟨c, { e with settled := { e.settled with
      value := e.settled.value.modifyAt (extend codes) Config.ignorePath } }, hc, ?_, rfl⟩
    have hfind := find?_map_entries (g := fun e =>
      if Cache.answers c.id (.named (.str path)) e then { e with settled := { e.settled with
        value := e.settled.value.modifyAt (extend codes) Config.ignorePath } } else e)
      (fun e => by split <;> exact ⟨rfl, rfl⟩) he
    rwa [if_pos (List.find?_some he)] at hfind

theorem ensures_extendIgnores_of_none (hh : h.Coherent) {c : Config} (hc : h.configAt n = some c)
    {settled : Settled} (hsettled : c.compute h.machine (.str path) = .ok settled)
    (hnone : settled.value.path? Config.ignorePath = none) (codes : List Value) :
    Ensures (extendIgnores n (.named (.str path)) codes) h (fun _ h' => h' = h)
      fun _ _ => False := by
  have hentry : ∀ e ∈ h.cache.entries, Cache.answers c.id (.named (.str path)) e = true →
      e.settled = settled := by
    intro e he hanswers
    rw [Cache.answers, Bool.and_eq_true, beq_iff_eq, decide_eq_true_iff] at hanswers
    have hcomputed := hh.settled n c hc e he hanswers.1
    rw [hanswers.2] at hcomputed
    exact Except.ok.inj (hcomputed.symm.trans hsettled)
  rw [extendIgnores, ensures_bind, ensures_config_iff, hc]
  refine ⟨fun c' hc' => ?_, fun hno => absurd hno (Option.some_ne_none c)⟩
  obtain rfl := Option.some_inj.1 hc'
  rw [ensures_bind, ensures_get]
  split
  · rfl
  · rename_i e he
    have he' := hentry e (List.mem_of_find?_eq_some he) (List.find?_some he)
    split
    · rename_i hclients
      rw [he'] at hclients
      obtain ⟨items, hitems⟩ := Config.exists_list_of_clientsIgnores hsettled hclients
      cases hnone.symm.trans hitems
    · rw [ensures_set]
      have hmap : (h.cache.entries.map fun e =>
          if Cache.answers c.id (.named (.str path)) e then { e with settled := { e.settled with
            value := e.settled.value.modifyAt (extend codes) Config.ignorePath } } else e) =
          h.cache.entries := by
        refine (List.map_congr_left fun e he => ?_).trans (List.map_id _)
        split
        · rename_i hanswers
          have hsame := hentry e he hanswers
          rw [Value.modifyAt_eq_self (by simp [hsame, hnone])]
          rfl
        · rfl
      rw [hmap]

/-- The host gives a value as the settings for a path, and holds it as the answer from then on. -/
def Gives (h : Host) (n : Nat) (path : String) (value : Value) : Prop :=
  ∀ plugin, Ensures (pluginSettings n plugin (.str path)) h
    (fun v h' => Config.ofPlugin value plugin = .ok v ∧ h'.Answers n path value)
    fun f _ => Config.ofPlugin value plugin = .error f

theorem gives_of_fetch {c : Config} (hc : h.configAt n = some c) {settled : Settled}
    (hfetch : ∃ e cache, h.cache.fetch c.id (.named (.str path)) (c.compute h.machine (.str path)) =
      (.ok settled, cache) ∧ cache.find? c.id (.named (.str path)) = some e ∧ e.settled = settled) :
    h.Gives n path settled.value := by
  intro plugin
  obtain ⟨e, cache, hfetch, he, hsettled⟩ := hfetch
  rw [pluginSettings, ensures_bind, ensures_config_iff, hc]
  refine ⟨fun c' hc' => ?_, fun hno => absurd hno (Option.some_ne_none c)⟩
  obtain rfl := Option.some_inj.1 hc'
  simp only [ensures_bind, ensures_get, ensures_onCache_iff, Config.pluginSettings, Config.settings,
    Config.ensures_settled, ensures_pure]
  refine ⟨fun _ => ?_, fun hhash => absurd hhash.symm Bool.false_ne_true⟩
  simp only [Query.path]
  rw [hfetch]
  have hanswers : ({ h with cache } : Host).Answers n path settled.value :=
    ⟨c, e, hc, he, by rw [hsettled]⟩
  dsimp only
  cases Config.ofPlugin settled.value plugin with
  | ok v => exact ⟨rfl, hanswers⟩
  | error f => rfl

theorem Answers.gives {value : Value} (ha : h.Answers n path value) : h.Gives n path value := by
  obtain ⟨c, e, hc, he, rfl⟩ := ha.found
  refine gives_of_fetch hc ⟨e, h.cache.put e, ?_, ?_, rfl⟩
  · unfold Cache.fetch
    rw [he]
  · obtain ⟨-, howner, hquery⟩ := Cache.find?_eq_some he
    rw [← howner, ← hquery]
    exact Cache.find?_put _ e

theorem Coherent.gives (hh : h.Coherent) {c : Config} (hc : h.configAt n = some c)
    {settled : Settled} (hsettled : c.compute h.machine (.str path) = .ok settled) :
    h.Gives n path settled.value := by
  cases he : h.cache.find? c.id (.named (.str path)) with
  | some e =>
    obtain ⟨hmem, howner, hquery⟩ := Cache.find?_eq_some he
    have hcomputed := hh.settled n c hc e hmem howner
    rw [hquery] at hcomputed
    obtain rfl : e.settled = settled := Except.ok.inj (hcomputed.symm.trans hsettled)
    exact Answers.gives ⟨c, e, hc, he, rfl⟩
  | none =>
    refine gives_of_fetch hc ⟨⟨c.id, .named (.str path), settled⟩,
      h.cache.put ⟨c.id, .named (.str path), settled⟩, ?_, Cache.find?_put _ _, rfl⟩
    unfold Cache.fetch
    rw [he, hsettled]

end Host

/-! ## The command line -/

namespace Lint.Flake8

open Host

variable {h h' : Host} {home : Nat} {path : String} {value : Value}

/-- The answer with further ignored codes. -/
def grown (codes : List Value) (value : Value) : Value :=
  value.modifyAt (extend codes) Config.ignorePath

theorem grown_nil (value : Value) : grown [] value = value :=
  Value.modifyAt_eq_self fun v _ => by cases v <;> simp [extend]

theorem grown_grown (xs ys : List Value) (value : Value) :
    grown ys (grown xs value) = grown (xs ++ ys) value := by
  rw [grown, grown, Value.modifyAt_modifyAt, extend_extend]
  rfl

/-- **The codes are those of the settings**, and the answer grows by the codes that are added. -/
theorem ensures_addFileIgnores (ha : h.Answers home path value) (ignores : Value)
    (entries : List Value) :
    Ensures (addFileIgnores home path ignores entries) h
      (fun v h' => addCodes path ignores entries = .ok v ∧
        ∃ codes, codesFor path entries = .ok codes ∧ h'.Answers home path (grown codes value))
      fun f _ => addCodes path ignores entries = .error f := by
  induction entries generalizing h ignores value with
  | nil => exact ⟨rfl, [], rfl, by rwa [grown_nil]⟩
  | cons entry rest ih =>
    rw [addFileIgnores, addCodes, codesFor_cons, ensures_bind, ensures_liftExcept]
    refine ⟨fun found hfound => ?_, fun f hf => by rw [hf]; rfl⟩
    rw [hfound]
    cases found with
    | none =>
      refine (ih ha ignores).mono ?_ fun f _ hf => hf
      rintro v h' ⟨hv, codes, hcodes, ha'⟩
      refine ⟨hv, codes, ?_, ha'⟩
      rw [hcodes]
      rfl
    | some codes =>
      cases ignores with
      | list items =>
        dsimp only
        refine (ensures_extendIgnores ha codes).bind ?_ fun _ _ hfalse => hfalse.elim
        intro _ h1 ha1
        refine (ih ha1 (.list (items ++ codes))).mono ?_ fun f _ hf => hf
        rintro v h' ⟨hv, more, hmore, ha'⟩
        refine ⟨hv, codes ++ more, ?_, ?_⟩
        · rw [hmore]
          rfl
        · rw [← grown_grown]
          exact ha'
      | _ => rfl

/-- Nothing changes where codes are not added, or adding them does nothing. -/
theorem ensures_addFileIgnores_quiet (ignores : Value) {entries : List Value}
    (hquiet : Applies path entries → ∀ items, ignores = .list items → ∀ codes,
      Ensures (extendIgnores home (.named (.str path)) codes) h (fun _ h' => h' = h)
        fun _ _ => False) :
    Ensures (addFileIgnores home path ignores entries) h (fun _ h' => h' = h)
      fun _ h' => h' = h := by
  induction entries generalizing ignores with
  | nil => rfl
  | cons entry rest ih =>
    rw [addFileIgnores, ensures_bind, ensures_liftExcept]
    refine ⟨fun found hfound => ?_, fun f _ => rfl⟩
    cases found with
    | none =>
      refine ih ignores ?_
      rintro ⟨e, he, hcodes⟩
      exact hquiet ⟨e, List.mem_cons_of_mem _ he, hcodes⟩
    | some codes =>
      cases ignores with
      | list items =>
        have hnothing := hquiet ⟨entry, List.mem_cons_self, codes, hfound⟩ items rfl
        dsimp only
        refine (hnothing codes).bind ?_ fun _ _ hfalse => hfalse.elim
        rintro _ _ rfl
        exact ih _ fun _ _ _ => hnothing
      | _ => rfl

theorem ensures_ignored (ha : h.Answers home path value) (settings : Value) :
    Ensures (ignored home path settings) h
      (fun v h' => ignoredCodes path settings = .ok v ∧ ∃ entries codes,
        entriesOf settings = .ok entries ∧ codesFor path entries = .ok codes ∧
        h'.Answers home path (grown codes value))
      fun f _ => ignoredCodes path settings = .error f := by
  simp only [ignored, ensures_bind, ensures_liftExcept]
  refine ⟨fun ignores hignores => ⟨fun given hgiven => ?_, fun f hf => ?_⟩, fun f hf => ?_⟩
  · rw [ignoredCodes, entriesOf, hignores, hgiven]
    cases htruthy : given.truthy with
    | true =>
      rw [if_pos rfl, ensures_bind, ensures_liftExcept]
      refine ⟨fun entries hentries => ?_, fun f hf => ?_⟩
      · refine (ensures_addFileIgnores ha ignores entries).mono ?_ ?_
        · rintro v h' ⟨hv, codes, hcodes, ha'⟩
          simp only [bind, Except.bind, htruthy, if_true, hentries]
          exact ⟨hv, entries, codes, rfl, hcodes, ha'⟩
        · intro f _ hf
          simp only [bind, Except.bind, htruthy, if_true, hentries]
          exact hf
      · simp only [bind, Except.bind, htruthy, if_true, hf]
    | false =>
      rw [if_neg Bool.false_ne_true, ensures_pure]
      simp only [bind, Except.bind, htruthy, Bool.false_eq_true, if_false, pure, Except.pure]
      exact ⟨rfl, [], [], rfl, rfl, by rwa [grown_nil]⟩
  · rw [ignoredCodes, entriesOf, hignores, hf]
    rfl
  · rw [ignoredCodes, hf]
    rfl

theorem ensures_ignored_quiet {settings : Value}
    (hquiet : ∀ items entries, settings.getD "ignore" (.list []) = .ok (.list items) →
      entriesOf settings = .ok entries → Applies path entries → ∀ codes,
        Ensures (extendIgnores home (.named (.str path)) codes) h (fun _ h' => h' = h)
          fun _ _ => False) :
    Ensures (ignored home path settings) h (fun _ h' => h' = h) fun _ h' => h' = h := by
  simp only [ignored, ensures_bind, ensures_liftExcept]
  refine ⟨fun ignores hignores => ⟨fun given hgiven => ?_, fun _ _ => trivial⟩, fun _ _ => trivial⟩
  cases htruthy : given.truthy with
  | true =>
    rw [if_pos rfl, ensures_bind, ensures_liftExcept]
    refine ⟨fun entries hentries => ensures_addFileIgnores_quiet ignores ?_, fun _ _ => rfl⟩
    rintro happlies items rfl
    refine hquiet items entries hignores ?_ happlies
    simp only [entriesOf, hgiven, bind, Except.bind, htruthy, if_true, hentries]
  | false => rfl

/-- The program and its arguments, for settings and a path. -/
def commandFor (path : String) (value : Value) : Except Fault (Value × List Value) := do
  let settings ← Config.ofPlugin value "flake8"
  commandLine settings (← ignoredCodes path settings)

/-- **What flake8 is started with is up to the settings**, which then hold the codes that were
added. -/
theorem ensures_prepare (hg : h.Gives home path value) :
    Ensures (prepare home path) h
      (fun x h' => commandFor path value = .ok x ∧ ∃ settings entries codes,
        Config.ofPlugin value "flake8" = .ok settings ∧ entriesOf settings = .ok entries ∧
        codesFor path entries = .ok codes ∧ h'.Answers home path (grown codes value))
      fun f _ => commandFor path value = .error f := by
  rw [prepare]
  refine (hg "flake8").bind ?_ fun f _ hf => by rw [commandFor, hf]; rfl
  rintro settings h1 ⟨hsettings, ha⟩
  refine (ensures_ignored ha settings).bind ?_ ?_
  · rintro ignores h' ⟨hignores, entries, codes, hentries, hcodes, ha'⟩
    rw [ensures_liftExcept]
    have hcommand : commandFor path value = commandLine settings ignores := by
      rw [commandFor, hsettings]
      show (do commandLine settings (← ignoredCodes path settings)) = _
      rw [hignores]
      rfl
    rw [hcommand]
    exact ⟨fun x hx => ⟨hx, settings, entries, codes, hsettings, hentries, hcodes, ha'⟩,
      fun f hf => hf⟩
  · intro f _ hf
    rw [commandFor, hsettings]
    show (do commandLine settings (← ignoredCodes path settings)) = _
    rw [hf]
    rfl

end Lint.Flake8
end LangServer
