import LangServer.Proofs.Settings.Layers
import LangServer.Proofs.Settings.Cached

/-!
# Whose value an option has

The settings for a path are the defaults of the plugins under what the client sent, under the user's
files, under the files of the project; among files of one level, those of the kind that is named
first lie uppermost (`Config.Reads`, `Config.valueAt_compute`).

So the client comes before the user's files just if they agree. The main theorem compares the order
in which layers are laid with the order in which the client comes second, right after the project's
files: option by option the two give the same value, unless the option is `Overruled`.
-/

namespace LangServer

open Settings

namespace Settings

/-! ## Orders of layers -/

/-- The value of an option under layers that lie one over the other, the uppermost first. -/
def inForce (p : List String) (layers : List Value) : Option Value :=
  layers.foldr (fun layer below => (wordOf p layer).over below) none

/-- The value that the first of some layers gives, if any of them does. -/
def firstGiven (p : List String) (layers : List Value) : Option Value :=
  layers.findSome? (valueAt p)

/-- Does the layer have a single value for the option, or say nothing about it? -/
def isScalarIn (p : List String) (layer : Value) : Bool :=
  match wordOf p layer with
  | .silent => true
  | .blocked => false
  | .gives v => v.isHashable

/-- No file of the project gives the option. The user's files give it another value than the
client does, or nobody gives it but the plugins and the client blocks it. -/
def Overruled (p : List String) (projects users : List Value) (client defaults : Value) : Prop :=
  firstGiven p projects = none ∧
    ((∃ w u, valueAt p client = some w ∧ firstGiven p users = some u ∧ u ≠ w) ∨
      wordOf p client = .blocked ∧ firstGiven p users = none ∧
        (valueAt p defaults).isSome = true)

section

variable {p : List String} {layer client defaults : Value} {layers projects users : List Value}

theorem isHashable_of_scalar (h : isScalarIn p layer = true) {v : Value}
    (hv : wordOf p layer = .gives v) : v.isHashable = true := by
  rwa [isScalarIn, hv] at h

theorem over_of_scalar (h : isScalarIn p layer = true) (below : Option Value) :
    (wordOf p layer).over below = (valueAt p layer).or below := by
  rw [← over_wordOf_none]
  rw [isScalarIn] at h
  cases hword : wordOf p layer with
  | silent => rfl
  | blocked =>
    rw [hword] at h
    cases h
  | gives v => rfl

theorem foldr_over_of_scalar (h : ∀ layer ∈ layers, isScalarIn p layer = true)
    (below : Option Value) :
    layers.foldr (fun layer below => (wordOf p layer).over below) below =
      (firstGiven p layers).or below := by
  induction layers with
  | nil => rfl
  | cons layer layers ih =>
    rw [List.forall_mem_cons] at h
    rw [List.foldr_cons, ih h.2, over_of_scalar h.1, firstGiven, firstGiven, List.findSome?_cons]
    cases valueAt p layer <;> rfl

theorem firstGiven_append (p : List String) (layers layers' : List Value) :
    firstGiven p (layers ++ layers') = (firstGiven p layers).or (firstGiven p layers') :=
  List.findSome?_append

theorem firstGiven_cons (p : List String) (layer : Value) (layers : List Value) :
    firstGiven p (layer :: layers) = (valueAt p layer).or (firstGiven p layers) := by
  rw [firstGiven, List.findSome?_cons, firstGiven]
  cases valueAt p layer <;> rfl

theorem inForce_append_pair (p : List String) (layers : List Value) (client defaults : Value) :
    inForce p (layers ++ [client, defaults]) =
      layers.foldr (fun layer below => (wordOf p layer).over below)
        ((wordOf p client).over (valueAt p defaults)) := by
  rw [inForce, List.foldr_append]
  simp only [List.foldr_cons, List.foldr_nil, over_wordOf_none]

/-- **The two orders differ in overruled options only.** -/
theorem inForce_eq_firstGiven_iff
    (h : ∀ layer ∈ defaults :: (projects ++ users), isScalarIn p layer = true) :
    inForce p (projects ++ users ++ [client, defaults]) =
        firstGiven p (projects ++ client :: users ++ [defaults]) ↔
      ¬ Overruled p projects users client defaults := by
  rw [List.forall_mem_cons] at h
  have hinForce : inForce p (projects ++ users ++ [client, defaults]) =
      ((firstGiven p projects).or (firstGiven p users)).or
        ((wordOf p client).over (valueAt p defaults)) := by
    rw [inForce_append_pair, foldr_over_of_scalar h.2, firstGiven_append]
  have hfirst : firstGiven p (projects ++ client :: users ++ [defaults]) =
      (firstGiven p projects).or
        ((valueAt p client).or ((firstGiven p users).or (valueAt p defaults))) := by
    rw [firstGiven_append, firstGiven_append, firstGiven_cons, Option.or_assoc, Option.or_assoc,
      firstGiven_cons]
    rw [show firstGiven p [] = none from rfl, Option.or_none]
  rw [hinForce, hfirst, Overruled, ← over_wordOf_none p client]
  cases firstGiven p projects with
  | some v => simp
  | none =>
    cases wordOf p client with
    | silent => cases firstGiven p users <;> simp [Word.over]
    | blocked => cases firstGiven p users <;> cases valueAt p defaults <;> simp [Word.over]
    | gives w => cases firstGiven p users <;> simp [Word.over]

theorem valueAt_foldlM {acc v : Value} (hkeyed : ∀ layer ∈ layers, InOrder layer)
    (hscalar : ∀ layer ∈ layers, isScalarIn p layer = true) (h : layers.foldlM merge acc = .ok v) :
    valueAt p v =
      layers.foldl (fun below layer => (wordOf p layer).over below) (valueAt p acc) := by
  induction layers generalizing acc with
  | nil => exact congrArg _ (Except.ok.inj h).symm
  | cons layer layers ih =>
    rw [List.forall_mem_cons] at hkeyed hscalar
    rw [List.foldlM_cons] at h
    obtain ⟨acc', hacc', h⟩ := exists_of_bind_eq_ok h
    rw [ih hkeyed.2 hscalar.2 h, List.foldl_cons,
      valueAt_overlay (merge_eq_ok hacc').1 hkeyed.1.keyed
        fun _ _ _ hy => .inr (isHashable_of_scalar hscalar.1 hy)]

theorem exists_foldlM_merge {acc : Value} (hlayers : ∀ layer ∈ layers, InOrder layer)
    (hacc : InOrder acc) : ∃ v, layers.foldlM merge acc = .ok v := by
  induction layers generalizing acc with
  | nil => exact ⟨acc, rfl⟩
  | cons layer layers ih =>
    rw [List.forall_mem_cons] at hlayers
    obtain ⟨acc', hmerge, hacc'⟩ := hacc.exists_merge hlayers.1
    obtain ⟨v, hv⟩ := ih hlayers.2 hacc'
    exact ⟨v, by rw [List.foldlM_cons, hmerge]; exact hv⟩

theorem foldlM_layers_iff {layers : List (Except Fault Value)} {acc v : Value} :
    layers.foldlM (fun settings layer => do merge settings (← layer)) acc = .ok v ↔
      ∃ vs : List Value, layers = vs.map .ok ∧ vs.foldlM merge acc = .ok v := by
  constructor
  · intro h
    induction layers generalizing acc with
    | nil => exact ⟨[], rfl, h⟩
    | cons layer layers ih =>
      rw [List.foldlM_cons] at h
      obtain ⟨acc', hacc', hrest⟩ := exists_of_bind_eq_ok h
      obtain ⟨w, rfl, hmerge⟩ := exists_of_bind_eq_ok hacc'
      obtain ⟨vs, rfl, hvs⟩ := ih hrest
      exact ⟨w :: vs, rfl, by rw [List.foldlM_cons, hmerge]; exact hvs⟩
  · rintro ⟨vs, rfl, h⟩
    rw [List.foldlM_map]
    exact h

end
end Settings

/-! ## The layers of a configuration -/

namespace Config

variable {m : Machine} {c : Config} {path : Value} {projects users : List Value}

/-- The layers that are read from files for a path, in the order in which the client names their
kinds: those of the project, and those of the user. -/
def Reads (m : Machine) (c : Config) (path : Value) (projects users : List Value) : Prop :=
  ∃ names, (do (← c.client.getD "configurationSources" defaultSources).elements) = .ok names ∧
    names.map (layer m fun s => s.user m) = users.map .ok ∧
    names.map (layer m (c.project m path)) = projects.map .ok

theorem inOrder_settings {s : Source} {fs : Files} {paths : List String} {v : Value}
    (h : s.settings fs paths = .ok v) : InOrder v := by
  obtain ⟨ini, -, h⟩ := exists_of_bind_eq_ok h
  exact inOrder_parse h

section

variable {P : Value → Prop}

theorem of_project (hsettings : ∀ (s : Source) fs paths v, s.settings fs paths = .ok v → P v)
    {s : Source} {v : Value} (h : c.project m path s = .ok v) : P v := by
  rw [project] at h
  split at h
  · exact hsettings _ _ _ v h
  · obtain ⟨_, -, h⟩ := exists_of_bind_eq_ok h
    obtain ⟨_, -, h⟩ := exists_of_bind_eq_ok h
    exact hsettings _ _ _ v h

theorem of_layer (hempty : P (.object [])) {read : Source → Except Fault Value}
    (hread : ∀ s v, read s = .ok v → P v) {name v : Value}
    (h : layer m read name = .ok v) : P v := by
  unfold layer at h
  split at h
  · split at h
    · exact hread _ v h
    · exact Except.ok.inj h ▸ hempty
  · split at h
    · exact Except.ok.inj h ▸ hempty
    · cases h

theorem Reads.forall_layer (hempty : P (.object []))
    (hsettings : ∀ (s : Source) fs paths v, s.settings fs paths = .ok v → P v)
    (h : c.Reads m path projects users) : ∀ layer ∈ projects ++ users, P layer := by
  obtain ⟨names, -, husers, hprojects⟩ := h
  have hread : ∀ {read : Source → Except Fault Value} {layers : List Value},
      (∀ s v, read s = .ok v → P v) → names.map (layer m read) = layers.map .ok →
      ∀ layer ∈ layers, P layer := by
    intro read layers hread heq layer hlayer
    have hmem : (.ok layer : Except Fault Value) ∈ names.map (Config.layer m read) := by
      rw [heq]
      exact List.mem_map_of_mem hlayer
    obtain ⟨name, -, hname⟩ := List.mem_map.1 hmem
    exact of_layer hempty hread hname
  intro layer hlayer
  rcases List.mem_append.1 hlayer with hlayer | hlayer
  · exact hread (fun s v hv => of_project hsettings hv) hprojects layer hlayer
  · exact hread (fun s v hv => hsettings _ _ _ v hv) husers layer hlayer

end

theorem Reads.inOrder (h : c.Reads m path projects users) :
    ∀ layer ∈ projects ++ users, InOrder layer :=
  h.forall_layer inOrder_empty fun _ _ _ _ => inOrder_settings

theorem Reads.unique {projects' users' : List Value} (h : c.Reads m path projects users)
    (h' : c.Reads m path projects' users') : projects = projects' ∧ users = users' := by
  obtain ⟨names, hnames, husers, hprojects⟩ := h
  obtain ⟨names', hnames', husers', hprojects'⟩ := h'
  obtain rfl := Except.ok.inj (hnames.symm.trans hnames')
  have hinj : ∀ {xs ys : List Value},
      xs.map (Except.ok : Value → Except Fault Value) = ys.map .ok → xs = ys :=
    fun h => (List.map_inj_right fun _ _ => Except.ok.inj).1 h
  exact ⟨hinj (hprojects.symm.trans hprojects'), hinj (husers.symm.trans husers')⟩

/-- **How settings are computed**: the files are read, and the layers merged. -/
theorem exists_compute_iff {v : Value} :
    (∃ settled, c.compute m path = .ok settled ∧ settled.value = v) ↔
      ∃ projects users base base', c.Reads m path projects users ∧
        merge (.object []) c.defaults = .ok base ∧ merge base c.client = .ok base' ∧
        (users.reverse ++ projects.reverse).foldlM merge base' = .ok v := by
  constructor
  · rintro ⟨settled, hcompute, rfl⟩
    rw [compute] at hcompute
    obtain ⟨_, -, hcompute⟩ := exists_of_bind_eq_ok hcompute
    obtain ⟨base, hbase, hcompute⟩ := exists_of_bind_eq_ok hcompute
    obtain ⟨base', hbase', hcompute⟩ := exists_of_bind_eq_ok hcompute
    obtain ⟨layers, hlayers, hcompute⟩ := exists_of_bind_eq_ok hcompute
    obtain ⟨value, hvalue, hcompute⟩ := exists_of_bind_eq_ok hcompute
    obtain rfl := Except.ok.inj hcompute
    obtain ⟨sources, hsources, hlayers⟩ := exists_of_bind_eq_ok hlayers
    obtain ⟨names, hnames, hlayers⟩ := exists_of_bind_eq_ok hlayers
    obtain rfl := Except.ok.inj hlayers
    obtain ⟨vs, hvs, hvalue⟩ := foldlM_layers_iff.1 hvalue
    obtain ⟨us, ps, rfl, hus, hps⟩ := List.append_eq_map_iff.1 hvs
    refine ⟨ps.reverse, us.reverse, base, base', ⟨names, ?_, ?_, ?_⟩, hbase, hbase', ?_⟩
    · rw [hsources]
      exact hnames
    · rw [List.map_reverse, hus, List.map_reverse, List.reverse_reverse]
    · rw [List.map_reverse, hps, List.map_reverse, List.reverse_reverse]
    · rw [List.reverse_reverse, List.reverse_reverse]
      exact hvalue
  · rintro ⟨projects, users, base, base', ⟨names, hnames, husers, hprojects⟩, hbase, hbase', hv⟩
    obtain ⟨sources, hsources, hnames⟩ := exists_of_bind_eq_ok hnames
    obtain ⟨source?, hsource, -⟩ := exists_of_bind_eq_ok hsources
    have hvalue := foldlM_layers_iff.2 ⟨_, rfl, hv⟩
    rw [List.map_append, List.map_reverse, List.map_reverse, ← husers, ← hprojects,
      ← List.map_reverse, ← List.map_reverse] at hvalue
    have hlayers : c.fileLayers m path = .ok (names.reverse.map (layer m fun s => s.user m) ++
        names.reverse.map (layer m (c.project m path))) := by
      rw [fileLayers, hsources]
      show (do let all ← sources.elements; _) = _
      rw [hnames]
      rfl
    simp only [compute, hsource, hbase, hbase', hlayers, hvalue, ok_bind]
    exact ⟨_, rfl, rfl⟩

theorem settings_empty_iff {query : Query} {v : Value} :
    (∃ cache, c.settings m query {} = .ok v cache) ↔ query.path.isHashable = true ∧
      ∃ settled, c.compute m query.path = .ok settled ∧ settled.value = v := by
  have hrun : Ensures (c.settings m query) {}
      (fun v _ => query.path.isHashable = true ∧
        ∃ settled, c.compute m query.path = .ok settled ∧ settled.value = v)
      fun _ _ => query.path.isHashable = true → ∀ settled,
        c.compute m query.path ≠ .ok settled := by
    simp only [settings, ensures_bind, ensures_settled, ensures_pure]
    refine ⟨fun hpath => ?_, fun hpath h => ?_⟩
    · cases hcompute : c.compute m query.path with
      | ok settled => exact ⟨hpath, settled, rfl, rfl⟩
      | error f =>
        intro _ settled h
        cases h
    · cases hpath.symm.trans h
  constructor
  · rintro ⟨cache, hok⟩
    exact hrun.ok hok
  · rintro ⟨hpath, settled, hcompute, rfl⟩
    cases hdone : c.settings m query {} with
    | ok v cache =>
      obtain ⟨-, settled', hcompute', rfl⟩ := hrun.ok hdone
      obtain rfl := Except.ok.inj (hcompute.symm.trans hcompute')
      exact ⟨cache, rfl⟩
    | error f cache => exact absurd hcompute (hrun.error hdone hpath settled)

/-- **Each option has the value of the uppermost layer that is not silent.** -/
theorem valueAt_compute (hdefaults : Plugin.defaults m.loaded = .ok c.defaults)
    (hclient : everywhere keyed c.client = true) {settled : Settled}
    (hcompute : c.compute m path = .ok settled) :
    ∃ projects users, c.Reads m path projects users ∧
      ∀ p, (∀ layer ∈ c.defaults :: (projects ++ users), isScalarIn p layer = true) →
        valueAt p settled.value = inForce p (projects ++ users ++ [c.client, c.defaults]) := by
  obtain ⟨projects, users, base, base', hreads, hbase, hbase', hv⟩ :=
    exists_compute_iff.1 ⟨settled, hcompute, rfl⟩
  refine ⟨projects, users, hreads, fun p hscalar => ?_⟩
  rw [List.forall_mem_cons] at hscalar
  have hmem : ∀ {layer}, layer ∈ users.reverse ++ projects.reverse → layer ∈ projects ++ users := by
    intro layer hlayer
    simpa [or_comm] using hlayer
  have hfiles := valueAt_foldlM (fun layer h => hreads.inOrder layer (hmem h))
    (fun layer h => hscalar.2 layer (hmem h)) hv
  have hunder : valueAt p base = valueAt p c.defaults := by
    rw [valueAt_overlay (merge_eq_ok hbase).1 (inOrder_defaults hdefaults).keyed
      fun _ _ _ hy => .inr (isHashable_of_scalar hscalar.1 hy)]
    cases p with
    | nil =>
      -- the settings as a whole are an object
      obtain ⟨members, hobject⟩ := (inOrder_defaults hdefaults).isObject
      rw [hobject] at hscalar
      cases hscalar.1
    | cons key p => exact over_wordOf_none (key :: p) c.defaults
  have hover : valueAt p base' = (wordOf p c.client).over (valueAt p c.defaults) := by
    rw [← hunder]
    refine valueAt_overlay (merge_eq_ok hbase').1 (throughout_of_everywhere hclient) ?_
    intro x y hx _
    rw [← valueAt_eq_some_iff, hunder, valueAt_eq_some_iff] at hx
    exact .inl (isHashable_of_scalar hscalar.1 hx)
  rw [hfiles, hover, ← List.reverse_append, List.foldl_reverse, inForce_append_pair]

theorem exists_compute_of_inOrder (hdefaults : Plugin.defaults m.loaded = .ok c.defaults)
    (hclient : InOrder c.client) (hreads : c.Reads m path projects users) :
    ∃ settled, c.compute m path = .ok settled := by
  obtain ⟨base, hbase, hbase_inOrder⟩ := inOrder_empty.exists_merge (inOrder_defaults hdefaults)
  obtain ⟨base', hbase', hbase'_inOrder⟩ := hbase_inOrder.exists_merge hclient
  have hlayers : ∀ layer ∈ users.reverse ++ projects.reverse, InOrder layer := by
    intro layer hlayer
    exact hreads.inOrder layer (by simpa [or_comm] using hlayer)
  obtain ⟨v, hv⟩ := exists_foldlM_merge hlayers hbase'_inOrder
  obtain ⟨settled, hsettled, -⟩ :=
    exists_compute_iff.2 ⟨projects, users, base, base', hreads, hbase, hbase', hv⟩
  exact ⟨settled, hsettled⟩

theorem exists_compute (hdefaults : Plugin.defaults m.loaded = .ok c.defaults)
    (hkeyed : everywhere keyed c.client = true) (hflat : everywhere flat c.client = true)
    (hreads : c.Reads m path projects users) : ∃ settled, c.compute m path = .ok settled := by
  refine exists_compute_of_inOrder hdefaults
    ⟨?_, throughout_of_everywhere hkeyed, throughout_of_everywhere hflat⟩ hreads
  obtain ⟨names, hnames, -⟩ := hreads
  obtain ⟨_, hsources, -⟩ := exists_of_bind_eq_ok hnames
  obtain ⟨_, hsource, -⟩ := exists_of_bind_eq_ok hsources
  cases hclient : c.client with
  | object members => exact ⟨members, rfl⟩
  | _ =>
    rw [hclient] at hsource
    cases hsource

/-- **The user's files come before the client's settings.** When the files can be read and the
client's lists can be merged, there are settings. The layers of any settings are the files of the
project in the order in which their kinds are named, the user's files in that order, the client's
settings and the defaults, and an option with a single value has the value of the first of these
that is not silent. Were the client to come second, before the user's files, the option would have
the same value just if it is not overruled. -/
theorem client_second_iff_not_overruled
    (hdefaults : Plugin.defaults m.loaded = .ok c.defaults)
    (hclient : everywhere keyed c.client = true) (query : Query) :
    ((∃ projects users, c.Reads m query.path projects users) → everywhere flat c.client = true →
      query.path.isHashable = true → ∃ v cache, c.settings m query {} = .ok v cache) ∧
    ∀ v cache, c.settings m query {} = .ok v cache →
      ∃ projects users, c.Reads m query.path projects users ∧
        ∀ p, (∀ layer ∈ c.defaults :: (projects ++ users), isScalarIn p layer = true) →
          valueAt p v = inForce p (projects ++ users ++ [c.client, c.defaults]) ∧
          (valueAt p v = firstGiven p (projects ++ c.client :: users ++ [c.defaults]) ↔
            ¬ Overruled p projects users c.client c.defaults) := by
  constructor
  · rintro ⟨projects, users, hreads⟩ hflat hpath
    obtain ⟨settled, hsettled⟩ := exists_compute hdefaults hclient hflat hreads
    obtain ⟨cache, hcache⟩ := settings_empty_iff.2 ⟨hpath, settled, hsettled, rfl⟩
    exact ⟨settled.value, cache, hcache⟩
  · intro v cache hv
    obtain ⟨-, settled, hsettled, rfl⟩ := settings_empty_iff.1 ⟨cache, hv⟩
    obtain ⟨projects, users, hreads, hvalue⟩ := valueAt_compute hdefaults hclient hsettled
    refine ⟨projects, users, hreads, fun p hscalar => ⟨hvalue p hscalar, ?_⟩⟩
    rw [hvalue p hscalar]
    exact inForce_eq_firstGiven_iff hscalar

/-- A machine on which the user has set a length of lines. -/
def shortLines : Machine where
  files := ⟨[("/home/user/.config/pycodestyle", "[pycodestyle]\nmax-line-length = 80\n")]⟩

/-- The settings of a client with another length of lines. -/
def longLines : Config where
  id := 0
  rootUri := "file:///w"
  rootPath := "/w"
  defaults := ((Plugin.defaults shortLines.loaded).toOption).getD .null
  client := Plugin.inSection "pycodestyle" [("maxLineLength", .int 100)]

/-- The client's length of lines is overruled by the user's. -/
theorem user_overrules_client :
    let p := ["plugins", "pycodestyle", "maxLineLength"]
    Plugin.defaults shortLines.loaded = .ok longLines.defaults ∧
    everywhere keyed longLines.client = true ∧ everywhere flat longLines.client = true ∧
    ∃ v cache, longLines.settings shortLines .plain {} = .ok v cache ∧
      valueAt p longLines.client = some (.int 100) ∧ valueAt p v = some (.int 80) ∧
      ∃ projects users, longLines.Reads shortLines .null projects users ∧
        valueAt p v ≠
          firstGiven p (projects ++ longLines.client :: users ++ [longLines.defaults]) := by
  intro p
  have hdefaults : Plugin.defaults shortLines.loaded = .ok longLines.defaults :=
    eq_ok_of_toOption (by decide +kernel)
  have hreads : longLines.Reads shortLines .null [.object []]
      [Plugin.inSection "pycodestyle" [("maxLineLength", .int 80)]] := by
    refine ⟨[.str "pycodestyle"], rfl, ?_, ?_⟩
    · exact congrArg (fun layer => [layer]) (eq_ok_of_toOption (by decide +kernel))
    · exact congrArg (fun layer => [layer]) (eq_ok_of_toOption (by decide +kernel))
  obtain ⟨hexists, hoptions⟩ := client_second_iff_not_overruled hdefaults rfl .plain
  obtain ⟨v, cache, hv⟩ := hexists ⟨_, _, hreads⟩ rfl rfl
  obtain ⟨projects, users, hreads', hoptions⟩ := hoptions v cache hv
  obtain ⟨rfl, rfl⟩ := hreads.unique hreads'
  obtain ⟨hvalue, hsame⟩ := hoptions p (by decide +kernel)
  refine ⟨hdefaults, rfl, rfl, v, cache, hv, rfl, ?_, _, _, hreads, ?_⟩
  · rw [hvalue]
    decide +kernel
  · rw [Ne, hsame, Classical.not_not]
    exact ⟨rfl, Or.inl ⟨.int 100, .int 80, rfl, rfl, by decide⟩⟩

end Config
end LangServer
