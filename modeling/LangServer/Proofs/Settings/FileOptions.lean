import LangServer.Proofs.Settings.Destinations
import LangServer.Proofs.Settings.Precedence
import LangServer.Proofs.Settings.Sections

/-!
# From settings files to settings

What a settings file says about a list option is found in the settings again: the files of one kind
are read one after the other (`hasValue_of_readFiles`), the value of the option is read as a list
(`read_of_hasValue`) and put in its place (`valueAt_parse`), and the layer is merged with the others
(`Config.valueAt_of_only_layer`).
-/

namespace LangServer

namespace Settings

/-! ## Several files -/

/-- Reads one more file, if it is there. -/
def readNext (fs : Files) (ini : Ini) (path : String) : Except Fault Ini := do
  if fs.isFile path.toList && !fs.isDirectory path.toList then
    match ini.read path (← fs.read path) with
    | .ok ini => return ini
    | .error problem => throw (.badSettings problem)
  else return ini

theorem readFiles_eq (fs : Files) (paths : List String) :
    readFiles fs paths = paths.foldlM (readNext fs) {} := rfl

section

variable {fs : Files} {name key value file text : String} {ini ini' : Ini}

theorem read_of_readNext (h : readNext fs ini file = .ok ini')
    (hthere : (fs.isFile file.toList && !fs.isDirectory file.toList) = true) :
    ∃ text, fs.read file = .ok text ∧ ini.read file text = .ok ini' := by
  rw [readNext, if_pos hthere] at h
  obtain ⟨text, htext, h⟩ := exists_of_bind_eq_ok h
  refine ⟨text, htext, ?_⟩
  split at h
  · next hread => rw [hread, ← Except.ok.inj h]
  · cases h

theorem eq_of_readNext (h : readNext fs ini file = .ok ini')
    (hthere : ¬ (fs.isFile file.toList && !fs.isDirectory file.toList) = true) : ini' = ini := by
  rw [readNext, if_neg hthere] at h
  exact (Except.ok.inj h).symm

/-- **The last file that sets an option gives it its value.** -/
theorem hasValue_of_readFiles {earlier later : List String} (hname : name ≠ Ini.defaultName)
    (hkey : key ≠ "") (htrim : Text.trimEnd value.toList = value.toList)
    (hthere : (fs.isFile file.toList && !fs.isDirectory file.toList) = true)
    (htext : fs.read file = .ok text)
    (hset : ∀ ini ini' : Ini, ini.read file text = .ok ini' → ini'.HasValue name key value)
    (hlater : ∀ path ∈ later, ∀ text, fs.read path = .ok text →
      ∀ l ∈ Ini.fileLines text.toList, ¬ Ini.Sets key l)
    (h : readFiles fs (earlier ++ file :: later) = .ok ini) : ini.HasValue name key value := by
  rw [readFiles_eq, List.foldlM_append] at h
  obtain ⟨before, -, h⟩ := exists_of_bind_eq_ok h
  obtain ⟨here, hhere, h⟩ := exists_of_bind_eq_ok h
  obtain ⟨text', htext', hread⟩ := read_of_readNext hhere hthere
  obtain rfl := Except.ok.inj (htext.symm.trans htext')
  refine of_foldlM (P := fun ini => ini.HasValue name key value) ?_ (hset _ _ hread) h
  intro path hpath i i' hi hi'
  by_cases hthere' : (fs.isFile path.toList && !fs.isDirectory path.toList) = true
  · obtain ⟨text', htext', hread'⟩ := read_of_readNext hi' hthere'
    exact hi.of_read hname hkey htrim (hlater path hpath text' htext') hread'
  · rwa [eq_of_readNext hi' hthere']

end

/-! ## The layer of a kind of files -/

theorem read_of_hasValue {o : FileOption} (hkind : o.kind = .list) (style : ListStyle)
    {name value : String} {ini : Ini} (hname : name ≠ Ini.defaultName) (hne : name ≠ "")
    (h : ini.HasValue name (Ini.key o.name) value) :
    o.read style ini name =
      .ok (some (.list ((style.parse value.toList).map fun x => .str (String.ofList x)))) := by
  obtain ⟨hhas, hget⟩ := h.get hname hne
  rw [FileOption.read]
  simp only [List.find?_cons, hhas, hkind, hget]
  rfl

/-- **The option that is read last** has its value in the layer. -/
theorem valueAt_parse {style : ListStyle} {ini : Ini} {name : String} {options : List FileOption}
    {o : FileOption} {v layer : Value} (hread : o.read style ini name = .ok (some v))
    (hv : v.isNull = false) (h : parse style ini name (options ++ [o]) = .ok layer) :
    valueAt ((Text.splitOn '.' o.destination.toList).map String.ofList) layer = some v := by
  rw [parse, List.foldlM_append] at h
  obtain ⟨before, -, h⟩ := exists_of_bind_eq_ok h
  obtain ⟨after, hafter, h⟩ := exists_of_bind_eq_ok h
  obtain rfl := Except.ok.inj h
  obtain ⟨v', hv', hafter⟩ := exists_of_bind_eq_ok hafter
  obtain rfl := Except.ok.inj (hread.symm.trans hv')
  dsimp only at hafter
  rw [setOption, hv, if_neg Bool.false_ne_true] at hafter
  have hpath : (Text.splitOn '.' o.destination.toList).map String.ofList ≠ [] :=
    List.map_eq_nil_iff.not.2 (Text.splitOn_ne_nil _ _)
  have hset := (isSet_of_setAt hpath hafter).at_path []
  rw [List.append_nil] at hset
  simp [valueAt, hset, Value.path?, hv]

/-! ## Silent layers -/

section

variable {p : List String} {layers : List Value} {acc v : Value}

theorem valueAt_foldlM_silent (hlayers : ∀ layer ∈ layers, InOrder layer)
    (hsilent : ∀ layer ∈ layers, wordOf p layer = .silent) (h : layers.foldlM merge acc = .ok v) :
    valueAt p v = valueAt p acc := by
  have hscalar : ∀ layer ∈ layers, isScalarIn p layer = true := by
    intro layer hlayer
    rw [isScalarIn, hsilent layer hlayer]
  rw [valueAt_foldlM hlayers hscalar h]
  clear h hscalar hlayers
  induction layers with
  | nil => rfl
  | cons layer layers ih =>
    obtain ⟨hlayer, hsilent⟩ := List.forall_mem_cons.1 hsilent
    rw [List.foldl_cons, hlayer]
    exact ih hsilent

end

/-- Where the settings have the codes to ignore in single files. -/
def fileIgnoresPath : List String := ["plugins", "flake8", "perFileIgnores"]

theorem valueAt_defaults {plugins : List Plugin} {v : Value} (h : Plugin.defaults plugins = .ok v) :
    valueAt fileIgnoresPath v = none := by
  have hsilent : ∀ layer ∈ plugins.reverse.filterMap Plugin.defaults?,
      wordOf fileIgnoresPath layer = .silent := by
    intro layer hlayer
    obtain ⟨p, -, hp⟩ := List.mem_filterMap.1 hlayer
    cases p <;> cases hp <;> rfl
  have hinOrder : ∀ layer ∈ plugins.reverse.filterMap Plugin.defaults?, InOrder layer := by
    intro layer hlayer
    obtain ⟨p, -, hp⟩ := List.mem_filterMap.1 hlayer
    exact inOrder_default hp
  rw [valueAt_foldlM_silent hinOrder hsilent h]
  rfl

end Settings

namespace Config

open Settings

/-- **Where one layer alone speaks of an option**, the settings have the option from it. -/
theorem valueAt_of_only_layer {m : Machine} {c : Config} {path : Value}
    {projects users above below : List Value} {layer : Value} {key : String} {p : List String}
    (hreads : c.Reads m path projects users) (hlayers : projects ++ users = above ++ layer :: below)
    (hsilent : ∀ other ∈ above ++ below, wordOf (key :: p) other = .silent)
    (hkeyed : everywhere keyed c.client = true) (hclient : wordOf (key :: p) c.client = .silent)
    (hinOrder : InOrder c.defaults) (hdefaults : valueAt (key :: p) c.defaults = none)
    {settled : Settled} (hcompute : c.compute m path = .ok settled) :
    valueAt (key :: p) settled.value = valueAt (key :: p) layer := by
  obtain ⟨projects', users', base, base', hreads', hbase, hbase', hv⟩ :=
    exists_compute_iff.1 ⟨settled, hcompute, rfl⟩
  obtain ⟨rfl, rfl⟩ := hreads.unique hreads'
  have hbelow : valueAt (key :: p) base = none := by
    rw [valueAt_overlay (merge_eq_ok hbase).1 hinOrder.keyed fun x y hx _ => by cases hx]
    exact (over_wordOf_none _ _).trans hdefaults
  have hbelow' : valueAt (key :: p) base' = none := by
    rw [valueAt_overlay (merge_eq_ok hbase').1 (throughout_of_everywhere hkeyed) ?_, hclient]
    · exact hbelow
    · intro x y _ hy
      rw [hclient] at hy
      cases hy
  rw [← List.reverse_append, hlayers, List.reverse_append, List.reverse_cons, List.append_assoc,
    List.foldlM_append] at hv
  obtain ⟨under, hunder, hv⟩ := exists_of_bind_eq_ok hv
  obtain ⟨laid, hlaid, hv⟩ := exists_of_bind_eq_ok hv
  have hmem : ∀ other ∈ above ++ layer :: below, InOrder other := hlayers ▸ hreads.inOrder
  have hunder' : valueAt (key :: p) under = none := by
    rw [valueAt_foldlM_silent (fun other h => hmem other (by simp_all))
      (fun other h => hsilent other (by simp_all)) hunder]
    exact hbelow'
  rw [valueAt_foldlM_silent (fun other h => hmem other (by simp_all))
      (fun other h => hsilent other (by simp_all)) hv,
    valueAt_overlay (merge_eq_ok hlaid).1 (hmem layer (by simp)).keyed ?_, hunder',
    over_wordOf_none]
  intro x y hx _
  rw [← valueAt_eq_some_iff, hunder'] at hx
  cases hx

end Config
end LangServer
