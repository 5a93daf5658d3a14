import LangServer.Proofs.Linting.ClientSettings
import LangServer.Proofs.Settings.Destinations
import LangServer.Proofs.Settings.Precedence

/-!
# Which plugins are switched off

The list of the plugins that are switched off is made when the client's settings are taken over, out
of settings that have the files in them, and no later change of a file makes it anew. That it stays
right is a matter of paths: no option of a file leads to the switch of a plugin or to something that
would have to be an object on the way there (`Settings.leavesSwitches_options`), so the layers of
files leave the switches as they are (`Settings.switches_foldlM`), and so do the two changes that
are made in place to what the client sent (`Config.descends_modifyAt`).

A history of such changes keeps the switches (`Host.drifts_foldl`), and the list with them
(`Host.disabled_never_outdated`).
-/

namespace LangServer

open Settings Value

namespace Settings

/-! ## Along a path -/

/-- The values have the same at the end of a path. Whatever is on the way to it is an object, and
the path leads equally far in both. -/
def SameAlong : List String → Value → Value → Prop
  | [], v, w => v = w
  | key :: rest, v, w => ∃ vs ws, v = .object vs ∧ w = .object ws ∧
      (lookup key vs = none ∧ lookup key ws = none ∨
        ∃ x y, lookup key vs = some x ∧ lookup key ws = some y ∧ SameAlong rest x y)

/-- Whatever is on the way to the end of the path is an object. -/
def OpenAlong (p : List String) (v : Value) : Prop := SameAlong p v v

/-- The paths part, so that neither leads on from the other. -/
def Part : List String → List String → Prop
  | key :: p, key' :: q => key ≠ key' ∨ Part p q
  | _, _ => False

section

variable {p q : List String} {key : String} {a a' b b' m m' u v w w' : Value}
  {members : List (String × Value)}

namespace SameAlong

theorem path?_eq (h : SameAlong p v w) : v.path? p = w.path? p := by
  induction p generalizing v w with
  | nil => exact congrArg some h
  | cons key p ih =>
    obtain ⟨vs, ws, rfl, rfl, ⟨hv, hw⟩ | ⟨x, y, hv, hw, hrest⟩⟩ := h
    · rw [path?, path?, hv, hw]
    · rw [path?, path?, hv, hw]
      exact ih hrest

theorem symm (h : SameAlong p v w) : SameAlong p w v := by
  induction p generalizing v w with
  | nil => exact Eq.symm h
  | cons key p ih =>
    obtain ⟨vs, ws, rfl, rfl, ⟨hv, hw⟩ | ⟨x, y, hv, hw, hrest⟩⟩ := h
    · exact ⟨ws, vs, rfl, rfl, .inl ⟨hw, hv⟩⟩
    · exact ⟨ws, vs, rfl, rfl, .inr ⟨y, x, hw, hv, ih hrest⟩⟩

theorem trans (h : SameAlong p u v) (h' : SameAlong p v w) : SameAlong p u w := by
  induction p generalizing u v w with
  | nil => exact Eq.trans h h'
  | cons key p ih =>
    obtain ⟨us, vs, rfl, rfl, hfirst⟩ := h
    obtain ⟨_, ws, heq, rfl, hsecond⟩ := h'
    obtain rfl := Value.object.inj heq
    refine ⟨us, ws, rfl, rfl, ?_⟩
    rcases hfirst with ⟨hu, hv⟩ | ⟨x, y, hu, hv, hfirst⟩ <;>
      rcases hsecond with ⟨hv', hw⟩ | ⟨y', z, hv', hw, hsecond⟩
    · exact .inl ⟨hu, hw⟩
    · cases hv.symm.trans hv'
    · cases hv.symm.trans hv'
    · obtain rfl := Option.some_inj.1 (hv.symm.trans hv')
      exact .inr ⟨x, z, hu, hw, ih hfirst hsecond⟩

theorem left (h : SameAlong p v w) : OpenAlong p v := h.trans h.symm

theorem right (h : SameAlong p v w) : OpenAlong p w := h.symm.trans h

end SameAlong

theorem openAlong_empty (key : String) (p : List String) : OpenAlong (key :: p) (.object []) :=
  ⟨[], [], rfl, rfl, .inl ⟨rfl, rfl⟩⟩

theorem SameAlong.object {vs ws : List (String × Value)} {x y : Value} (hx : lookup key vs = some x)
    (hy : lookup key ws = some y) (h : SameAlong p x y) :
    SameAlong (key :: p) (.object vs) (.object ws) :=
  ⟨vs, ws, rfl, rfl, .inr ⟨x, y, hx, hy, h⟩⟩

theorem OpenAlong.member (h : OpenAlong (key :: p) (.object members))
    (hv : lookup key members = some v) : OpenAlong p v := by
  obtain ⟨_, _, heq, heq', ⟨hnone, -⟩ | ⟨x, y, hx, hy, hrest⟩⟩ := h
  · obtain rfl := Value.object.inj heq
    cases hnone.symm.trans hv
  · obtain rfl := Value.object.inj heq
    obtain rfl := Value.object.inj heq'
    obtain rfl := Option.some_inj.1 (hx.symm.trans hv)
    obtain rfl := Option.some_inj.1 (hy.symm.trans hx)
    exact hrest

/-! ### Merging -/

theorem exists_overMembers_of_overlay {as bs : List (String × Value)}
    (h : overlay (.object as) (.object bs) = .ok m) :
    ∃ ms, overMembers as bs = .ok ms ∧ m = .object ms := by
  rw [overlay] at h
  obtain ⟨ms, hms, hm⟩ := exists_of_bind_eq_ok h
  exact ⟨ms, hms, (Except.ok.inj hm).symm⟩

/-- **Merging keeps what is the same along a path.** -/
theorem SameAlong.overlay (ha : SameAlong p a a') (hb : SameAlong p b b')
    (hkeyed : Throughout keyed b) (hkeyed' : Throughout keyed b') (hm : overlay a b = .ok m)
    (hm' : Settings.overlay a' b' = .ok m') : SameAlong p m m' := by
  induction p generalizing a a' b b' m m' with
  | nil =>
    obtain rfl : a = a' := ha
    obtain rfl : b = b' := hb
    exact Except.ok.inj (hm.symm.trans hm')
  | cons key p ih =>
    obtain ⟨as, as', rfl, rfl, ha⟩ := ha
    obtain ⟨bs, bs', rfl, rfl, hb⟩ := hb
    obtain ⟨ms, hms, rfl⟩ := exists_overMembers_of_overlay hm
    obtain ⟨ms', hms', rfl⟩ := exists_overMembers_of_overlay hm'
    refine ⟨ms, ms', rfl, rfl, ?_⟩
    have hkey := laidUnder_of_overMembers hms (nodup_of_keyed hkeyed) key
    have hkey' := laidUnder_of_overMembers hms' (nodup_of_keyed hkeyed') key
    rcases hb with ⟨hb, hb'⟩ | ⟨y, y', hb, hb', hy⟩
    · -- nothing comes over what was there
      rw [hb] at hkey
      rw [hb'] at hkey'
      rwa [hkey.eq_below, hkey'.eq_below]
    rw [hb] at hkey
    rw [hb'] at hkey'
    have hnull : y = .null ↔ y' = .null := by
      cases p with
      | nil => rw [show y = y' from hy]
      | cons =>
        obtain ⟨_, _, rfl, rfl, -⟩ := hy
        simp
    generalize lookup key ms = m?, lookup key ms' = m?' at hkey hkey' ⊢
    rcases ha with ⟨ha, ha'⟩ | ⟨x, x', ha, ha', hx⟩
    · rw [ha] at hkey
      rw [ha'] at hkey'
      cases hkey with
      | null =>
        obtain rfl := hnull.1 rfl
        cases hkey' with
        | null => exact .inl ⟨rfl, rfl⟩
        | above hb => exact absurd rfl hb
      | above hb =>
        cases hkey' with
        | null => exact absurd (hnull.2 rfl) hb
        | above => exact .inr ⟨y, y', rfl, rfl, hy⟩
    · rw [ha] at hkey
      rw [ha'] at hkey'
      cases hkey with
      | both hz =>
        cases hkey' with
        | both hz' =>
          exact .inr ⟨_, _, rfl, rfl, ih hx hy (hkeyed.member hb) (hkeyed'.member hb') hz hz'⟩

theorem path?_overlay_of_silent (ha : OpenAlong p a) (hb : OpenAlong p b)
    (hkeyed : Throughout keyed b) (hsilent : b.path? p = none) (hm : overlay a b = .ok m) :
    m.path? p = a.path? p := by
  induction p generalizing a b m with
  | nil => cases hsilent
  | cons key p ih =>
    obtain ⟨as, _, rfl, -, -⟩ := id ha
    obtain ⟨bs, _, rfl, -, -⟩ := id hb
    obtain ⟨ms, hms, rfl⟩ := exists_overMembers_of_overlay hm
    have hkey := laidUnder_of_overMembers hms (nodup_of_keyed hkeyed) key
    rw [path?] at hsilent ⊢
    rw [path?]
    generalize lookup key ms = m? at hkey ⊢
    generalize ha' : lookup key as = a?, hb' : lookup key bs = b? at hkey hsilent ⊢
    cases hkey with
    | below | null => rfl
    | above => exact hsilent
    | both hz => exact ih (ha.member ha') (hb.member hb') (hkeyed.member hb') hsilent hz

/-! ### Changes at another path -/

theorem Part.ne_nil (h : Part q p) : p ≠ [] := by
  rintro rfl
  cases q <;> exact h

theorem sameAlong_insert_of_ne {key' : String} (hne : key ≠ key')
    (h : OpenAlong (key' :: p) (.object members)) (x : Value) :
    SameAlong (key' :: p) (.object members) (.object (Value.insert key x members)) := by
  refine ⟨members, _, rfl, rfl, ?_⟩
  rw [lookup_insert_of_ne hne.symm]
  cases hv : lookup key' members with
  | none => exact .inl ⟨rfl, rfl⟩
  | some v => exact .inr ⟨v, v, rfl, rfl, h.member hv⟩

theorem openAlong_setAt (hpart : Part q p) (hw : OpenAlong p w) (h : setAt u q w = .ok w') :
    OpenAlong p w' ∧ w'.path? p = w.path? p := by
  induction q generalizing p w w' with
  | nil => cases hpart
  | cons key q ih =>
    cases p with
    | nil => cases hpart
    | cons key' p =>
      obtain ⟨members, inner, rfl, rfl, hinner⟩ := setAt_cons h
      by_cases hkey : key = key'
      · subst hkey
        have hpart := hpart.resolve_left fun h => h rfl
        have hinner := (hinner.resolve_left (by
          rintro ⟨rfl, -⟩
          cases hpart)).2
        -- an object is made where there was none, and it is as open as none
        have hopen : OpenAlong p ((lookup key members).getD (.object [])) := by
          cases hv : lookup key members with
          | none =>
            obtain ⟨next, rest, rfl⟩ := List.exists_cons_of_ne_nil hpart.ne_nil
            exact openAlong_empty next rest
          | some v => exact hw.member hv
        obtain ⟨hinner, hpath⟩ := ih hpart hopen hinner
        refine ⟨.object (lookup_insert_self ..) (lookup_insert_self ..) hinner, ?_⟩
        rw [path?, path?, lookup_insert_self, Option.bind_some, hpath]
        cases lookup key members with
        | none =>
          obtain ⟨next, rest, rfl⟩ := List.exists_cons_of_ne_nil hpart.ne_nil
          rfl
        | some v => rfl
      · have hsame := sameAlong_insert_of_ne hkey hw inner
        exact ⟨hsame.right, hsame.path?_eq.symm⟩

theorem sameAlong_modifyAt (f : Value → Value) (hpart : Part q p) (hv : OpenAlong p v) :
    SameAlong p v (v.modifyAt f q) := by
  induction q generalizing p v with
  | nil => cases hpart
  | cons key q ih =>
    cases p with
    | nil => cases hpart
    | cons key' p =>
      obtain ⟨members, _, rfl, -, -⟩ := id hv
      rw [modifyAt]
      split
      · rename_i w hw
        by_cases hkey : key = key'
        · subst hkey
          exact .object hw (lookup_insert_self ..)
            (ih (hpart.resolve_left fun h => h rfl) (hv.member hw))
        · exact sameAlong_insert_of_ne hkey hv _
      · exact hv

theorem throughout_modifyAt {P : Value → Bool} (hP : Kept P) {f : Value → Value}
    (hf : ∀ w, Throughout P w → Throughout P (f w)) (hv : Throughout P v) :
    Throughout P (v.modifyAt f q) := by
  induction q generalizing v with
  | nil => exact hf v hv
  | cons key q ih =>
    cases v with
    | object members =>
      rw [modifyAt]
      split
      · rename_i w hw
        exact hv.insert hP (ih (hv.member hw))
      · exact hv
    | _ => exact hv

end

/-! ## Switches -/

/-- Where the settings say whether a plugin is switched on. -/
def switchPath (name : String) : List String := ["plugins", name, "enabled"]

/-- The settings are an object with an object for each plugin that they speak of. -/
def Sectioned (v : Value) : Prop := ∀ name, OpenAlong (switchPath name) v

/-- Finds out whether settings have an object for each plugin that they speak of. -/
def isSectioned : Value → Bool
  | .object members =>
    match lookup "plugins" members with
    | some (.object sections) => sections.all fun m => isObject m.2
    | some _ => false
    | none => true
  | _ => false

section

variable {v w : Value} {name : String}

theorem openAlong_single {key : String} (h : isObject v = true) : OpenAlong [key] v := by
  cases v with
  | object members =>
    refine ⟨members, members, rfl, rfl, ?_⟩
    cases hw : lookup key members with
    | none => exact .inl ⟨rfl, rfl⟩
    | some w => exact .inr ⟨w, w, rfl, rfl, rfl⟩
  | _ => cases h

theorem sectioned_of_isSectioned (h : isSectioned v = true) : Sectioned v := by
  intro name
  cases v with
  | object members =>
    rw [isSectioned] at h
    split at h
    · rename_i sections hsections
      refine .object hsections hsections ?_
      cases hname : lookup name sections with
      | none => exact ⟨sections, sections, rfl, rfl, .inl ⟨hname, hname⟩⟩
      | some w =>
        refine .object hname hname (openAlong_single ?_)
        exact List.all_eq_true.1 h _ (mem_of_lookup hname)
    · cases h
    · rename_i hnone
      exact ⟨members, members, rfl, rfl, .inl ⟨hnone, hnone⟩⟩
  | _ => cases h

theorem Sectioned.isObject (h : Sectioned v) : ∃ members, v = .object members := by
  obtain ⟨members, _, hmembers, -, -⟩ := h ""
  exact ⟨members, hmembers⟩

theorem getD_of_openAlong {key : String} {p : List String} (h : OpenAlong (key :: p) v)
    (default : Value) : v.getD key default = .ok ((v.path? [key]).getD default) := by
  obtain ⟨members, _, rfl, -, -⟩ := h
  rw [Value.getD, get?, path?]
  cases lookup key members <;> rfl

/-- One step along a path; an empty object stands for one that is not there. -/
theorem exists_getD_of_openAlong {key next : String} {p : List String}
    (h : OpenAlong (key :: next :: p) v) :
    ∃ inner, v.getD key (.object []) = .ok inner ∧ OpenAlong (next :: p) inner ∧
      v.path? (key :: next :: p) = inner.path? (next :: p) := by
  obtain ⟨members, _, rfl, -, -⟩ := id h
  rw [Value.getD, get?, path?]
  cases hw : lookup key members with
  | none => exact ⟨_, rfl, openAlong_empty next p, rfl⟩
  | some w => exact ⟨w, rfl, h.member hw, rfl⟩

end

end Settings

namespace Config

variable {m : Machine} {v w : Value} {p : Plugin}

/-- **A plugin is switched off** just if the settings say so at its switch. -/
theorem isDisabled_of_sectioned (h : Sectioned v) (p : Plugin) : isDisabled v p =
    .ok (!((v.path? (switchPath p.name)).getD (.bool true)).truthy) := by
  obtain ⟨sections, hsections, hopen, hpath⟩ := exists_getD_of_openAlong (h p.name)
  obtain ⟨options, hoptions, hopen, hpath'⟩ := exists_getD_of_openAlong hopen
  rw [isDisabled, ofPlugin, hsections, ok_bind, hoptions, ok_bind, getD_of_openAlong hopen,
    switchPath, hpath, hpath']
  rfl

theorem disabledIn_congr (hv : Sectioned v) (hw : Sectioned w)
    (h : ∀ name, v.path? (switchPath name) = w.path? (switchPath name)) :
    disabledIn m v = disabledIn m w := by
  have hsame : isDisabled v = isDisabled w := by
    funext p
    rw [isDisabled_of_sectioned hv, isDisabled_of_sectioned hw, h]
  rw [disabledIn, disabledIn, hsame]

end Config

/-! ## Layers without switches -/

namespace Settings

variable {a b m v acc : Value} {layers : List Value}

theorem Sectioned.merge (ha : Sectioned a) (hb : Sectioned b) (hkeyed : Throughout keyed b)
    (h : merge a b = .ok m) : Sectioned m := fun name =>
  have hoverlay := (merge_eq_ok h).1
  (ha name).overlay (hb name) hkeyed hkeyed hoverlay hoverlay

theorem sectioned_empty : Sectioned (.object []) := fun _ => openAlong_empty _ _

theorem sectioned_default {p : Plugin} (h : p.defaults? = some v) : Sectioned v := by
  cases p <;> cases h <;> exact sectioned_of_isSectioned (by decide +kernel)

theorem sectioned_defaults {plugins : List Plugin} (h : Plugin.defaults plugins = .ok v) :
    Sectioned v := by
  refine of_foldlM (P := Sectioned) (fun layer hlayer a b ha h => ?_) sectioned_empty h
  obtain ⟨p, -, hp⟩ := List.mem_filterMap.1 hlayer
  exact ha.merge (sectioned_default hp) (inOrder_default hp).keyed h

/-- A layer that switches no plugin on or off. -/
structure Switchless (v : Value) : Prop where
  sectioned : Sectioned v
  silent : ∀ name, v.path? (switchPath name) = none

theorem switchless_empty : Switchless (.object []) := ⟨sectioned_empty, fun _ => rfl⟩

/-- Does a path lead to an option of a plugin other than its switch? -/
def leavesSwitches : List String → Bool
  | [_, _, option] => option != "enabled"
  | _ => false

theorem part_of_leavesSwitches {path : List String} (h : leavesSwitches path = true)
    (name : String) : Part path (switchPath name) := by
  rw [leavesSwitches.eq_def] at h
  split at h
  · exact .inr (.inr (.inl (by simpa using h)))
  · cases h

/-- The path of keys that an option of files is set at. -/
def FileOption.keys (o : FileOption) : List String :=
  (Text.splitOn '.' o.destination.toList).map String.ofList

/-- **No option of any file is a switch.** -/
theorem leavesSwitches_options (s : Source) : ∀ o ∈ s.options, leavesSwitches o.keys = true := by
  cases s <;> decide +kernel

theorem switchless_parse {s : Source} {style : ListStyle} {ini : Ini} {name : String}
    (h : parse style ini name s.options = .ok v) : Switchless v := by
  refine of_foldlM (P := Switchless) (fun o ho settings next hsettings hnext => ?_)
    switchless_empty h
  obtain ⟨read?, -, hnext⟩ := exists_of_bind_eq_ok hnext
  cases read? with
  | none => exact Except.ok.inj hnext ▸ hsettings
  | some u =>
    dsimp only at hnext
    rw [setOption] at hnext
    split at hnext
    · exact Except.ok.inj hnext ▸ hsettings
    · have hpart := part_of_leavesSwitches (leavesSwitches_options s o ho)
      have hset := fun name => openAlong_setAt (hpart name) (hsettings.sectioned name) hnext
      exact ⟨fun name => (hset name).1, fun name => (hset name).2.trans (hsettings.silent name)⟩

theorem switches_foldlM (hlayers : ∀ layer ∈ layers, InOrder layer ∧ Switchless layer)
    (hacc : Sectioned acc) (h : layers.foldlM merge acc = .ok v) :
    Sectioned v ∧ ∀ name, v.path? (switchPath name) = acc.path? (switchPath name) := by
  refine of_foldlM (P := fun v => Sectioned v ∧
    ∀ name, v.path? (switchPath name) = acc.path? (switchPath name)) ?_ ⟨hacc, fun _ => rfl⟩ h
  rintro layer hlayer a b ⟨ha, hswitches⟩ hb
  obtain ⟨hinOrder, hlayer⟩ := hlayers layer hlayer
  refine ⟨ha.merge hlayer.sectioned hinOrder.keyed hb, fun name => ?_⟩
  rw [path?_overlay_of_silent (ha name) (hlayer.sectioned name) hinOrder.keyed
    (hlayer.silent name) (merge_eq_ok hb).1, hswitches]

/-- The settings that the defaults of the plugins and the client make, without any file. -/
def withoutFiles (defaults client : Value) : Except Fault Value := do
  merge (← merge (.object []) defaults) client

theorem switchless_settings {s : Source} {fs : Files} {paths : List String}
    (h : s.settings fs paths = .ok v) : Switchless v := by
  obtain ⟨ini, -, h⟩ := exists_of_bind_eq_ok h
  exact switchless_parse h

end Settings

namespace Config

variable {m : Machine} {c : Config} {path : Value}

/-- **The switches in settings come from the defaults and the client alone.** -/
theorem switches_of_compute (hdefaults : Plugin.defaults m.loaded = .ok c.defaults)
    (hclient : InOrder c.client) (hsections : Sectioned c.client) {settled : Settled}
    (h : c.compute m path = .ok settled) :
    ∃ plain, withoutFiles c.defaults c.client = .ok plain ∧ Sectioned plain ∧
      disabledIn m settled.value = disabledIn m plain := by
  obtain ⟨projects, users, base, plain, hreads, hbase, hplain, hv⟩ :=
    exists_compute_iff.1 ⟨settled, h, rfl⟩
  have hlayers : ∀ layer ∈ users.reverse ++ projects.reverse, InOrder layer ∧ Switchless layer := by
    intro layer hlayer
    have hmem : layer ∈ projects ++ users := by simpa [or_comm] using hlayer
    exact ⟨hreads.inOrder layer hmem,
      hreads.forall_layer switchless_empty (fun _ _ _ _ => switchless_settings) layer hmem⟩
  have hsectioned : Sectioned plain :=
    (sectioned_empty.merge (sectioned_defaults hdefaults) (inOrder_defaults hdefaults).keyed
      hbase).merge hsections hclient.keyed hplain
  obtain ⟨hvalue, hswitches⟩ := switches_foldlM hlayers hsectioned hv
  refine ⟨plain, ?_, hsectioned, disabledIn_congr hvalue hsectioned hswitches⟩
  rw [withoutFiles, hbase]
  exact hplain

theorem refresh_eq_ok {settled : Settled} (hsettled : c.compute m .null = .ok settled)
    (hdisabled : disabledIn m settled.value = .ok c.disabled) :
    ∃ cache, c.refresh m {} = .ok c cache := by
  have hrun := ensures_refresh m c
  cases hx : c.refresh m {} with
  | ok c' cache =>
    obtain ⟨settled', disabled, hsettled', hdisabled', rfl, -⟩ := hrun.ok hx
    obtain rfl := Except.ok.inj (hsettled.symm.trans hsettled')
    obtain rfl := Except.ok.inj (hdisabled.symm.trans hdisabled')
    exact ⟨cache, rfl⟩
  | error f cache =>
    have hfault := hrun.error hx
    rw [hsettled, ok_bind, hdisabled] at hfault
    cases hfault

/-! ## Configurations that keep their switches -/

/-- A configuration that comes from another by changes of the client's object that leave the
switches alone. -/
structure Descends (c c' : Config) : Prop where
  defaults : c'.defaults = c.defaults
  disabled : c'.disabled = c.disabled
  inOrder : InOrder c.client → InOrder c'.client
  switches : ∀ name, OpenAlong (switchPath name) c.client →
    SameAlong (switchPath name) c.client c'.client

namespace Descends

theorem refl (c : Config) : c.Descends c := ⟨rfl, rfl, fun h => h, fun _ h => h⟩

theorem trans {c c' c'' : Config} (h : c.Descends c') (h' : c'.Descends c'') : c.Descends c'' where
  defaults := h'.defaults.trans h.defaults
  disabled := h'.disabled.trans h.disabled
  inOrder hc := h'.inOrder (h.inOrder hc)
  switches name hc :=
    have hfirst := h.switches name hc
    hfirst.trans (h'.switches name hfirst.right)

end Descends

theorem descends_modifyAt {f : Value → Value} {path : List String}
    (hpath : leavesSwitches path = true)
    (hkeyed : ∀ w, Throughout keyed w → Throughout keyed (f w))
    (hflat : ∀ w, Throughout flat w → Throughout flat (f w)) (c : Config) :
    c.Descends { c with client := c.client.modifyAt f path } where
  defaults := rfl
  disabled := rfl
  inOrder hc := by
    refine ⟨?_, throughout_modifyAt kept_keyed hkeyed hc.keyed,
      throughout_modifyAt kept_flat hflat hc.flat⟩
    obtain ⟨members, hmembers⟩ := hc.isObject
    rw [leavesSwitches.eq_def] at hpath
    split at hpath
    · show ∃ members, c.client.modifyAt f _ = _
      rw [hmembers, modifyAt]
      split
      · exact ⟨_, rfl⟩
      · exact ⟨_, rfl⟩
    · cases hpath
  switches name hc := sameAlong_modifyAt f (part_of_leavesSwitches hpath name) hc

/-- Without any file, such a configuration switches off the same plugins. -/
theorem Descends.disabledIn_withoutFiles {c' : Config} (h : c.Descends c')
    (hdefaults : Plugin.defaults m.loaded = .ok c.defaults) (hclient : InOrder c.client)
    (hsections : Sectioned c.client) {plain plain' : Value}
    (hplain : withoutFiles c.defaults c.client = .ok plain)
    (hplain' : withoutFiles c'.defaults c'.client = .ok plain') :
    disabledIn m plain' = disabledIn m plain := by
  obtain ⟨base, hbase, hplain⟩ := exists_of_bind_eq_ok hplain
  rw [h.defaults, withoutFiles, hbase, ok_bind] at hplain'
  have hsectioned : Sectioned base := sectioned_empty.merge (sectioned_defaults hdefaults)
    (inOrder_defaults hdefaults).keyed hbase
  have hsame : ∀ name, SameAlong (switchPath name) plain plain' := fun name =>
    (hsectioned name).overlay (h.switches name (hsections name)) hclient.keyed
      (h.inOrder hclient).keyed (merge_eq_ok hplain).1 (merge_eq_ok hplain').1
  exact disabledIn_congr (fun name => (hsame name).right) (fun name => (hsame name).left)
    fun name => (hsame name).path?_eq.symm

theorem loaded_of_broken {m' : Machine} (h : m'.broken = m.broken) : m'.loaded = m.loaded := by
  rw [Machine.loaded, Machine.loaded, h]

theorem disabledIn_of_broken {m' : Machine} (h : m'.broken = m.broken) (v : Value) :
    disabledIn m' v = disabledIn m v := by
  rw [disabledIn, disabledIn, loaded_of_broken h, Machine.blocked, Machine.blocked, h]

/-- **The list is what would be found out anew**, whatever the files say now. -/
theorem Descends.exists_refresh {m' : Machine} {c' : Config} (h : c.Descends c')
    (hbroken : m'.broken = m.broken) (hdefaults : Plugin.defaults m.loaded = .ok c.defaults)
    (hclient : InOrder c.client) (hsections : Sectioned c.client) {plain : Value}
    (hplain : withoutFiles c.defaults c.client = .ok plain)
    (hdisabled : disabledIn m plain = .ok c.disabled) {projects users : List Value}
    (hreads : c'.Reads m' .null projects users) : ∃ cache, c'.refresh m' {} = .ok c' cache := by
  have hclient' := h.inOrder hclient
  have hdefaults' : Plugin.defaults m'.loaded = .ok c'.defaults := by
    rw [loaded_of_broken hbroken, hdefaults, h.defaults]
  obtain ⟨settled, hsettled⟩ := exists_compute_of_inOrder hdefaults' hclient' hreads
  obtain ⟨plain', hplain', -, hsame⟩ := switches_of_compute hdefaults' hclient'
    (fun name => (h.switches name (hsections name)).right) hsettled
  refine refresh_eq_ok hsettled ?_
  rw [hsame, disabledIn_of_broken hbroken,
    h.disabledIn_withoutFiles hdefaults hclient hsections hplain hplain', hdisabled, h.disabled]

end Config

/-! ## Histories -/

/-- Something that happens while a configuration is in use. -/
inductive Incident where
  /-- Files are written, changed or deleted. -/
  | files (fs : Files)
  /-- The cache of settings is emptied. -/
  | forget
  | settings (n : Nat) (query : Query)
  | pluginSettings (n : Nat) (plugin : String) (path : Value)
  /-- The client's settings are given to a configuration. -/
  | update (n : Nat) (client : Value) (revision : Nat)
  /-- A lint adds codes to the list of ignored codes. -/
  | extendIgnores (n : Nat) (query : Query) (codes : List String)
  /-- An engine takes a variable out of the client's environment variables. -/
  | dropVariable (n : Nat) (name : String)

namespace Incident

def act : Incident → Act Unit
  | files fs => modify fun h => { h with machine := { h.machine with files := fs } }
  | forget => modify fun h => { h with cache := {} }
  | settings n query => do let _ ← Host.settings n query
  | pluginSettings n plugin path => do let _ ← Host.pluginSettings n plugin path
  | update n client revision => Host.updateConfig n client revision
  | extendIgnores n query codes => Host.extendIgnores n query (codes.map .str)
  | dropVariable n name => Host.dropVariable n name

/-- It does not give new settings to the configuration of the workspace. -/
def spares (n : Nat) : Incident → Bool
  | update n' _ _ => n' != n
  | _ => true

end Incident

namespace Host

/-- The host after an incident, whether or not it has failed. -/
def after (h : Host) (t : Incident) : Host :=
  match t.act h with
  | .ok _ h' | .error _ h' => h'

/-- The same plugins can be loaded, and the configuration of the workspace comes from the one that
it had. -/
structure Drifts (n : Nat) (h h' : Host) : Prop where
  broken : h'.machine.broken = h.machine.broken
  config : ∀ c, h.configAt n = some c → ∃ c', h'.configAt n = some c' ∧ c.Descends c'

variable {n : Nat} {h h' h'' : Host}

namespace Drifts

theorem of_same (hbroken : h'.machine.broken = h.machine.broken)
    (hconfig : h'.configAt n = h.configAt n) : h.Drifts n h' :=
  ⟨hbroken, fun c hc => ⟨c, hconfig.trans hc, .refl c⟩⟩

theorem refl (h : Host) : h.Drifts n h := of_same rfl rfl

theorem trans (h1 : h.Drifts n h') (h2 : h'.Drifts n h'') : h.Drifts n h'' where
  broken := h2.broken.trans h1.broken
  config c hc := by
    obtain ⟨c', hc', hfirst⟩ := h1.config c hc
    obtain ⟨c'', hc'', hsecond⟩ := h2.config c' hc'
    exact ⟨c'', hc'', hfirst.trans hsecond⟩

theorem of_consult (hstep : h.Consult h') : h.Drifts n h' := by
  cases hstep with
  | asked => exact of_same rfl rfl
  | settled => exact of_same rfl rfl

theorem of_consults (hsteps : Relation.ReflTransGen Consult h h') : h.Drifts n h' := by
  induction hsteps with
  | refl => exact refl h
  | tail _ hstep ih => exact ih.trans (of_consult hstep)

theorem amendClient {f : Value → Value} {path : List String} (hpath : leavesSwitches path = true)
    (hkeyed : ∀ w, Throughout keyed w → Throughout keyed (f w))
    (hflat : ∀ w, Throughout flat w → Throughout flat (f w)) (revision : Nat)
    (shared : Settled → Bool) (h : Host) :
    h.Drifts n (Host.amendClient revision path shared f h) := by
  refine ⟨rfl, fun c hc => ?_⟩
  rw [configAt_amendClient, hc]
  refine ⟨_, rfl, ?_⟩
  dsimp only
  split
  · exact Config.descends_modifyAt hpath hkeyed hflat c
  · exact .refl c

end Drifts

theorem throughout_extend {P : Value → Bool} {codes : List Value} {w : Value}
    (hP : ∀ items, P (.list items) = true → P (.list (items ++ codes)) = true)
    (hw : Throughout P w) : Throughout P (extend codes w) := by
  cases w with
  | list items => exact .of_not_object (hP items hw.here) (by simp [extend])
  | _ => exact hw

theorem throughout_erase {P : Value → Bool} {name : String} {members : List (String × Value)}
    (hP : P (.object members) = true → P (.object (Value.erase name members)) = true)
    (h : Throughout P (.object members)) : Throughout P (.object (Value.erase name members)) := by
  refine .object (hP h.here) fun key w hw => ?_
  rw [Value.lookup_erase] at hw
  split at hw
  · cases hw
  · exact h.member hw

theorem drifts_extendIgnores (m : Nat) (query : Query) (codes : List String) (h : Host) :
    Ensures (extendIgnores m query (codes.map .str)) h (fun _ h' => h.Drifts n h')
      fun _ h' => h.Drifts n h' := by
  have hflat : ∀ items, flat (.list items) = true →
      flat (.list (items ++ codes.map .str)) = true := by
    intro items hitems
    rw [flat, List.all_append, Bool.and_eq_true]
    exact ⟨hitems, by simp [Value.isHashable]⟩
  refine (ensures_extendIgnores_cases (P := h.Drifts n) m query _ (.refl h) (fun _ => ?_)
    fun _ => .of_same rfl rfl).mono (fun _ _ hdrifts => hdrifts) fun _ _ hsame => hsame ▸ .refl _
  exact .amendClient rfl (fun _ => throughout_extend fun _ _ => rfl)
    (fun _ => throughout_extend hflat) _ _ h

theorem drifts_dropVariable (m : Nat) (name : String) (h : Host) :
    Ensures (dropVariable m name) h (fun _ h' => h.Drifts n h') fun _ h' => h.Drifts n h' := by
  rw [dropVariable, ensures_bind, ensures_config_iff]
  refine ⟨fun c _ => ?_, fun _ => .refl h⟩
  have hkeyed : ∀ members, keyed (.object members) = true →
      keyed (.object (Value.erase name members)) = true := by
    intro members hmembers
    exact decide_eq_true ((of_decide_eq_true hmembers).sublist
      (List.filter_sublist.map _))
  refine .amendClient rfl (fun w hw => ?_) (fun w hw => ?_) _ _ h
  · cases w with
    | object members => exact throughout_erase (hkeyed members) hw
    | _ => exact hw
  · cases w with
    | object members => exact throughout_erase (fun _ => rfl) hw
    | _ => exact hw

theorem drifts_updateConfig {m : Nat} (hm : m ≠ n) (client : Value) (revision : Nat) (h : Host) :
    Ensures (updateConfig m client revision) h (fun _ h' => h.Drifts n h')
      fun _ h' => h.Drifts n h' := by
  have hupdated : ∀ {fault? h'}, h.Updated m client revision fault? h' → h.Drifts n h' := by
    rintro _ _ ⟨hw, -⟩
    exact .of_same rfl ((configAt_set hw _ _ n).trans (if_neg hm.symm))
  refine (ensures_updateConfig h m client revision).mono (fun _ _ => hupdated) ?_
  rintro _ _ (rfl | hu)
  · exact .refl _
  · exact hupdated hu

/-- **An incident leaves the switches as they are.** -/
theorem drifts_after {t : Incident} (ht : t.spares n = true) (h : Host) :
    h.Drifts n (h.after t) := by
  have hact : Ensures t.act h (fun _ h' => h.Drifts n h') fun _ h' => h.Drifts n h' := by
    cases t with
    | files | forget => exact .of_same rfl rfl
    | settings m query =>
      exact ((moves_settings m query).bind fun _ => Moves.pure _) h |>.mono
        (fun _ _ => .of_consults) fun _ _ => .of_consults
    | pluginSettings m plugin path =>
      exact ((moves_pluginSettings m plugin path).bind fun _ => Moves.pure _) h |>.mono
        (fun _ _ => .of_consults) fun _ _ => .of_consults
    | update m client revision =>
      exact drifts_updateConfig (by simpa [Incident.spares] using ht) _ _ h
    | extendIgnores m query codes => exact drifts_extendIgnores m query codes h
    | dropVariable m name => exact drifts_dropVariable m name h
  rw [after]
  split
  · rename_i hrun
    exact hact.ok hrun
  · rename_i hrun
    exact hact.error hrun

/-- **A history leaves the switches as they are.** -/
theorem drifts_foldl {incidents : List Incident}
    (hincidents : ∀ t ∈ incidents, t.spares n = true) (h : Host) :
    h.Drifts n (incidents.foldl after h) := by
  induction incidents generalizing h with
  | nil => exact .refl h
  | cons t incidents ih =>
    rw [List.forall_mem_cons] at hincidents
    exact (drifts_after hincidents.1 h).trans (ih hincidents.2 (h.after t))

/-- The list of a configuration is made from the client's settings when it takes them over. -/
theorem ensures_updateConfig_disabled {c : Config} (hc : h.configAt n = some c) (client : Value)
    (revision : Nat) :
    Ensures (updateConfig n client revision) h
      (fun _ h' => h'.machine = h.machine ∧ ∃ (c' : Config) (settled : Settled),
        h'.configAt n = some c' ∧ c'.defaults = c.defaults ∧ c'.client = client ∧
        c'.compute h.machine .null = .ok settled ∧
        Config.disabledIn h.machine settled.value = .ok c'.disabled)
      fun _ _ => True := by
  rw [updateConfig, ensures_bind, ensures_space]
  refine ⟨fun w hw => ?_, fun _ => trivial⟩
  rw [ensures_bind, ensures_config_iff]
  refine ⟨fun c' hc' => ?_, fun _ => trivial⟩
  obtain rfl := Option.some_inj.1 (hc.symm.trans hc')
  rw [ensures_bind, ensures_get]
  dsimp only
  rw [ensures_bind, ensures_set]
  have hrun := Config.ensures_refresh h.machine { c with client, revision }
  rw [Config.update]
  cases hx : Config.refresh h.machine { c with client, revision } {} with
  | error f cache => trivial
  | ok c' cache =>
    obtain ⟨settled, disabled, hsettled, hdisabled, rfl, -⟩ := hrun.ok hx
    exact ⟨rfl, _, settled, (configAt_set hw _ _ n).trans (if_pos rfl), rfl, rfl, hsettled,
      hdisabled⟩

/-- **Files never make the list of switched-off plugins wrong.** The client's settings have an
object for each plugin, and lists of single values only. A configuration has taken them over, and
after that files were written and anything else happened but new settings for this configuration.
Then its list is the one that the defaults of the plugins and the client's settings make without any
file. And whenever the settings can be read from the files as they are now, finding out anew which
plugins are switched off changes nothing. -/
theorem disabled_never_outdated {h₁ : Host} {c : Config} {client : Value} {revision : Nat}
    {incidents : List Incident} (hc : h.configAt n = some c)
    (hdefaults : Plugin.defaults h.machine.loaded = .ok c.defaults)
    (hkeyed : everywhere keyed client = true) (hflat : everywhere flat client = true)
    (hsections : isSectioned client = true)
    (hupdate : updateConfig n client revision h = .ok () h₁)
    (hincidents : ∀ t ∈ incidents, t.spares n = true) :
    ∃ plain now, withoutFiles c.defaults client = .ok plain ∧
      (incidents.foldl after h₁).configAt n = some now ∧
      Config.disabledIn h.machine plain = .ok now.disabled ∧
      ((∃ projects users, now.Reads (incidents.foldl after h₁).machine .null projects users) →
        ∃ cache, now.refresh (incidents.foldl after h₁).machine {} = .ok now cache) := by
  obtain ⟨hmachine, c₁, settled, hc₁, hdefaults₁, rfl, hsettled, hdisabled⟩ :=
    (ensures_updateConfig_disabled hc client revision).ok hupdate
  have hsectioned : Sectioned c₁.client := sectioned_of_isSectioned hsections
  have hclient : InOrder c₁.client :=
    ⟨hsectioned.isObject, throughout_of_everywhere hkeyed, throughout_of_everywhere hflat⟩
  rw [← hdefaults₁] at hdefaults ⊢
  obtain ⟨plain, hplain, -, hsame⟩ :=
    Config.switches_of_compute hdefaults hclient hsectioned hsettled
  rw [hsame] at hdisabled
  have hdrifts := drifts_foldl hincidents h₁
  obtain ⟨now, hnow, hdescends⟩ := hdrifts.config c₁ hc₁
  refine ⟨plain, now, hplain, hnow, hdescends.disabled ▸ hdisabled, ?_⟩
  rintro ⟨projects, users, hreads⟩
  exact hdescends.exists_refresh (hmachine ▸ hdrifts.broken) hdefaults hclient hsectioned hplain
    hdisabled hreads

/-- A host with one workspace, on a machine where one plugin cannot be loaded. -/
def watched : Host where
  machine := { broken := ["pydocstyle"] }
  spaces := [{
    rootUri := "file:///w", scheme := "file", rootPath := "/w"
    config := some {
      id := 0, rootUri := "file:///w", rootPath := "/w"
      defaults := ((Plugin.defaults (Machine.loaded { broken := ["pydocstyle"] })).toOption).getD
        .null } }]
  configs := 1

/-- Settings of a client that switch one plugin on and another one off. -/
def switching : Value := .object [
  ("configurationSources", .texts ["flake8", "pycodestyle"]),
  ("plugins", .object [
    ("flake8", .object [("enabled", .bool true), ("ignore", .texts ["E1"])]),
    ("pyflakes", .object [("enabled", .bool false)]),
    ("pydocstyle", .object [("enabled", .null)]),
    ("jedi", .object [("env_vars", .object [("PYTHONPATH", .str "x")])])])]

/-- Files that try to switch plugins and set options come and change, and the client's object is
changed in place. -/
def meddling : List Incident := [
  .files ⟨[("/w/setup.cfg", "[flake8]\nenabled = false\nmax-complexity = 3\n")]⟩,
  .settings 0 (.named (.str "/w/a.py")),
  .extendIgnores 0 (.named (.str "/w/a.py")) ["E2"],
  .dropVariable 0 "PYTHONPATH",
  .forget,
  .files ⟨[("/w/tox.ini", "[pycodestyle]\nenabled = 0\nignore = E3\n")]⟩]

theorem disabled_after_meddling : ∃ h₁ now,
    updateConfig 0 switching 1 watched = .ok () h₁ ∧
    (meddling.foldl after h₁).configAt 0 = some now ∧
    now.disabled = [none, some .pyflakes, some .pylint, some .ropeCompletion, some .ropeRename] ∧
    ∃ cache, now.refresh (meddling.foldl after h₁).machine {} = .ok now cache := by
  have hrun : Ensures (updateConfig 0 switching 1) watched
      (fun _ h₁ => ((meddling.foldl after h₁).configAt 0).any
        (fun c => (c.compute (meddling.foldl after h₁).machine .null).isOk) = true)
      fun _ _ => False := by
    decide +kernel
  have hswitches : ((do
      let defaults ← Plugin.defaults watched.machine.loaded
      Config.disabledIn watched.machine (← withoutFiles defaults switching)) :
        Except Fault (List (Option Plugin))).toOption =
      some [none, some .pyflakes, some .pylint, some .ropeCompletion, some .ropeRename] := by
    decide +kernel
  obtain ⟨defaults, hdefaults, hswitches⟩ := exists_of_bind_eq_ok (eq_ok_of_toOption hswitches)
  obtain ⟨plain, hplain, hswitches⟩ := exists_of_bind_eq_ok hswitches
  obtain ⟨c, hc, hc'⟩ : ∃ c, watched.configAt 0 = some c ∧ c.defaults = defaults := by
    refine ⟨_, rfl, ?_⟩
    have hloaded : Plugin.defaults (Machine.loaded { broken := ["pydocstyle"] }) = .ok defaults :=
      hdefaults
    rw [hloaded]
    rfl
  have hspares : ∀ t ∈ meddling, t.spares 0 = true := by decide +kernel
  obtain ⟨_, h₁, hupdate, hcheck⟩ := hrun.exists_ok
  obtain ⟨plain', now, hplain', hnow, hdisabled, hrefresh⟩ := disabled_never_outdated hc
    (hc' ▸ hdefaults) (by decide +kernel) (by decide +kernel) (by decide +kernel) hupdate hspares
  rw [hc', hplain] at hplain'
  obtain rfl := Except.ok.inj hplain'
  rw [hnow] at hcheck
  obtain ⟨settled, hsettled⟩ := exists_of_isOk hcheck
  obtain ⟨projects, users, -, -, hreads, -⟩ :=
    Config.exists_compute_iff.1 ⟨settled, hsettled, rfl⟩
  exact ⟨h₁, now, hupdate, hnow, Except.ok.inj (hdisabled.symm.trans hswitches),
    hrefresh ⟨projects, users, hreads⟩⟩

end Host
end LangServer
