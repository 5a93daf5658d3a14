import LangServer.Proofs.Action
import LangServer.Proofs.Members

/-!
# Layers of settings

Settings are objects that are laid one over the other. This file says what becomes of a single
option, given by the path of keys that leads to it.

* A layer is silent about an option, or gives it a value, or *blocks* it, because something that is
  no object stands where an object would have to be (`wordOf`).
* In merged settings the upper layer has the word unless it is silent (`valueAt_overlay`). That
  goes for every option but those that both layers give a list or both an object.
* Merging succeeds and keeps settings in order (`exists_overlay`, `throughout_overlay`): no object
  has a key twice (`keyed`), and lists have no lists or objects in them (`flat`).
* What files and plugins bring is in order (`inOrder_parse`, `inOrder_defaults`).
-/

namespace LangServer.Settings

open Value

/-! ## What a layer says about an option -/

/-- What a layer says about an option. -/
inductive Word where
  | silent
  | blocked
  | gives (v : Value)
  deriving DecidableEq

/-- What a layer says about the option at a path. Null says nothing. -/
def wordOf : List String → Value → Word
  | [], .null => .silent
  | [], v => .gives v
  | key :: rest, .object members =>
    match lookup key members with
    | some v => wordOf rest v
    | none => .silent
  | _ :: _, .null => .silent
  | _ :: _, _ => .blocked

/-- The value of the option at a path, if there is one. -/
def valueAt (p : List String) (v : Value) : Option Value :=
  (v.path? p).filter fun w => !w.isNull

/-- The value of an option, if a layer that says `w` about it lies over others, from which it would
have the value `below`. -/
def Word.over (w : Word) (below : Option Value) : Option Value :=
  match w with
  | silent => below
  | blocked => none
  | gives v => some v

section

variable {p : List String} {v w : Value} {members : List (String × Value)}

theorem valueAt_null (p : List String) : valueAt p .null = none := by
  cases p <;> rfl

theorem valueAt_object_cons (key : String) (p : List String) :
    valueAt (key :: p) (.object members) = (lookup key members).bind (valueAt p) := by
  rw [valueAt, path?]
  cases lookup key members <;> rfl

theorem over_wordOf_none (p : List String) (v : Value) : (wordOf p v).over none = valueAt p v := by
  induction p generalizing v with
  | nil => cases v <;> rfl
  | cons key p ih =>
    cases v with
    | object members =>
      rw [valueAt_object_cons, wordOf]
      cases lookup key members with
      | none => rfl
      | some w => exact ih w
    | _ => rfl

theorem valueAt_eq_some_iff : valueAt p v = some w ↔ wordOf p v = .gives w := by
  rw [← over_wordOf_none]
  cases wordOf p v <;> simp [Word.over]

theorem valueAt_cons_of_not_object (h : ∀ members, v ≠ .object members) (key : String)
    (p : List String) : valueAt (key :: p) v = none := by
  cases v with
  | object members => exact absurd rfl (h members)
  | _ => rfl

end

/-! ## Members over members -/

section

variable {as bs ms : List (String × Value)} {a b merged : Value} {key : String}

theorem overMembers_cons {k : String} (h : overMembers as ((k, b) :: bs) = .ok ms) :
    ∃ as', overMembers as' bs = .ok ms ∧
      ((∃ a merged, lookup k as = some a ∧ overlay a b = .ok merged ∧
          as' = Value.insert k merged as) ∨
        lookup k as = none ∧ as' = if b.isNull then as else Value.insert k b as) := by
  rw [overMembers] at h
  split at h
  · next a ha =>
    obtain ⟨merged, hmerged, hrest⟩ := exists_of_bind_eq_ok h
    exact ⟨_, hrest, .inl ⟨a, merged, ha, hmerged, rfl⟩⟩
  · next ha => exact ⟨_, h, .inr ⟨ha, rfl⟩⟩

/-- What there is under a key when members are laid over others. -/
inductive LaidUnder : Option Value → Option Value → Option Value → Prop where
  | below (a? : Option Value) : LaidUnder a? none a?
  | null : LaidUnder none (some .null) none
  | above {b : Value} (hb : b ≠ .null) : LaidUnder none (some b) (some b)
  | both {a b merged : Value} (h : overlay a b = .ok merged) :
      LaidUnder (some a) (some b) (some merged)

theorem LaidUnder.eq_below {a? m? : Option Value} (h : LaidUnder a? none m?) : m? = a? := by
  cases h
  rfl

/-- **Members over members**, key by key. -/
theorem laidUnder_of_overMembers (h : overMembers as bs = .ok ms) (hkeys : (bs.map (·.1)).Nodup)
    (key : String) : LaidUnder (lookup key as) (lookup key bs) (lookup key ms) := by
  induction bs generalizing as with
  | nil =>
    rw [overMembers, Except.ok.injEq] at h
    exact h ▸ .below _
  | cons m bs ih =>
    obtain ⟨k, b⟩ := m
    obtain ⟨hk, hkeys⟩ := List.nodup_cons.1 hkeys
    obtain ⟨as', hrest, hfirst⟩ := overMembers_cons h
    have hlater := ih hrest hkeys
    by_cases hkey : k = key
    · subst hkey
      rw [lookup_eq_none_iff.2 hk] at hlater
      rw [lookup, if_pos rfl, hlater.eq_below]
      rcases hfirst with ⟨a, merged, ha, hmerged, rfl⟩ | ⟨ha, rfl⟩
      · rw [ha, lookup_insert_self]
        exact .both hmerged
      · rw [ha]
        split
        · next hnull =>
          rw [ha]
          cases b with
          | null => exact .null
          | _ => cases hnull
        · next hnull =>
          rw [lookup_insert_self]
          exact .above fun hb => hnull (hb ▸ rfl)
    · -- the first member changes nothing under other keys
      have hother : lookup key as' = lookup key as := by
        rcases hfirst with ⟨a, merged, -, -, rfl⟩ | ⟨-, rfl⟩
        · exact lookup_insert_of_ne (Ne.symm hkey) ..
        · split
          · rfl
          · exact lookup_insert_of_ne (Ne.symm hkey) ..
      rw [lookup, if_neg hkey, ← hother]
      exact hlater

theorem of_overMembers {P : List (String × Value) → Prop}
    (hinsert : ∀ key v ms, P ms → P (Value.insert key v ms)) (h : overMembers as bs = .ok ms)
    (has : P as) : P ms := by
  induction bs generalizing as with
  | nil =>
    rw [overMembers, Except.ok.injEq] at h
    exact h ▸ has
  | cons m bs ih =>
    obtain ⟨as', hrest, ⟨a, merged, -, -, rfl⟩ | ⟨-, rfl⟩⟩ := overMembers_cons h
    · exact ih hrest (hinsert _ _ _ has)
    · refine ih hrest ?_
      split
      · exact has
      · exact hinsert _ _ _ has

end

/-! ## Settings in order -/

/-- Does the property hold of a value and of everything that lies in its objects? -/
def Throughout (P : Value → Bool) (v : Value) : Prop := ∀ p w, v.path? p = some w → P w = true

/-- No key stands twice in an object. -/
def keyed : Value → Bool
  | .object members => decide (members.map (·.1)).Nodup
  | _ => true

/-- A list has neither lists nor objects in it. -/
def flat : Value → Bool
  | .list items => items.all isHashable
  | _ => true

mutual

/-- Finds out whether a property holds throughout a value. -/
def everywhere (P : Value → Bool) : Value → Bool
  | .object members => P (.object members) && everywhereIn P members
  | v => P v

def everywhereIn (P : Value → Bool) : List (String × Value) → Bool
  | [] => true
  | (_, v) :: rest => everywhere P v && everywhereIn P rest

end

/-- A property of objects and lists that merging keeps. -/
structure Kept (P : Value → Bool) : Prop where
  empty : P (.object []) = true
  insert : ∀ key v members, P (.object members) = true →
    P (.object (Value.insert key v members)) = true
  union : ∀ xs ys zs, P (.list xs) = true → P (.list ys) = true → union xs ys = .ok zs →
    P (.list zs) = true

theorem keys_insert (key : String) (v : Value) (members : List (String × Value)) :
    (Value.insert key v members).map (·.1) =
      if key ∈ members.map (·.1) then members.map (·.1) else members.map (·.1) ++ [key] := by
  induction members with
  | nil => rfl
  | cons m rest ih =>
    obtain ⟨k, w⟩ := m
    rw [Value.insert]
    by_cases hk : k = key
    · simp [hk]
    · rw [if_neg hk, List.map_cons, ih]
      by_cases hmem : key ∈ rest.map (·.1)
      · simp only [List.map_cons, List.mem_cons, hmem, or_true, if_true]
      · simp only [List.map_cons, List.mem_cons, hmem, or_false, if_neg (Ne.symm hk), if_false,
          List.cons_append]

theorem kept_keyed : Kept keyed where
  empty := rfl
  insert key v members h := by
    have hkeys : (members.map (·.1)).Nodup := of_decide_eq_true h
    refine decide_eq_true ?_
    rw [keys_insert]
    split
    · exact hkeys
    · next hkey =>
      rw [List.nodup_append]
      refine ⟨hkeys, by simp, ?_⟩
      rintro k hk _ hkey' rfl
      exact hkey (List.mem_singleton.1 hkey' ▸ hk)
  union _ _ _ _ _ _ := rfl

theorem mem_of_mem_distinct {a : Value} {seen xs : List Value} (h : a ∈ distinct seen xs) :
    a ∈ xs := by
  induction xs generalizing seen with
  | nil => cases h
  | cons x xs ih =>
    rw [distinct] at h
    split at h
    · exact List.mem_cons_of_mem _ (ih h)
    · rcases List.mem_cons.1 h with rfl | h
      · exact List.mem_cons_self
      · exact List.mem_cons_of_mem _ (ih h)

theorem kept_flat : Kept flat where
  empty := rfl
  insert _ _ _ _ := rfl
  union xs ys zs hxs hys h := by
    rw [Settings.union] at h
    split at h
    · next hall =>
      obtain rfl := Except.ok.inj h
      rw [flat, List.all_eq_true] at *
      exact fun a ha => hall a (mem_of_mem_distinct ha)
    · cases h

namespace Throughout

variable {P : Value → Bool} {v w : Value} {key : String} {members : List (String × Value)}

theorem here (h : Throughout P v) : P v = true := h [] v rfl

theorem member (h : Throughout P (.object members)) (hw : lookup key members = some w) :
    Throughout P w := by
  intro p u hu
  refine h (key :: p) u ?_
  rw [path?, hw]
  exact hu

theorem object (h : P (.object members) = true)
    (hmembers : ∀ key w, lookup key members = some w → Throughout P w) :
    Throughout P (.object members) := by
  intro p u hu
  cases p with
  | nil => exact Option.some_inj.1 hu ▸ h
  | cons key p =>
    rw [path?] at hu
    obtain ⟨w, hw, hu⟩ := Option.bind_eq_some_iff.1 hu
    exact hmembers key w hw p u hu

theorem of_not_object (h : P v = true) (hv : ∀ members, v ≠ .object members) :
    Throughout P v := by
  intro p u hu
  cases p with
  | nil => exact Option.some_inj.1 hu ▸ h
  | cons key p =>
    cases v with
    | object members => exact absurd rfl (hv members)
    | _ => cases hu

theorem insert (hP : Kept P) (h : Throughout P (.object members)) (hw : Throughout P w) :
    Throughout P (.object (Value.insert key w members)) := by
  refine object (hP.insert key w members h.here) fun other u hu => ?_
  rw [lookup_insert] at hu
  split at hu
  · exact Option.some_inj.1 hu ▸ hw
  · exact h.member hu

end Throughout

theorem everywhere_of_mem {P : Value → Bool} {members : List (String × Value)} {key : String}
    {v : Value} (h : everywhereIn P members = true) (hmem : (key, v) ∈ members) :
    everywhere P v = true := by
  induction members with
  | nil => cases hmem
  | cons m rest ih =>
    obtain ⟨k, w⟩ := m
    rw [everywhereIn, Bool.and_eq_true] at h
    rcases List.mem_cons.1 hmem with heq | hmem
    · rw [(Prod.mk.inj heq).2]
      exact h.1
    · exact ih h.2 hmem

theorem throughout_of_everywhere {P : Value → Bool} {v : Value} (h : everywhere P v = true) :
    Throughout P v := by
  intro p w hw
  induction p generalizing v with
  | nil =>
    obtain rfl := Option.some_inj.1 hw
    cases v with
    | object members => exact (Bool.and_eq_true_iff.1 h).1
    | _ => exact h
  | cons key p ih =>
    cases v with
    | object members =>
      rw [path?] at hw
      obtain ⟨u, hu, hw⟩ := Option.bind_eq_some_iff.1 hw
      exact ih (everywhere_of_mem (Bool.and_eq_true_iff.1 h).2 (mem_of_lookup hu)) hw
    | _ => cases hw

/-! ## Merging -/

/-- How one value comes to lie over another. -/
inductive Overlaid (a : Value) : Value → Value → Prop where
  | null : Overlaid a .null a
  | objects {as bs ms : List (String × Value)} (ha : a = .object as)
      (hms : overMembers as bs = .ok ms) : Overlaid a (.object bs) (.object ms)
  | lists {xs ys zs : List Value} (ha : a = .list xs) (hzs : union xs ys = .ok zs) :
      Overlaid a (.list ys) (.list zs)
  /-- The upper value replaces the lower one, which is of another kind. -/
  | replaced {b : Value} (hnull : b ≠ .null)
      (hobject : ∀ bs, b = .object bs → ∀ as, a ≠ .object as)
      (hlist : ∀ ys, b = .list ys → ∀ xs, a ≠ .list xs) : Overlaid a b b

section

variable {P : Value → Bool} {a b merged : Value} {p : List String}

theorem overlaid_of_overlay (h : overlay a b = .ok merged) : Overlaid a b merged := by
  cases b with
  | null =>
    rw [overlay, Except.ok.injEq] at h
    exact h ▸ .null
  | object bs =>
    cases a with
    | object as =>
      rw [overlay] at h
      obtain ⟨ms, hms, hmerged⟩ := exists_of_bind_eq_ok h
      exact Except.ok.inj hmerged ▸ .objects rfl hms
    | _ =>
      rw [overlay, Except.ok.injEq] at h
      · exact h ▸ .replaced (by simp) (by simp) (by simp)
      · simp
  | list ys =>
    cases a with
    | list xs =>
      rw [overlay] at h
      obtain ⟨zs, hzs, hmerged⟩ := exists_of_bind_eq_ok h
      exact Except.ok.inj hmerged ▸ .lists rfl hzs
    | _ =>
      rw [overlay, Except.ok.injEq] at h
      · exact h ▸ .replaced (by simp) (by simp) (by simp)
      · simp
  | _ =>
    rw [overlay, Except.ok.injEq] at h
    · exact h ▸ .replaced (by simp) (by simp) (by simp)
    all_goals simp

theorem nodup_of_keyed {members : List (String × Value)} (h : Throughout keyed (.object members)) :
    (members.map (·.1)).Nodup := of_decide_eq_true h.here

/-- **Merging keeps what holds throughout.** -/
theorem throughout_overlay (hP : Kept P) (h : overlay a b = .ok merged)
    (hkeyed : Throughout keyed b) (ha : Throughout P a) (hb : Throughout P b) :
    Throughout P merged := by
  intro p w hw
  induction p generalizing a b merged with
  | nil =>
    obtain rfl := Option.some_inj.1 hw
    cases overlaid_of_overlay h with
    | null => exact ha.here
    | objects heq hms =>
      subst heq
      exact of_overMembers (P := fun ms => P (.object ms) = true) hP.insert hms ha.here
    | lists heq hzs =>
      subst heq
      exact hP.union _ _ _ ha.here hb.here hzs
    | replaced => exact hb.here
  | cons key p ih =>
    cases overlaid_of_overlay h with
    | null => exact ha _ w hw
    | @objects as bs ms heq hms =>
      subst heq
      rw [path?] at hw
      obtain ⟨u, hu, hw⟩ := Option.bind_eq_some_iff.1 hw
      have hkey := laidUnder_of_overMembers hms (nodup_of_keyed hkeyed) key
      generalize ha' : lookup key as = a?, hb' : lookup key bs = b? at hkey
      rw [hu] at hkey
      cases hkey with
      | below => exact ha.member ha' p w hw
      | above => exact hb.member hb' p w hw
      | both hmerged => exact ih hmerged (hkeyed.member hb') (ha.member ha') (hb.member hb') hw
    | lists => cases hw
    | replaced => exact hb _ w hw

/-- **The upper layer has the word unless it is silent.** -/
theorem valueAt_overlay (h : overlay a b = .ok merged) (hkeyed : Throughout keyed b)
    (hscalar : ∀ x y, wordOf p a = .gives x → wordOf p b = .gives y → x.isHashable ∨ y.isHashable) :
    valueAt p merged = (wordOf p b).over (valueAt p a) := by
  induction p generalizing a b merged with
  | nil =>
    cases overlaid_of_overlay h with
    | null => rfl
    | objects heq hms =>
      subst heq
      simpa [isHashable] using hscalar _ _ rfl rfl
    | lists heq hzs =>
      subst heq
      simpa [isHashable] using hscalar _ _ rfl rfl
    | replaced hnull =>
      cases b with
      | null => exact absurd rfl hnull
      | _ => rfl
  | cons key p ih =>
    cases overlaid_of_overlay h with
    | null => rfl
    | @objects as bs ms heq hms =>
      subst heq
      rw [valueAt_object_cons, valueAt_object_cons, wordOf]
      have hkey := laidUnder_of_overMembers hms (nodup_of_keyed hkeyed) key
      generalize ha' : lookup key as = a?, hb' : lookup key bs = b?, lookup key ms = m? at hkey ⊢
      cases hkey with
      | below => rfl
      | null => rw [Option.bind_none, over_wordOf_none, valueAt_null]
      | above => exact (over_wordOf_none p _).symm
      | both hmerged =>
        refine ih hmerged (hkeyed.member hb') fun x y hx hy => hscalar x y ?_ ?_
        · rw [wordOf, ha']
          exact hx
        · rw [wordOf, hb']
          exact hy
    | lists => rfl
    | replaced hnull hobject hlist =>
      cases b with
      | null => exact absurd rfl hnull
      | object bs =>
        rw [valueAt_cons_of_not_object (hobject bs rfl), over_wordOf_none]
      | _ => rfl

end

mutual

theorem exists_overlay : ∀ (b : Value) {a : Value}, Throughout keyed b → Throughout flat a →
    Throughout flat b → ∃ merged, overlay a b = .ok merged
  | .object bs, a, hkeyed, ha, hb => by
    cases a with
    | object as =>
      obtain ⟨ms, hms⟩ := exists_overMembers bs (nodup_of_keyed hkeyed)
        (fun key v hv => hkeyed.member hv) ha fun key v hv => hb.member hv
      exact ⟨.object ms, by rw [overlay, hms]; rfl⟩
    | _ => exact ⟨_, rfl⟩
  | .list ys, a, hkeyed, ha, hb => by
    cases a with
    | list xs =>
      have hall : (xs ++ ys).all isHashable = true := by
        rw [List.all_append, Bool.and_eq_true]
        exact ⟨ha.here, hb.here⟩
      exact ⟨_, by rw [overlay, union, if_pos hall]; rfl⟩
    | _ => exact ⟨_, rfl⟩
  | .null, a, _, _, _ | .bool _, a, _, _, _ | .int _, a, _, _, _ | .num _, a, _, _, _
  | .str _, a, _, _, _ => ⟨_, rfl⟩

theorem exists_overMembers : ∀ (bs : List (String × Value)) {as : List (String × Value)},
    (bs.map (·.1)).Nodup → (∀ key v, lookup key bs = some v → Throughout keyed v) →
    Throughout flat (.object as) → (∀ key v, lookup key bs = some v → Throughout flat v) →
    ∃ ms, overMembers as bs = .ok ms
  | [], as, _, _, _, _ => ⟨as, rfl⟩
  | (k, b) :: bs, as, hkeys, hkeyed, has, hflat => by
    obtain ⟨hk, hkeys⟩ := List.nodup_cons.1 hkeys
    have hfirst : lookup k ((k, b) :: bs) = some b := by rw [lookup, if_pos rfl]
    have hlater : ∀ {key v}, lookup key bs = some v → lookup key ((k, b) :: bs) = some v := by
      intro key v hv
      have hne : k ≠ key := by
        rintro rfl
        cases (lookup_eq_none_iff.2 hk).symm.trans hv
      rwa [lookup, if_neg hne]
    have hrest : ∀ as', Throughout flat (.object as') → ∃ ms, overMembers as' bs = .ok ms :=
      fun as' has' => exists_overMembers bs hkeys (fun key v hv => hkeyed key v (hlater hv)) has'
        fun key v hv => hflat key v (hlater hv)
    have hb := hflat k b hfirst
    rw [overMembers]
    cases ha : lookup k as with
    | none =>
      refine hrest _ ?_
      split
      · exact has
      · exact has.insert kept_flat hb
    | some a =>
      obtain ⟨merged, hmerged⟩ := exists_overlay b (hkeyed k b hfirst) (has.member ha) hb
      dsimp only
      rw [hmerged]
      exact hrest _ (has.insert kept_flat
        (throughout_overlay kept_flat hmerged (hkeyed k b hfirst) (has.member ha) hb))

end

/-! ## Layers -/

/-- An object in which no key stands twice and whose lists can be merged. -/
structure InOrder (v : Value) : Prop where
  isObject : ∃ members, v = .object members
  keyed : Throughout keyed v
  flat : Throughout flat v

theorem inOrder_empty : InOrder (.object []) :=
  ⟨⟨[], rfl⟩, throughout_of_everywhere rfl, throughout_of_everywhere rfl⟩

theorem merge_eq_ok {a b merged : Value} (h : merge a b = .ok merged) :
    overlay a b = .ok merged ∧ (∃ as, a = .object as) ∧ (∃ bs, b = .object bs) ∧
      ∃ ms, merged = .object ms := by
  cases a with
  | object as =>
    cases b with
    | object bs =>
      rw [merge] at h
      refine ⟨by rw [overlay]; exact h, ⟨as, rfl⟩, ⟨bs, rfl⟩, ?_⟩
      obtain ⟨ms, -, hmerged⟩ := exists_of_bind_eq_ok h
      exact ⟨ms, (Except.ok.inj hmerged).symm⟩
    | _ => cases h
  | _ => cases h

theorem InOrder.merge {a b merged : Value} (ha : InOrder a) (hb : InOrder b)
    (h : merge a b = .ok merged) : InOrder merged := by
  obtain ⟨hoverlay, -, -, hobject⟩ := merge_eq_ok h
  exact ⟨hobject, throughout_overlay kept_keyed hoverlay hb.keyed ha.keyed hb.keyed,
    throughout_overlay kept_flat hoverlay hb.keyed ha.flat hb.flat⟩

theorem InOrder.exists_merge {a b : Value} (ha : InOrder a) (hb : InOrder b) :
    ∃ merged, Settings.merge a b = .ok merged ∧ InOrder merged := by
  obtain ⟨as, rfl⟩ := ha.isObject
  obtain ⟨bs, rfl⟩ := hb.isObject
  obtain ⟨merged, hmerged⟩ := exists_overlay _ hb.keyed ha.flat hb.flat
  rw [overlay] at hmerged
  exact ⟨merged, hmerged, ha.merge hb hmerged⟩

theorem of_foldlM {ε α β : Type} {f : β → α → Except ε β} {P : β → Prop} {xs : List α} {b b' : β}
    (hstep : ∀ a ∈ xs, ∀ b b', P b → f b a = .ok b' → P b') (hb : P b)
    (h : xs.foldlM f b = .ok b') : P b' := by
  induction xs generalizing b with
  | nil => exact Except.ok.inj h ▸ hb
  | cons a xs ih =>
    rw [List.foldlM_cons] at h
    obtain ⟨c, hc, h⟩ := exists_of_bind_eq_ok h
    rw [List.forall_mem_cons] at hstep
    exact ih hstep.2 (hstep.1 b c hb hc) h

theorem inOrder_default {p : Plugin} {v : Value} (h : p.defaults? = some v) : InOrder v := by
  cases p <;> cases h <;>
    exact ⟨⟨_, rfl⟩, throughout_of_everywhere (by decide +kernel),
      throughout_of_everywhere (by decide +kernel)⟩

theorem inOrder_defaults {plugins : List Plugin} {v : Value}
    (h : Plugin.defaults plugins = .ok v) : InOrder v := by
  refine of_foldlM (P := InOrder) (fun layer hlayer a b ha h => ha.merge ?_ h) inOrder_empty h
  obtain ⟨p, -, hp⟩ := List.mem_filterMap.1 hlayer
  exact inOrder_default hp

/-! ## Layers from files -/

/-- A value is set in an object, whose member on the way is set first. -/
theorem setAt_cons {v w w' : Value} {key : String} {rest : List String}
    (h : setAt v (key :: rest) w = .ok w') :
    ∃ members inner, w = .object members ∧ w' = .object (Value.insert key inner members) ∧
      (rest = [] ∧ inner = v ∨
        rest ≠ [] ∧ setAt v rest ((lookup key members).getD (.object [])) = .ok inner) := by
  cases w with
  | object members =>
    cases rest with
    | nil => exact ⟨members, v, rfl, (Except.ok.inj h).symm, .inl ⟨rfl, rfl⟩⟩
    | cons next rest =>
      rw [setAt] at h
      · obtain ⟨inner, hinner, h⟩ := exists_of_bind_eq_ok h
        exact ⟨members, inner, rfl, (Except.ok.inj h).symm, .inr ⟨List.cons_ne_nil _ _, hinner⟩⟩
      · simp
  | _ => cases rest <;> cases h

theorem throughout_setAt {P : Value → Bool} (hP : Kept P) {v w w' : Value} {path : List String}
    (hv : Throughout P v) (h : setAt v path w = .ok w') (hw : Throughout P w) :
    Throughout P w' := by
  induction path generalizing w w' with
  | nil => exact Except.ok.inj h ▸ hw
  | cons key rest ih =>
    obtain ⟨members, inner, rfl, rfl, ⟨-, rfl⟩ | ⟨-, hinner⟩⟩ := setAt_cons h
    · exact hw.insert hP hv
    · refine hw.insert hP (ih hinner ?_)
      cases hkey : lookup key members with
      | none => exact Throughout.object hP.empty (by simp [lookup])
      | some u => exact hw.member hkey

theorem setAt_object {v w' : Value} {path : List String} {members : List (String × Value)}
    (h : setAt v path (.object members) = .ok w') : ∃ members', w' = .object members' := by
  cases path with
  | nil => exact ⟨members, (Except.ok.inj h).symm⟩
  | cons key rest =>
    obtain ⟨_, _, -, rfl, -⟩ := setAt_cons h
    exact ⟨_, rfl⟩

theorem value_of_kind {kind : Kind} {style : ListStyle} {s : String} {v : Value}
    (h : kind.value style s = .ok v) : Throughout keyed v ∧ Throughout flat v := by
  have hv : (∀ members, v ≠ .object members) ∧ flat v = true := by
    cases kind with
    | bool =>
      rw [Kind.value] at h
      split at h
      · exact Except.ok.inj h ▸ ⟨by simp, rfl⟩
      · cases h
    | int =>
      rw [Kind.value] at h
      split at h
      · exact Except.ok.inj h ▸ ⟨by simp, rfl⟩
      · cases h
    | text => exact Except.ok.inj h ▸ ⟨by simp, rfl⟩
    | list =>
      refine Except.ok.inj h ▸ ⟨by simp, ?_⟩
      rw [flat, List.all_map, List.all_eq_true]
      exact fun _ _ => rfl
    | unknown name => cases h
  have hkeyed : keyed v = true := by
    cases v with
    | object members => exact absurd rfl (hv.1 members)
    | _ => rfl
  exact ⟨.of_not_object hkeyed hv.1, .of_not_object hv.2 hv.1⟩

theorem value_of_read {o : FileOption} {style : ListStyle} {ini : Ini} {name : String} {v : Value}
    (h : o.read style ini name = .ok (some v)) : Throughout keyed v ∧ Throughout flat v := by
  rw [FileOption.read] at h
  split at h
  · cases h
  · split at h
    · obtain ⟨w, hw, h⟩ := exists_of_bind_eq_ok h
      exact Option.some_inj.1 (Except.ok.inj h) ▸ value_of_kind hw
    · split at h
      · obtain ⟨w, hw, h⟩ := exists_of_bind_eq_ok h
        exact Option.some_inj.1 (Except.ok.inj h) ▸ value_of_kind hw
      · cases h

theorem inOrder_parse {style : ListStyle} {ini : Ini} {name : String} {options : List FileOption}
    {v : Value} (h : parse style ini name options = .ok v) : InOrder v := by
  refine of_foldlM (P := InOrder) (fun o _ settings next hsettings hnext => ?_) inOrder_empty h
  obtain ⟨read?, hread, hnext⟩ := exists_of_bind_eq_ok hnext
  cases read? with
  | none => exact Except.ok.inj hnext ▸ hsettings
  | some u =>
    dsimp only at hnext
    rw [setOption] at hnext
    split at hnext
    · exact Except.ok.inj hnext ▸ hsettings
    · obtain ⟨hkeyed, hflat⟩ := value_of_read hread
      obtain ⟨members, rfl⟩ := hsettings.isObject
      exact ⟨setAt_object hnext, throughout_setAt kept_keyed hkeyed hnext hsettings.keyed,
        throughout_setAt kept_flat hflat hnext hsettings.flat⟩

end LangServer.Settings
