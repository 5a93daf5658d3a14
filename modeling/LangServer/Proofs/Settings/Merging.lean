import LangServer.Proofs.Settings.Precedence
import Mathlib.Data.Set.Basic

/-!
# Laws of merging

Merging lays one tree of settings over another. Null counts as nothing here, and lists are compared
by their elements.

* **Path by path** (`laid_of_overlay`): merged settings have at a path what one layer lays over the
  other there, provided that the layers have values of the same form on the way to it.
* What a layer has at a path is its `Reading`. On readings merging is a simple operation,
  `Reading.join`, and `readingAt_overlay` says that reading turns the one into the other.
* So the laws are those of `join`: merging is associative and idempotent for layers that have values
  of the same form wherever both have one (`Congruous`), and layers that are merged one after the
  other give a single value as the last of them that has one (`valueAt_foldlM_of_congruous`).
* The defaults of plugins are such layers (`defaults_congruous`). `merging_overlays_pathwise` puts
  the laws together, for layers as such and for the two places where settings are merged.
-/

namespace LangServer

open Settings Value

namespace Settings

/-! ## Elements of lists -/

/-- The elements of a list, where values that count as the same element are not told apart. -/
def elementsOf (xs : List Value) : Set Value := { k | k ∈ xs.map asKey }

/-- A list has the elements of two lists, each of them once. -/
def IsUnion (xs ys zs : List Value) : Prop :=
  elementsOf zs = elementsOf xs ∪ elementsOf ys ∧ (zs.map asKey).Nodup

theorem mem_keys_distinct {seen xs : List Value} {k : Value} :
    k ∈ (distinct seen xs).map asKey ↔ k ∈ xs.map asKey ∧ k ∉ seen.map asKey := by
  induction xs generalizing seen with
  | nil => simp [distinct]
  | cons x xs ih =>
    rw [distinct]
    have hseen : seen.any (alike x) = true ↔ x.asKey ∈ seen.map asKey := by
      simp only [List.any_eq_true, alike_iff, List.mem_map]
      exact exists_congr fun y => and_congr_right fun _ => eq_comm
    split
    · rename_i hany
      rw [ih, List.map_cons, List.mem_cons]
      refine and_congr_left fun hk => (or_iff_right ?_).symm
      rintro rfl
      exact hk (hseen.1 hany)
    · rename_i hany
      rw [List.map_cons, List.mem_cons, ih, List.map_cons, List.map_cons, List.mem_cons,
        List.mem_cons]
      by_cases hk : k = x.asKey
      · subst hk
        simp [mt hseen.2 hany]
      · simp [hk]

theorem nodup_keys_distinct (seen xs : List Value) : ((distinct seen xs).map asKey).Nodup := by
  induction xs generalizing seen with
  | nil => simp [distinct]
  | cons x xs ih =>
    rw [distinct]
    split
    · exact ih seen
    · rw [List.map_cons, List.nodup_cons, mem_keys_distinct]
      exact ⟨fun h => h.2 List.mem_cons_self, ih (x :: seen)⟩

theorem isUnion_of_union {xs ys zs : List Value} (h : union xs ys = .ok zs) :
    IsUnion xs ys zs := by
  rw [union] at h
  split at h
  · obtain rfl := Except.ok.inj h
    refine ⟨Set.ext fun k => ?_, nodup_keys_distinct [] _⟩
    show k ∈ (distinct [] (xs ++ ys)).map asKey ↔ k ∈ xs.map asKey ∨ k ∈ ys.map asKey
    simp [mem_keys_distinct]
  · cases h

/-! ## Readings -/

/-- The forms of values that merging tells apart. -/
inductive Form where
  | object
  | list
  | single
  deriving DecidableEq

/-- What a layer has at a path: of an object only that it is one, and of a list its elements. -/
inductive Reading where
  | nothing
  | object
  | list (elements : Set Value)
  | single (v : Value)

namespace Reading

/-- How a value is read. -/
def of : Option Value → Reading
  | none => nothing
  | some (.object _) => object
  | some (.list xs) => list (elementsOf xs)
  | some v => single v

def form? : Reading → Option Form
  | nothing => none
  | object => some .object
  | list _ => some .list
  | single _ => some .single

/-- One reading over another: elements are put together, and else the upper one counts. -/
def join : Reading → Reading → Reading
  | r, nothing => r
  | list xs, list ys => list (xs ∪ ys)
  | _, s => s

/-- Two readings have the same form, or one of them has none. -/
def Fits (r s : Reading) : Prop := ∀ f g, r.form? = some f → s.form? = some g → f = g

variable {r s t : Reading}

theorem Fits.refl (r : Reading) : r.Fits r := fun _ _ hf hg => Option.some_inj.1 (hf.symm.trans hg)

theorem Fits.symm (h : r.Fits s) : s.Fits r := fun f g hf hg => (h g f hg hf).symm

theorem join_nothing (r : Reading) : r.join nothing = r := by cases r <;> rfl

theorem nothing_join (r : Reading) : nothing.join r = r := by cases r <;> rfl

theorem join_self (r : Reading) : r.join r = r := by
  cases r with
  | list xs => exact congrArg list (Set.union_self xs)
  | nothing | object | single => rfl

theorem form?_join (r s : Reading) : (r.join s).form? = s.form?.or r.form? := by
  cases r <;> cases s <;> rfl

theorem Fits.join (hr : r.Fits t) (hs : s.Fits t) : (r.join s).Fits t := by
  intro f g hf hg
  rw [form?_join] at hf
  cases hform : s.form? with
  | none =>
    rw [hform] at hf
    exact hr f g hf hg
  | some f' =>
    rw [hform] at hf
    exact Option.some_inj.1 hf ▸ hs f' g hform hg

/-- Readings of one form are joined in any grouping. A single value between two lists would hide
the first of them on one side only. -/
theorem join_assoc (hrs : r.Fits s) (hst : s.Fits t) :
    (r.join s).join t = r.join (s.join t) := by
  cases s with
  | nothing => rw [join_nothing, nothing_join]
  | object =>
    cases t with
    | nothing => rw [join_nothing, join_nothing]
    | object => cases r <;> rfl
    | _ => cases hst _ _ rfl rfl
  | list ys =>
    cases t with
    | nothing => rw [join_nothing, join_nothing]
    | list zs =>
      cases r with
      | nothing => rfl
      | list xs => exact congrArg list (Set.union_assoc xs ys zs)
      | _ => cases hrs _ _ rfl rfl
    | _ => cases hst _ _ rfl rfl
  | single v =>
    cases t with
    | nothing => rw [join_nothing, join_nothing]
    | single w => cases r <;> rfl
    | _ => cases hst _ _ rfl rfl

end Reading

/-- What a layer has at a path. -/
def readingAt (p : List String) (v : Value) : Reading := .of (valueAt p v)

/-- The layers have values of the same form wherever both have one. -/
def Congruous (a b : Value) : Prop := ∀ p, (readingAt p a).Fits (readingAt p b)

/-- The layers have the same at every path. -/
def Agree (a b : Value) : Prop := ∀ p, readingAt p a = readingAt p b

/-- The layers have values of the same form wherever both have one on the way to a path. -/
def FitAlong (p : List String) (a b : Value) : Prop :=
  ∀ q, q <+: p → q ≠ p → (readingAt q a).Fits (readingAt q b)

section

variable {p : List String} {a b c m v w x y : Value}

theorem Congruous.fitAlong (h : Congruous a b) (p : List String) : FitAlong p a b :=
  fun q _ _ => h q

theorem ne_null_of_valueAt (h : valueAt p v = some w) : w ≠ .null := by
  have hnull := (Option.filter_eq_some_iff.1 h).2
  rintro rfl
  cases hnull

theorem valueAt_nil (h : v ≠ .null) : valueAt [] v = some v := by
  cases v with
  | null => exact absurd rfl h
  | _ => rfl

theorem of_eq_nothing_iff {x : Option Value} : Reading.of x = .nothing ↔ x = none := by
  cases x with
  | none => simp [Reading.of]
  | some v => cases v <;> simp [Reading.of]

theorem valueAt_of_readingAt_single (h : readingAt p v = .single w) : valueAt p v = some w := by
  rw [readingAt] at h
  cases hv : valueAt p v with
  | none =>
    rw [hv] at h
    cases h
  | some u =>
    rw [hv] at h
    cases u with
    | list | object => cases h
    | _ => exact congrArg some (Reading.single.inj h)

theorem cases_of_fits (h : (Reading.of (some x)).Fits (.of (some y))) :
    (∃ as bs, x = .object as ∧ y = .object bs) ∨ (∃ xs ys, x = .list xs ∧ y = .list ys) ∨
      (∀ ms, x ≠ .object ms) ∧ ∀ ms, y ≠ .object ms := by
  cases x with
  | object as =>
    cases y with
    | object bs => exact .inl ⟨as, bs, rfl, rfl⟩
    | _ => cases h _ _ rfl rfl
  | list xs =>
    cases y with
    | list ys => exact .inr (Or.inl ⟨xs, ys, rfl, rfl⟩)
    | _ => cases h _ _ rfl rfl
  | _ =>
    cases y with
    | object | list => cases h _ _ rfl rfl
    | _ => exact .inr (Or.inr ⟨by simp, by simp⟩)

/-! ## Path by path -/

/-- What there is at a path when a layer that has `y` there is laid over one that has `x`. -/
def Laid (x y z : Option Value) : Prop :=
  match x, y with
  | some x, some y => ∃ w, overlay x y = .ok w ∧ z = some w
  | x, none => z = x
  | none, y => z = y

theorem laid_none_left (y : Option Value) : Laid none y y := by cases y <;> rfl

theorem laid_none_right (x : Option Value) : Laid x none x := by cases x <;> rfl

theorem ne_null_of_overlay (h : overlay a b = .ok m) (hb : b ≠ .null) : m ≠ .null := by
  cases overlaid_of_overlay h with
  | null => exact absurd rfl hb
  | objects => simp
  | lists => simp
  | replaced => exact hb

theorem FitAlong.member {key : String} {as bs : List (String × Value)}
    (h : FitAlong (key :: p) (.object as) (.object bs)) (ha : lookup key as = some a)
    (hb : lookup key bs = some b) : FitAlong p a b := by
  intro q hq hne
  have hfits := h (key :: q) (List.cons_prefix_cons.2 ⟨rfl, hq⟩) fun heq =>
    hne (List.cons.inj heq).2
  rwa [readingAt, readingAt, valueAt_object_cons, valueAt_object_cons, ha, hb] at hfits

/-- **Merging works path by path.** -/
theorem laid_of_overlay (h : overlay a b = .ok m) (hkeyed : Throughout keyed b)
    (hfits : FitAlong p a b) : Laid (valueAt p a) (valueAt p b) (valueAt p m) := by
  induction p generalizing a b m with
  | nil =>
    by_cases hb : b = .null
    · subst hb
      rw [overlay, Except.ok.injEq] at h
      rw [h]
      exact laid_none_right _
    by_cases ha : a = .null
    · subst ha
      cases overlaid_of_overlay h with
      | null => exact absurd rfl hb
      | objects heq => cases heq
      | lists heq => cases heq
      | replaced => exact laid_none_left _
    rw [valueAt_nil ha, valueAt_nil hb, valueAt_nil (ne_null_of_overlay h hb)]
    exact ⟨m, h, rfl⟩
  | cons key p ih =>
    cases overlaid_of_overlay h with
    | null => exact laid_none_right _
    | lists heq =>
      subst heq
      exact laid_none_left none
    | @objects as bs ms heq hms =>
      subst heq
      rw [valueAt_object_cons, valueAt_object_cons, valueAt_object_cons]
      have hkey := laidUnder_of_overMembers hms (nodup_of_keyed hkeyed) key
      generalize ha' : lookup key as = a?, hb' : lookup key bs = b?, lookup key ms = m? at hkey ⊢
      cases hkey with
      | below => exact laid_none_right _
      | null =>
        rw [Option.bind_some, valueAt_null]
        rfl
      | above => exact laid_none_left _
      | both hmerged => exact ih hmerged (hkeyed.member hb') (hfits.member ha' hb')
    | replaced hnull hobject hlist =>
      by_cases ha : a = .null
      · rw [ha, valueAt_null]
        exact laid_none_left _
      -- both layers have something that is no object in the way
      have hroot := hfits [] List.nil_prefix (List.cons_ne_nil key p).symm
      rw [readingAt, readingAt, valueAt_nil ha, valueAt_nil hnull] at hroot
      rcases cases_of_fits hroot with ⟨as, bs, rfl, hbs⟩ | ⟨xs, ys, rfl, hys⟩ | ⟨hna, hnb⟩
      · exact absurd rfl (hobject bs hbs as)
      · exact absurd rfl (hlist ys hys xs)
      · rw [valueAt_cons_of_not_object hna, valueAt_cons_of_not_object hnb]
        rfl

theorem path?_of_overlay (h : overlay a b = .ok m) (hkeyed : Throughout keyed b)
    (hw : m.path? p = some w) : (a.path? p).isSome = true ∨ (b.path? p).isSome = true := by
  induction p generalizing a b m with
  | nil => exact .inl rfl
  | cons key p ih =>
    cases overlaid_of_overlay h with
    | null => exact .inl (by rw [hw]; rfl)
    | lists => cases hw
    | replaced => exact .inr (by rw [hw]; rfl)
    | @objects as bs ms heq hms =>
      subst heq
      rw [path?] at hw
      obtain ⟨u, hu, hw⟩ := Option.bind_eq_some_iff.1 hw
      have hkey := laidUnder_of_overMembers hms (nodup_of_keyed hkeyed) key
      rw [path?, path?]
      generalize lookup key as = a?, hb' : lookup key bs = b? at hkey ⊢
      rw [hu] at hkey
      cases hkey with
      | below => exact .inl (by rw [Option.bind_some, hw]; rfl)
      | above => exact .inr (by rw [Option.bind_some, hw]; rfl)
      | both hmerged => exact ih hmerged (hkeyed.member hb') hw

/-! ## Readings of merged settings -/

theorem reading_of_overlay (hy : y ≠ .null) (h : overlay x y = .ok w) :
    Reading.of (some w) = (Reading.of (some x)).join (.of (some y)) := by
  cases overlaid_of_overlay h with
  | null => exact absurd rfl hy
  | objects heq =>
    subst heq
    rfl
  | lists heq hzs =>
    subst heq
    exact congrArg Reading.list (isUnion_of_union hzs).1
  | replaced hnull _ hlist =>
    cases w with
    | list ys =>
      cases x with
      | list xs => exact absurd rfl (hlist ys rfl xs)
      | _ => rfl
    | null => exact absurd rfl hnull
    | _ => cases x <;> rfl

/-- **Reading turns merging into joining.** -/
theorem readingAt_overlay (h : overlay a b = .ok m) (hkeyed : Throughout keyed b)
    (hfits : FitAlong p a b) : readingAt p m = (readingAt p a).join (readingAt p b) := by
  have hlaid := laid_of_overlay h hkeyed hfits
  rw [readingAt, readingAt, readingAt]
  cases hy : valueAt p b with
  | none =>
    rw [hy] at hlaid
    have heq : valueAt p m = valueAt p a := by
      cases hx : valueAt p a with
      | none => rwa [hx] at hlaid
      | some x => rwa [hx] at hlaid
    rw [heq]
    exact (Reading.join_nothing _).symm
  | some y =>
    rw [hy] at hlaid
    cases hx : valueAt p a with
    | none =>
      rw [hx] at hlaid
      rw [show valueAt p m = some y from hlaid]
      exact (Reading.nothing_join _).symm
    | some x =>
      rw [hx] at hlaid
      obtain ⟨w, hw, heq⟩ := hlaid
      rw [heq]
      exact reading_of_overlay (ne_null_of_valueAt hy) hw

theorem Congruous.symm (h : Congruous a b) : Congruous b a := fun p => (h p).symm

theorem Congruous.readingAt_merge (h : Congruous a b) (hb : InOrder b) (hm : merge a b = .ok m)
    (p : List String) : readingAt p m = (readingAt p a).join (readingAt p b) :=
  readingAt_overlay (merge_eq_ok hm).1 hb.keyed (h.fitAlong p)

theorem Congruous.merge (h : Congruous a b) (hb : InOrder b) (hm : merge a b = .ok m)
    (hac : Congruous a c) (hbc : Congruous b c) : Congruous m c := by
  intro p
  rw [h.readingAt_merge hb hm]
  exact (hac p).join (hbc p)

/-- The settings as a whole are objects, so that they fit where nothing is set yet. -/
theorem congruous_empty (hb : InOrder b) : Congruous (.object []) b := by
  intro p
  cases p with
  | nil =>
    obtain ⟨members, rfl⟩ := hb.isObject
    exact Reading.Fits.refl _
  | cons key p =>
    intro f g hf
    cases hf

end

/-! ## Layers one after the other -/

section

variable {p : List String} {layers : List Value} {acc v : Value}

theorem readingAt_foldlM (hlayers : ∀ layer ∈ layers, InOrder layer)
    (hcongruous : (acc :: layers).Pairwise Congruous) (h : layers.foldlM merge acc = .ok v) :
    readingAt p v = layers.foldl (fun r layer => r.join (readingAt p layer)) (readingAt p acc) := by
  induction layers generalizing acc with
  | nil => exact congrArg _ (Except.ok.inj h).symm
  | cons layer layers ih =>
    rw [List.forall_mem_cons] at hlayers
    rw [List.foldlM_cons] at h
    obtain ⟨acc', hacc', h⟩ := exists_of_bind_eq_ok h
    obtain ⟨hacc, hrest⟩ := List.pairwise_cons.1 hcongruous
    obtain ⟨hlayer, hrest⟩ := List.pairwise_cons.1 hrest
    rw [List.forall_mem_cons] at hacc
    rw [ih hlayers.2 (List.pairwise_cons.2 ⟨fun c hc => ?_, hrest⟩) h, List.foldl_cons,
      hacc.1.readingAt_merge hlayers.1 hacc']
    exact hacc.1.merge hlayers.1 hacc' (hacc.2 c hc) (hlayer c hc)

theorem foldl_join_of_single
    (h : ∀ layer ∈ layers, ∀ x, valueAt p layer = some x → x.isHashable = true) (r : Reading) :
    layers.foldl (fun r layer => r.join (readingAt p layer)) r =
      match firstGiven p layers.reverse with
      | some x => .single x
      | none => r := by
  induction layers generalizing r with
  | nil => rfl
  | cons layer layers ih =>
    rw [List.forall_mem_cons] at h
    rw [List.foldl_cons, ih h.2, List.reverse_cons, firstGiven_append]
    cases firstGiven p layers.reverse with
    | some x => rfl
    | none =>
      rw [Option.none_or, firstGiven_cons, readingAt]
      cases hx : valueAt p layer with
      | none => exact Reading.join_nothing r
      | some x =>
        have hhash := h.1 x hx
        cases x with
        | list | object => cases hhash
        | _ => cases r <;> rfl

/-- **The last layer that gives a single value decides.** -/
theorem valueAt_foldlM_of_congruous (hlayers : ∀ layer ∈ layers, InOrder layer)
    (hcongruous : layers.Pairwise Congruous) (h : layers.foldlM merge (.object []) = .ok v)
    (hsingle : ∀ layer ∈ layers, ∀ x, valueAt p layer = some x → x.isHashable = true)
    (hp : p ≠ []) : valueAt p v = firstGiven p layers.reverse := by
  have hreading := readingAt_foldlM (p := p) hlayers
    (List.pairwise_cons.2 ⟨fun b hb => congruous_empty (hlayers b hb), hcongruous⟩) h
  rw [foldl_join_of_single hsingle] at hreading
  cases hfirst : firstGiven p layers.reverse with
  | some x =>
    rw [hfirst] at hreading
    exact valueAt_of_readingAt_single hreading
  | none =>
    rw [hfirst] at hreading
    cases p with
    | nil => exact absurd rfl hp
    | cons key p => exact of_eq_nothing_iff.1 hreading

end

/-! ## Layers of the same form -/

mutual

/-- Finds out whether values have the same form wherever both have one. -/
def isCongruous (a : Value) : Value → Bool
  | .null => true
  | .object bs =>
    match a with
    | .object as => isCongruousIn as bs
    | a => a.isNull
  | .list _ =>
    match a with
    | .list _ => true
    | a => a.isNull
  | _ => a.isHashable

def isCongruousIn (as : List (String × Value)) : List (String × Value) → Bool
  | [] => true
  | (key, b) :: bs =>
    (match lookup key as with
      | some a => isCongruous a b
      | none => true) && isCongruousIn as bs

end

section

variable {a b : Value} {as bs : List (String × Value)} {key : String}

theorem isCongruous_of_lookup (h : isCongruousIn as bs = true) (ha : lookup key as = some a)
    (hb : lookup key bs = some b) : isCongruous a b = true := by
  induction bs with
  | nil => cases hb
  | cons m bs ih =>
    obtain ⟨k, b'⟩ := m
    rw [isCongruousIn, Bool.and_eq_true] at h
    rw [lookup] at hb
    split at hb
    · rename_i hk
      rw [hk, ha] at h
      exact Option.some_inj.1 hb ▸ h.1
    · exact ih h.2 hb

theorem fits_of_valueAt_eq_none {p : List String} (h : valueAt p a = none ∨ valueAt p b = none) :
    (readingAt p a).Fits (readingAt p b) := by
  intro f g hf hg
  rcases h with h | h
  · rw [readingAt, h] at hf
    cases hf
  · rw [readingAt, h] at hg
    cases hg

theorem congruous_of_isCongruous (h : isCongruous a b = true) : Congruous a b := by
  intro p
  induction p generalizing a b with
  | nil =>
    cases b with
    | null => exact fits_of_valueAt_eq_none (Or.inr rfl)
    | object bs =>
      cases a with
      | null => exact fits_of_valueAt_eq_none (Or.inl rfl)
      | object as => exact Reading.Fits.refl .object
      | _ => cases h
    | list ys =>
      cases a with
      | null => exact fits_of_valueAt_eq_none (Or.inl rfl)
      | list xs => exact fun f g hf hg => Option.some_inj.1 (hf.symm.trans hg)
      | _ => cases h
    | _ =>
      cases a with
      | null => exact fits_of_valueAt_eq_none (Or.inl rfl)
      | bool | int | num | str => exact fun f g hf hg => Option.some_inj.1 (hf.symm.trans hg)
      | list | object => cases h
  | cons key p ih =>
    by_cases hobjects : (∃ as, a = .object as) ∧ ∃ bs, b = .object bs
    · obtain ⟨⟨as, rfl⟩, bs, rfl⟩ := hobjects
      rw [isCongruous] at h
      rw [readingAt, readingAt, valueAt_object_cons, valueAt_object_cons]
      cases ha : lookup key as with
      | none => exact fun f g hf => nomatch hf
      | some a' =>
        cases hb : lookup key bs with
        | none => exact fun f g _ hg => nomatch hg
        | some b' => exact ih (isCongruous_of_lookup h ha hb)
    · refine fits_of_valueAt_eq_none ?_
      by_cases ha : ∃ as, a = .object as
      · exact .inr (valueAt_cons_of_not_object (fun bs hb => hobjects ⟨ha, bs, hb⟩) key p)
      · exact .inl (valueAt_cons_of_not_object (fun as heq => ha ⟨as, heq⟩) key p)

end

theorem defaults_congruous {layers : List Value}
    (h : ∀ v ∈ layers, ∃ p, Plugin.defaults? p = some v) :
    (∀ v ∈ layers, InOrder v) ∧ layers.Pairwise Congruous := by
  have hpairs : ∀ p q : Plugin, ∀ a b, Plugin.defaults? p = some a → Plugin.defaults? q = some b →
      isCongruous a b = true := by
    have hall : ∀ a ∈ Plugin.all.filterMap Plugin.defaults?,
        ∀ b ∈ Plugin.all.filterMap Plugin.defaults?, isCongruous a b = true := by decide +kernel
    intro p q a b ha hb
    exact hall a (List.mem_filterMap.2 ⟨p, Plugin.mem_all p, ha⟩) b
      (List.mem_filterMap.2 ⟨q, Plugin.mem_all q, hb⟩)
  constructor
  · intro v hv
    obtain ⟨p, hp⟩ := h v hv
    exact inOrder_default hp
  · refine List.pairwise_of_forall_mem_list fun a ha b hb => ?_
    obtain ⟨p, hp⟩ := h a ha
    obtain ⟨q, hq⟩ := h b hb
    exact congruous_of_isCongruous (hpairs p q a b hp hq)

/-! ## The laws -/

/-- Whatever stands on the way to a path is an object. -/
def OpenTo (p : List String) (v : Value) : Prop :=
  ∀ q, q <+: p → q ≠ p → ∀ w, valueAt q v = some w → ∃ members, w = .object members

/-- What merged settings have at a path where the lower layer has `x` and the upper one has `y`. -/
def Covers (x y z : Option Value) : Prop :=
  match x, y with
  | some (.list xs), some (.list ys) => ∃ zs, z = some (.list zs) ∧ IsUnion xs ys zs
  | some (.object as), some (.object bs) =>
    ∃ m, merge (.object as) (.object bs) = .ok m ∧ z = some m
  | _, some y => z = some y
  | x, none => z = x

/-- Merged settings have what the layers have, path by path, and no keys besides. -/
structure Overlays (a b m : Value) : Prop where
  covers : ∀ p, OpenTo p a → OpenTo p b → Covers (valueAt p a) (valueAt p b) (valueAt p m)
  isSome_or : ∀ p, (m.path? p).isSome = true →
    (a.path? p).isSome = true ∨ (b.path? p).isSome = true

/-- Three layers can be merged in either grouping, and give the same. -/
def Associates (a b c : Value) : Prop :=
  ∃ ab bc l r, merge a b = .ok ab ∧ merge ab c = .ok l ∧ merge b c = .ok bc ∧ merge a bc = .ok r ∧
    Agree l r

/-- Where the layers have single values only, the last of them that has one decides. -/
def LastDecides (layers : List Value) (v : Value) : Prop :=
  ∀ p, p ≠ [] → (∀ layer ∈ layers, ∀ x, valueAt p layer = some x → x.isHashable = true) →
    valueAt p v = firstGiven p layers.reverse

section

variable {p : List String} {a b c m v : Value} {layers : List Value}

theorem OpenTo.fitAlong (ha : OpenTo p a) (hb : OpenTo p b) : FitAlong p a b := by
  intro q hq hne
  cases hx : valueAt q a with
  | none => exact fits_of_valueAt_eq_none (Or.inl hx)
  | some x =>
    cases hy : valueAt q b with
    | none => exact fits_of_valueAt_eq_none (Or.inr hy)
    | some y =>
      obtain ⟨as, rfl⟩ := ha q hq hne x hx
      obtain ⟨bs, rfl⟩ := hb q hq hne y hy
      rw [readingAt, readingAt, hx, hy]
      exact Reading.Fits.refl .object

theorem covers_of_overlay {x y z : Value} (hy : y ≠ .null) (h : overlay x y = .ok z) :
    Covers (some x) (some y) (some z) := by
  cases overlaid_of_overlay h with
  | null => exact absurd rfl hy
  | objects heq =>
    subst heq
    rw [overlay] at h
    exact ⟨_, h, rfl⟩
  | lists heq hzs =>
    subst heq
    exact ⟨_, rfl, isUnion_of_union hzs⟩
  | replaced _ hobject hlist =>
    rw [Covers]
    · exact fun xs ys hx hy => hlist ys hy xs (Option.some_inj.1 hx)
    · exact fun as bs hx hy => hobject bs hy as (Option.some_inj.1 hx)

theorem covers_of_laid (h : Laid (valueAt p a) (valueAt p b) (valueAt p m)) :
    Covers (valueAt p a) (valueAt p b) (valueAt p m) := by
  cases hy : valueAt p b with
  | none =>
    rw [hy] at h
    rw [Covers]
    cases hx : valueAt p a <;> rwa [hx] at h
  | some y =>
    rw [hy] at h
    cases hx : valueAt p a with
    | none => rwa [hx] at h
    | some x =>
      rw [hx] at h
      obtain ⟨z, hz, heq⟩ := h
      rw [heq]
      exact covers_of_overlay (ne_null_of_valueAt hy) hz

theorem overlays_of_merge (hb : InOrder b) (h : merge a b = .ok m) : Overlays a b m where
  covers p hpa hpb := covers_of_laid (laid_of_overlay (merge_eq_ok h).1 hb.keyed (hpa.fitAlong hpb))
  isSome_or p hp := by
    obtain ⟨w, hw⟩ := Option.isSome_iff_exists.1 hp
    exact path?_of_overlay (merge_eq_ok h).1 hb.keyed hw

/-- **Merging is associative.** -/
theorem associates_of_congruous (ha : InOrder a) (hb : InOrder b) (hc : InOrder c)
    (hab : Congruous a b) (hac : Congruous a c) (hbc : Congruous b c) : Associates a b c := by
  obtain ⟨ab, hmab, habo⟩ := ha.exists_merge hb
  obtain ⟨l, hl, -⟩ := habo.exists_merge hc
  obtain ⟨bc, hmbc, hbco⟩ := hb.exists_merge hc
  obtain ⟨r, hr, -⟩ := ha.exists_merge hbco
  refine ⟨ab, bc, l, r, hmab, hl, hmbc, hr, fun p => ?_⟩
  have habc : Congruous a bc := (hbc.merge hc hmbc hab.symm hac.symm).symm
  calc readingAt p l
      = ((readingAt p a).join (readingAt p b)).join (readingAt p c) := by
        rw [(hab.merge hb hmab hac hbc).readingAt_merge hc hl, hab.readingAt_merge hb hmab]
    _ = (readingAt p a).join ((readingAt p b).join (readingAt p c)) :=
        Reading.join_assoc (hab p) (hbc p)
    _ = readingAt p r := by
        rw [habc.readingAt_merge hbco hr, hbc.readingAt_merge hc hmbc]

theorem exists_merge_self (ha : InOrder a) : ∃ m, merge a a = .ok m ∧ Agree m a := by
  obtain ⟨m, hm, -⟩ := ha.exists_merge ha
  have hself : Congruous a a := fun p => Reading.Fits.refl _
  exact ⟨m, hm, fun p => (hself.readingAt_merge ha hm p).trans (Reading.join_self _)⟩

theorem exists_lastDecides (hlayers : ∀ layer ∈ layers, InOrder layer)
    (hcongruous : layers.Pairwise Congruous) :
    ∃ v, layers.foldlM merge (.object []) = .ok v ∧ LastDecides layers v := by
  obtain ⟨v, hv⟩ := exists_foldlM_merge hlayers inOrder_empty
  exact ⟨v, hv, fun p hp hsingle => valueAt_foldlM_of_congruous hlayers hcongruous hv hsingle hp⟩

end

theorem exists_defaults (plugins : List Plugin) : ∃ v, Plugin.defaults plugins = .ok v ∧
    LastDecides (plugins.reverse.filterMap Plugin.defaults?) v := by
  have hdefaults : ∀ v ∈ plugins.reverse.filterMap Plugin.defaults?,
      ∃ p, Plugin.defaults? p = some v := by
    intro v hv
    obtain ⟨p, -, hp⟩ := List.mem_filterMap.1 hv
    exact ⟨p, hp⟩
  obtain ⟨hlayers, hcongruous⟩ := defaults_congruous hdefaults
  exact exists_lastDecides hlayers hcongruous

/-- Settings are computed by merging the defaults, the client's settings, the user's files and the
project's files. -/
theorem exists_compute_lastDecides {m : Machine} {c : Config} {path : Value}
    {projects users : List Value} (hdefaults : InOrder c.defaults) (hclient : InOrder c.client)
    (hreads : c.Reads m path projects users)
    (hcongruous : (c.defaults :: c.client :: (users.reverse ++ projects.reverse)).Pairwise
      Congruous) :
    ∃ settled, c.compute m path = .ok settled ∧
      LastDecides (c.defaults :: c.client :: (users.reverse ++ projects.reverse))
        settled.value := by
  obtain ⟨v, hv, hlast⟩ := exists_lastDecides
    (List.forall_mem_cons.2 ⟨hdefaults, List.forall_mem_cons.2 ⟨hclient, fun layer hlayer =>
      hreads.inOrder layer (by simpa [or_comm] using hlayer)⟩⟩) hcongruous
  rw [List.foldlM_cons] at hv
  obtain ⟨base, hbase, hv⟩ := exists_of_bind_eq_ok hv
  rw [List.foldlM_cons] at hv
  obtain ⟨base', hbase', hv⟩ := exists_of_bind_eq_ok hv
  obtain ⟨settled, hsettled, rfl⟩ := Config.exists_compute_iff.2
    ⟨projects, users, base, base', hreads, hbase, hbase', hv⟩
  exact ⟨settled, hsettled, hlast⟩

/-- **Merging is an overlay.** Settings in order can be merged, and the result has at each path
that both layers are open to what they have there, and no other keys. Layers of the same form can
be merged in either grouping, merging a layer with itself changes nothing, and in layers that are
merged one after the other the last single value decides: in any such layers, in the defaults of
plugins, which are always of the same form, and in the settings that a configuration computes. -/
theorem merging_overlays_pathwise :
    (∀ a b, InOrder a → InOrder b → ∃ m, merge a b = .ok m ∧ Overlays a b m) ∧
    (∀ a b c, InOrder a → InOrder b → InOrder c →
      Congruous a b → Congruous a c → Congruous b c → Associates a b c) ∧
    (∀ a, InOrder a → ∃ m, merge a a = .ok m ∧ Agree m a) ∧
    (∀ layers : List Value, (∀ layer ∈ layers, InOrder layer) → layers.Pairwise Congruous →
      ∃ v, layers.foldlM merge (.object []) = .ok v ∧ LastDecides layers v) ∧
    (∀ plugins, ∃ v, Plugin.defaults plugins = .ok v ∧
      LastDecides (plugins.reverse.filterMap Plugin.defaults?) v) ∧
    ∀ (m : Machine) (c : Config) path projects users, InOrder c.defaults → InOrder c.client →
      c.Reads m path projects users →
      (c.defaults :: c.client :: (users.reverse ++ projects.reverse)).Pairwise Congruous →
      ∃ settled, c.compute m path = .ok settled ∧
        LastDecides (c.defaults :: c.client :: (users.reverse ++ projects.reverse))
          settled.value := by
  refine ⟨fun a b ha hb => ?_, fun a b c => associates_of_congruous, fun a => exists_merge_self,
    fun layers => exists_lastDecides, exists_defaults,
    fun m c path projects users => exists_compute_lastDecides⟩
  obtain ⟨m, hm, -⟩ := ha.exists_merge hb
  exact ⟨m, hm, overlays_of_merge hb hm⟩

/-- A layer of plain settings. -/
def plainLayer : Value :=
  .object [("ignore", .list [.str "E1", .int 1]), ("lines", .object [("length", .int 80)])]

/-- A layer in which null stands for nothing, and with an element that is already there. -/
def middleLayer : Value :=
  .object [("ignore", .list [.bool true, .str "W5"]), ("lines", .object [("length", .null)]),
    ("names", .object [("public", .bool true), ("private", .null)])]

/-- A layer with the last word on the length of lines. -/
def lastLayer : Value :=
  .object [("names", .null), ("lines", .object [("length", .int 100), ("indent", .str "tab")])]

/-- A client that has set the length of lines, and no files. -/
def clientLines : Config where
  id := 0
  rootUri := "file:///w"
  rootPath := "/w"
  defaults := plainLayer
  client := lastLayer

/-- Layers that can be merged in either grouping, with and without a configuration. -/
theorem merging_overlays_length_of_lines :
    InOrder plainLayer ∧ InOrder middleLayer ∧ InOrder lastLayer ∧
    (∃ m, merge plainLayer middleLayer = .ok m ∧ Overlays plainLayer middleLayer m) ∧
    Associates plainLayer middleLayer lastLayer ∧
    (∃ m, merge middleLayer middleLayer = .ok m ∧ Agree m middleLayer) ∧
    (∃ v, [plainLayer, middleLayer, lastLayer].foldlM merge (.object []) = .ok v ∧
      valueAt ["lines", "length"] v = some (.int 100)) ∧
    (∃ v, Plugin.defaults Plugin.all = .ok v ∧
      valueAt ["plugins", "pylint", "enabled"] v = some (.bool false)) ∧
    ∃ settled, clientLines.compute {} .null = .ok settled ∧
      valueAt ["lines", "length"] settled.value = some (.int 100) := by
  have hin : ∀ {v : Value}, (∃ members, v = .object members) → everywhere keyed v = true →
      everywhere flat v = true → InOrder v := fun hobject hkeyed hflat =>
    ⟨hobject, throughout_of_everywhere hkeyed, throughout_of_everywhere hflat⟩
  have hplain : InOrder plainLayer := hin ⟨_, rfl⟩ rfl rfl
  have hmiddle : InOrder middleLayer := hin ⟨_, rfl⟩ rfl rfl
  have hlast : InOrder lastLayer := hin ⟨_, rfl⟩ rfl rfl
  have hpm : Congruous plainLayer middleLayer := congruous_of_isCongruous rfl
  have hpl : Congruous plainLayer lastLayer := congruous_of_isCongruous rfl
  have hml : Congruous middleLayer lastLayer := congruous_of_isCongruous rfl
  obtain ⟨hoverlays, hassociates, hself, hfold, hplugins, hconfig⟩ := merging_overlays_pathwise
  refine ⟨hplain, hmiddle, hlast, hoverlays _ _ hplain hmiddle,
    hassociates _ _ _ hplain hmiddle hlast hpm hpl hml, hself _ hmiddle, ?_, ?_, ?_⟩
  · obtain ⟨v, hv, hdecides⟩ := hfold [plainLayer, middleLayer, lastLayer]
      (by simp [hplain, hmiddle, hlast]) (by simp [hpm, hpl, hml])
    refine ⟨v, hv, (hdecides _ (by simp) ?_).trans rfl⟩
    decide
  · obtain ⟨v, hv, hdecides⟩ := hplugins Plugin.all
    refine ⟨v, hv, (hdecides _ (by simp) ?_).trans ?_⟩
    · decide +kernel
    · decide +kernel
  · have hreads : clientLines.Reads {} .null [.object []] [.object []] := by
      refine ⟨[.str "pycodestyle"], rfl, ?_, ?_⟩
      · exact congrArg (fun layer => [layer]) (eq_ok_of_toOption (by decide +kernel))
      · exact congrArg (fun layer => [layer]) (eq_ok_of_toOption (by decide +kernel))
    have hempty : ∀ {v}, InOrder v → Congruous v (.object []) := fun h => (congruous_empty h).symm
    obtain ⟨settled, hsettled, hdecides⟩ := hconfig {} clientLines .null _ _ hplain hlast hreads
      (by simp [clientLines, hpl, hempty hplain, hempty hlast, hempty inOrder_empty])
    exact ⟨settled, hsettled, (hdecides _ (by simp) (by decide)).trans rfl⟩

end Settings
end LangServer
