import LangServer.Proofs.Settings.Layers
import Mathlib.Data.List.Induction

/-!
# Settings built by writing

Options are written to dotted paths, one after the other, into an object that is empty at first. A
write makes objects on its way and leaves everything apart from it as it was (`isSet_of_setAt`).

When no path leads on from another, no write meets a value on its way, and what stands at a path
depends only on the last value written to it and on the paths that lead through it
(`exists_writeAll`). So writes to different paths can be put in any order.
-/

namespace LangServer.Settings

open Value

/-- Is the value an object? -/
def isObject : Value → Bool
  | .object _ => true
  | _ => false

theorem exists_of_isObject {v : Value} (h : isObject v = true) :
    ∃ members, v = .object members := by
  cases v with
  | object members => exact ⟨members, rfl⟩
  | _ => cases h

/-! ## One write -/

/-- The value `v'` is `v` with `u` set at a path. -/
structure IsSet (u : Value) (q : List String) (v v' : Value) : Prop where
  at_path : ∀ r, v'.path? (q ++ r) = u.path? r
  on_way : ∀ p, p <+: q → p ≠ q → ∃ members, v'.path? p = some (.object members)
  elsewhere : ∀ p, ¬ p <+: q → ¬ q <+: p → v'.path? p = v.path? p

section

variable {u v v' : Value} {p q : List String}

theorem path?_empty (hp : p ≠ []) : path? p (.object []) = none := by
  cases p with
  | nil => exact absurd rfl hp
  | cons key p => rfl

theorem path?_append (p q : List String) (v : Value) :
    v.path? (p ++ q) = (v.path? p).bind (path? q) := by
  induction p generalizing v with
  | nil => rfl
  | cons key p ih =>
    cases v with
    | object members =>
      rw [List.cons_append, path?, path?, Option.bind_assoc]
      exact congrArg _ (funext ih)
    | _ => rfl

theorem isSet_of_setAt (hq : q ≠ []) (h : setAt u q v = .ok v') : IsSet u q v v' := by
  induction q generalizing v v' with
  | nil => exact absurd rfl hq
  | cons key rest ih =>
    obtain ⟨members, inner, rfl, rfl, hinner⟩ := setAt_cons h
    have hset : IsSet u rest ((lookup key members).getD (.object [])) inner := by
      rcases hinner with ⟨rfl, rfl⟩ | ⟨hrest, hinner⟩
      · exact ⟨fun _ => rfl, fun p hp hne => absurd (List.prefix_nil.1 hp) hne,
          fun p _ hp => absurd List.nil_prefix hp⟩
      · exact ih hrest hinner
    refine ⟨fun r => ?_, fun p hp hne => ?_, fun p hp hq => ?_⟩
    · simp [path?, hset.at_path]
    · cases p with
      | nil => exact ⟨_, rfl⟩
      | cons k p =>
        obtain ⟨rfl, hprefix⟩ := List.cons_prefix_cons.1 hp
        simpa [path?] using hset.on_way p hprefix fun h => hne (h ▸ rfl)
    · cases p with
      | nil => exact absurd List.nil_prefix hp
      | cons k p =>
        by_cases hk : k = key
        · subst hk
          simp only [List.cons_prefix_cons, true_and] at hp hq
          rw [path?, path?, lookup_insert_self, Option.bind_some, hset.elsewhere p hp hq]
          cases lookup k members with
          | none => exact path?_empty fun h => hp (h ▸ List.nil_prefix)
          | some w => rfl
        · rw [path?, path?, lookup_insert_of_ne hk]

theorem exists_setAt (u : Value)
    (h : ∀ p x, p <+: q → p ≠ q → v.path? p = some x → isObject x = true) :
    ∃ v', setAt u q v = .ok v' := by
  induction q generalizing v with
  | nil => exact ⟨v, by simp [setAt]⟩
  | cons key rest ih =>
    obtain ⟨members, rfl⟩ :=
      exists_of_isObject (h [] v List.nil_prefix (List.cons_ne_nil _ _).symm rfl)
    cases rest with
    | nil => exact ⟨_, rfl⟩
    | cons next rest =>
      obtain ⟨inner, hinner⟩ := ih (v := (lookup key members).getD (.object [])) (by
        intro p x hp hne hx
        cases hw : lookup key members with
        | none =>
          rw [hw] at hx
          by_cases hp : p = []
          · subst hp
            exact Option.some_inj.1 hx ▸ rfl
          · cases (path?_empty hp).symm.trans hx
        | some w =>
          rw [hw] at hx
          refine h (key :: p) x (by simpa using hp) (by simpa using hne) ?_
          rw [path?, hw]
          exact hx)
      refine ⟨.object (Value.insert key inner members), ?_⟩
      rw [setAt]
      · rw [hinner]
        rfl
      · simp

end

/-! ## Many writes -/

/-- A value that is written to a dotted path. -/
structure Write where
  path : String
  value : Value
  deriving DecidableEq

namespace Write

/-- The keys on the way to the value. -/
def keys (w : Write) : List String := (Text.splitOn '.' w.path.toList).map String.ofList

/-- Is something written?  Nothing is if the value is null. -/
def counts (w : Write) : Bool := !w.value.isNull

theorem keys_ne_nil (w : Write) : w.keys ≠ [] :=
  mt List.map_eq_nil_iff.1 (Text.splitOn_ne_nil _ _)

end Write

/-- What is built by writes, one after the other. -/
def writeAll (ws : List Write) : Except Fault Value :=
  ws.foldlM (fun settings w => setOption settings w.path w.value) (.object [])

/-- No path leads on from another. -/
def PrefixFree (ws : List Write) : Prop := ∀ a ∈ ws, ∀ b ∈ ws, a.keys <+: b.keys → a.keys = b.keys

/-- The last value that is written to a path. -/
def lastAt (p : List String) (ws : List Write) : Option Value :=
  (ws.filter fun w => w.counts && w.keys == p).getLast?.map (·.value)

/-- Does the path lead to something that is written? -/
def leadsOn (p : List String) (ws : List Write) : Bool :=
  ws.any fun w => w.counts && p.isPrefixOf w.keys

/-- The value without what an object holds. -/
def face : Value → Value
  | .object _ => .object []
  | v => v

/-- What stands at a path, but for what an object holds. -/
def faceAt (p : List String) (v : Value) : Option Value := (v.path? p).map face

/-- Nothing stands below the path, which is not empty itself. -/
def IsLeaf (p : List String) (v : Value) : Prop :=
  p ≠ [] ∧ (v.path? p).isSome = true ∧ ∀ key, v.path? (p ++ [key]) = none

/-- The writes to each path come in the same order. -/
def Reordered (ws ws' : List Write) : Prop :=
  ∀ p, ws.filter (·.keys == p) = ws'.filter (·.keys == p)

section

variable {p : List String} {ws ws' : List Write} {w : Write} {u v : Value}

theorem lastAt_concat (p : List String) (ws : List Write) (w : Write) :
    lastAt p (ws ++ [w]) = if w.counts && w.keys == p then some w.value else lastAt p ws := by
  rw [lastAt, List.filter_append]
  split <;> simp [lastAt, *]

theorem lastAt_eq_none_iff : lastAt p ws = none ↔ ∀ w ∈ ws, w.counts = true → w.keys ≠ p := by
  simp [lastAt]

theorem exists_of_lastAt (h : lastAt p ws = some u) : ∃ w ∈ ws, w.counts = true ∧ w.keys = p ∧
    w.value = u := by
  obtain ⟨w, hw, rfl⟩ := Option.map_eq_some_iff.1 h
  have hmem := List.mem_filter.1 (List.mem_of_getLast? hw)
  simp only [Bool.and_eq_true, beq_iff_eq] at hmem
  exact ⟨w, hmem.1, hmem.2.1, hmem.2.2, rfl⟩

theorem leadsOn_iff : leadsOn p ws = true ↔ ∃ w ∈ ws, w.counts = true ∧ p <+: w.keys := by
  simp [leadsOn]

theorem leadsOn_concat (p : List String) (ws : List Write) (w : Write) :
    leadsOn p (ws ++ [w]) = (leadsOn p ws || w.counts && p.isPrefixOf w.keys) := by
  simp [leadsOn]

/-- What writes show at a path: the last value written to it, or an object if it leads on. -/
def shown (ws : List Write) (p : List String) : Option Value :=
  (lastAt p ws).or (if p.isEmpty || leadsOn p ws then some (.object []) else none)

theorem face_of_not_object (h : isObject v = false) : face v = v := by
  cases v with
  | object => cases h
  | _ => rfl

theorem isObject_face (v : Value) : isObject (face v) = isObject v := by cases v <;> rfl

theorem path?_of_not_object (h : isObject v = false) (hp : p ≠ []) : v.path? p = none := by
  obtain ⟨key, rest, rfl⟩ := List.exists_cons_of_ne_nil hp
  cases v with
  | object => cases h
  | _ => rfl

theorem faceAt_of_isSet {v' : Value} (hset : IsSet w.value w.keys v v') (hw : w.counts = true)
    (hplain : isObject w.value = false) (hfree : PrefixFree (ws ++ [w]))
    (hv : ∀ p, faceAt p v = shown ws p) (p : List String) :
    faceAt p v' = shown (ws ++ [w]) p := by
  have hmem : ∀ a ∈ ws ++ [w], (a.keys <+: w.keys → a.keys = w.keys) ∧
      (w.keys <+: a.keys → w.keys = a.keys) :=
    fun a ha => ⟨hfree a ha w (by simp), hfree w (by simp) a ha⟩
  rw [shown, lastAt_concat, hw, Bool.true_and]
  by_cases hpq : w.keys = p
  · have hat := hset.at_path []
    simp_all [faceAt, path?, face_of_not_object hplain]
  have hlast : w.keys <+: p ∨ p <+: w.keys → lastAt p ws = none := by
    rw [lastAt_eq_none_iff]
    rintro hor a ha - rfl
    exact hpq (hor.elim (hmem a (by simp [ha])).2 fun h => ((hmem a (by simp [ha])).1 h).symm)
  rw [if_neg (by simpa using hpq)]
  by_cases hqp : w.keys <+: p
  · -- below the value there is nothing, and no write leads there
    obtain ⟨r, rfl⟩ := hqp
    have hr : r ≠ [] := by simpa using hpq
    have hleads : leadsOn (w.keys ++ r) (ws ++ [w]) = false := by
      rw [Bool.eq_false_iff, Ne, leadsOn_iff]
      rintro ⟨a, ha, -, hpa⟩
      have heq := (hmem a ha).2 ((List.prefix_append _ _).trans hpa)
      exact hr (List.append_right_eq_self.1 (heq ▸ hpa.eq_of_length_le (by simp [heq])))
    simp [faceAt, hset.at_path, path?_of_not_object hplain hr,
      hlast (.inl (List.prefix_append _ _)), hleads, w.keys_ne_nil]
  by_cases hprefix : p <+: w.keys
  · obtain ⟨members, hmembers⟩ := hset.on_way p hprefix (Ne.symm hpq)
    simp [faceAt, hmembers, face, hlast (.inr hprefix), leadsOn_concat, hw,
      List.isPrefixOf_iff_prefix.2 hprefix]
  · rw [faceAt, hset.elsewhere p hprefix hqp]
    simpa [faceAt, shown, leadsOn_concat, List.isPrefixOf_iff_prefix, hprefix] using hv p

/-- **What writes build**, when no path leads on from another. -/
theorem exists_writeAll (hfree : PrefixFree ws) (hplain : ∀ w ∈ ws, isObject w.value = false) :
    ∃ v, writeAll ws = .ok v ∧ ∀ p, faceAt p v = shown ws p := by
  induction ws using List.reverseRecOn with
  | nil =>
    refine ⟨.object [], rfl, fun p => ?_⟩
    cases p <;> rfl
  | append_singleton ws w ih =>
    simp only [List.forall_mem_append, List.forall_mem_singleton] at hplain
    have hfree' : PrefixFree ws := fun a ha b hb => hfree a (by simp [ha]) b (by simp [hb])
    obtain ⟨v, hv, hshown⟩ := ih hfree' hplain.1
    have hrun : writeAll (ws ++ [w]) = setOption v w.path w.value := by
      rw [writeAll] at hv ⊢
      simp [List.foldlM_append, hv, ok_bind]
    rw [hrun, setOption]
    cases hw : w.value.isNull with
    | true =>
      refine ⟨v, rfl, fun p => ?_⟩
      simp [hshown, shown, lastAt_concat, leadsOn_concat, Write.counts, hw]
    | false =>
      have hcounts : w.counts = true := by simp [Write.counts, hw]
      obtain ⟨v', hset⟩ := exists_setAt (q := w.keys) (v := v) w.value (by
        intro p x hp hne hx
        have hface := hshown p
        have hlast : lastAt p ws = none := by
          rw [lastAt_eq_none_iff]
          rintro a ha - rfl
          exact hne (hfree a (by simp [ha]) w (by simp) hp)
        rw [faceAt, hx, shown, hlast, Option.none_or] at hface
        split at hface
        · rw [← isObject_face, Option.some_inj.1 hface]
          rfl
        · cases hface)
      exact ⟨v', hset, faceAt_of_isSet (isSet_of_setAt w.keys_ne_nil hset) hcounts hplain.2 hfree
        hshown⟩

theorem mem_iff_of_reordered (h : Reordered ws ws') : w ∈ ws ↔ w ∈ ws' := by
  have hmem : ∀ l : List Write, w ∈ l ↔ w ∈ l.filter (·.keys == w.keys) := by simp
  rw [hmem ws, h, ← hmem ws']

theorem shown_of_reordered (h : Reordered ws ws') : shown ws = shown ws' := by
  have hlast : ∀ p, lastAt p ws = lastAt p ws' := by
    intro p
    rw [lastAt, lastAt, ← List.filter_filter, ← List.filter_filter, h p]
  have hleads : ∀ p, leadsOn p ws = leadsOn p ws' := by
    intro p
    rw [Bool.eq_iff_iff, leadsOn_iff, leadsOn_iff]
    exact exists_congr fun w => and_congr_left fun _ => mem_iff_of_reordered h
  funext p
  rw [shown, shown, hlast, hleads]

theorem path?_of_shown (hfree : PrefixFree ws) (hplain : ∀ w ∈ ws, isObject w.value = false)
    (hv : ∀ p, faceAt p v = shown ws p) (hw : w ∈ ws) : v.path? w.keys = lastAt w.keys ws := by
  have hface := hv w.keys
  rw [faceAt, shown] at hface
  cases hlast : lastAt w.keys ws with
  | some u =>
    obtain ⟨a, ha, -, -, rfl⟩ := exists_of_lastAt hlast
    rw [hlast, Option.some_or] at hface
    obtain ⟨x, hx, hxu⟩ := Option.map_eq_some_iff.1 hface
    rw [hx, ← hxu, face_of_not_object]
    rw [← isObject_face, hxu, hplain a ha]
  | none =>
    have hleads : leadsOn w.keys ws = false := by
      rw [Bool.eq_false_iff, Ne, leadsOn_iff]
      rintro ⟨a, ha, hcounts, hprefix⟩
      exact lastAt_eq_none_iff.1 hlast a ha hcounts (hfree w hw a ha hprefix).symm
    simpa [hlast, hleads, w.keys_ne_nil] using hface

/-- **The leaves are the paths that were written to.** -/
theorem isLeaf_of_shown (hfree : PrefixFree ws) (hplain : ∀ w ∈ ws, isObject w.value = false)
    (hv : ∀ p, faceAt p v = shown ws p) :
    IsLeaf p v ↔ ∃ w ∈ ws, w.counts = true ∧ w.keys = p := by
  constructor
  · rintro ⟨hp, hsome, hbelow⟩
    by_contra hnone
    have hlast : lastAt p ws = none :=
      lastAt_eq_none_iff.2 fun w hw hcounts hkeys => hnone ⟨w, hw, hcounts, hkeys⟩
    have hleads : leadsOn p ws = true := by
      obtain ⟨x, hx⟩ := Option.isSome_iff_exists.1 hsome
      have hface := hv p
      by_contra hleads
      simp [faceAt, hx, shown, hlast, hp, hleads] at hface
    -- the path leads on by a key, and there something stands
    obtain ⟨w, hw, hcounts, r, hr⟩ := leadsOn_iff.1 hleads
    cases r with
    | nil => exact hnone ⟨w, hw, hcounts, by simpa using hr.symm⟩
    | cons key r =>
      have hface := hv (p ++ [key])
      have hnext : leadsOn (p ++ [key]) ws = true :=
        leadsOn_iff.2 ⟨w, hw, hcounts, r, by simpa using hr⟩
      simp [faceAt, hbelow, shown, hnext] at hface
  · rintro ⟨w, hw, hcounts, rfl⟩
    have hpath := path?_of_shown hfree hplain hv hw
    cases hlast : lastAt w.keys ws with
    | none => exact absurd rfl (lastAt_eq_none_iff.1 hlast w hw hcounts)
    | some u =>
      rw [hlast] at hpath
      obtain ⟨a, ha, -, -, rfl⟩ := exists_of_lastAt hlast
      refine ⟨w.keys_ne_nil, by simp [hpath], fun key => ?_⟩
      rw [path?_append, hpath]
      exact path?_of_not_object (hplain a ha) (List.cons_ne_nil _ _)

/-- **Writing builds exactly the map written.** Single values, lists and nulls are written to
dotted paths, of which none leads on from another. Then every write succeeds. Each path has the
last value written to it, null apart, and the leaves are the paths that were written to. Writes to
different paths can be put in any order. -/
theorem writes_build_map (hfree : PrefixFree ws) (hplain : ∀ w ∈ ws, isObject w.value = false) :
    ∃ v, writeAll ws = .ok v ∧ (∀ w ∈ ws, v.path? w.keys = lastAt w.keys ws) ∧
      (∀ p, IsLeaf p v ↔ ∃ w ∈ ws, w.counts = true ∧ w.keys = p) ∧
      ∀ ws', Reordered ws ws' → ∃ v', writeAll ws' = .ok v' ∧ ∀ p, faceAt p v' = faceAt p v := by
  obtain ⟨v, hv, hshown⟩ := exists_writeAll hfree hplain
  refine ⟨v, hv, fun w hw => path?_of_shown hfree hplain hshown hw,
    fun p => isLeaf_of_shown hfree hplain hshown, fun ws' h => ?_⟩
  have hmem := fun w => (mem_iff_of_reordered (w := w) h).2
  obtain ⟨v', hv', hshown'⟩ := exists_writeAll
    (fun a ha b hb => hfree a (hmem a ha) b (hmem b hb)) fun w hw => hplain w (hmem w hw)
  exact ⟨v', hv', fun p => by rw [hshown, hshown', shown_of_reordered h]⟩

end

/-- Writes to three paths: one is written to twice, and one only with null. -/
def threePaths : List Write :=
  [⟨"a.b", .int 1⟩, ⟨"c", .str "x"⟩, ⟨"a.d.e", .null⟩, ⟨"a.b", .list []⟩]

/-- The first two writes the other way round. -/
def threePathsReordered : List Write :=
  [⟨"c", .str "x"⟩, ⟨"a.b", .int 1⟩, ⟨"a.d.e", .null⟩, ⟨"a.b", .list []⟩]

theorem reordered_threePaths : Reordered threePaths threePathsReordered := by
  intro p
  by_cases hc : (Write.keys ⟨"c", .str "x"⟩ == p) = true
  · rw [← beq_iff_eq.1 hc]
    decide +kernel
  · simp [threePaths, threePathsReordered, List.filter_cons, hc]

theorem threePaths_build_map :
    PrefixFree threePaths ∧ (∀ w ∈ threePaths, isObject w.value = false) ∧
    Reordered threePaths threePathsReordered ∧ ∃ v, writeAll threePaths = .ok v ∧
      v.path? ["a", "b"] = some (.list []) ∧ IsLeaf ["a", "b"] v ∧ ¬ IsLeaf ["a", "d", "e"] v ∧
      ∃ v', writeAll threePathsReordered = .ok v' ∧ ∀ p, faceAt p v' = faceAt p v := by
  have hfree : PrefixFree threePaths := by
    unfold PrefixFree
    decide +kernel
  have hplain : ∀ w ∈ threePaths, isObject w.value = false := by decide
  obtain ⟨v, hv, hlast, hleaf, horder⟩ := writes_build_map hfree hplain
  refine ⟨hfree, hplain, reordered_threePaths, v, hv, ?_, (hleaf _).2 ?_, mt (hleaf _).1 ?_,
    horder _ reordered_threePaths⟩
  · exact (hlast ⟨"a.b", .int 1⟩ (by simp [threePaths])).trans (by decide +kernel)
  · decide +kernel
  · decide +kernel

end LangServer.Settings
