import Mathlib.Data.List.Flatten
import Mathlib.Data.List.Induction
import Mathlib.Data.List.Nodup
import Mathlib.Data.List.Pairwise
import LangServer.Proofs.Action

/-!
# The two tables of a resolver

A resolver files every completion twice: under its key, which holds the period that was current when
the key was made, and in the bucket of the period that was current when the result was stored. The
clock may have gone on or back in between, so the two periods have nothing to do with each other,
and a sweep goes by the second alone.

The tables stay in step all the same (`Matched`), because a key is filed only when it is not kept:
no key is in two buckets, and the buckets that a sweep drops take exactly their own keys with them.
So a sweep never misses a key (`sweep_eq`), and there is one lemma on what a step can do
(`step_cases`).
-/

namespace LangServer.Completion.Resolver

variable {r : Resolver} {readings : Readings} {k : Key}

/-- The keys of the results that are kept. -/
def keys (r : Resolver) : List Key := r.kept.map (·.1)

/-- The keys of all buckets. -/
def filed (r : Resolver) : List Key := r.buckets.flatMap (·.2)

/-- The keys that a sweep forgets. -/
def outdated (r : Resolver) (now : Int) : List Key :=
  (r.buckets.filter fun (t, _) => decide (t < now)).flatMap (·.2)

/-- The resolver after a sweep. -/
def swept (r : Resolver) (now : Int) : Resolver :=
  { r with
    kept := r.kept.filter fun (k, _) => !decide (k ∈ r.outdated now)
    buckets := r.buckets.filter fun (t, _) => !decide (t < now) }

/-- Both tables hold the same keys, each of them once. -/
structure Matched (r : Resolver) : Prop where
  nodup_keys : r.keys.Nodup
  nodup_periods : (r.buckets.map (·.1)).Nodup
  nodup_filed : r.filed.Nodup
  mem_filed : ∀ k, k ∈ r.filed ↔ k ∈ r.keys

/-- **The tables are in step:** every key that is kept lies in exactly one bucket, and every key in
a bucket is kept. -/
structure InStep (r : Resolver) : Prop where
  nodup_keys : r.keys.Nodup
  nodup_periods : (r.buckets.map (·.1)).Nodup
  nodup_bucket : ∀ b ∈ r.buckets, b.2.Nodup
  existsUnique_bucket : ∀ k ∈ r.keys, ∃! b, b ∈ r.buckets ∧ k ∈ b.2
  kept_of_filed : ∀ b ∈ r.buckets, ∀ k ∈ b.2, k ∈ r.keys

theorem Matched.inStep (h : r.Matched) : r.InStep := by
  obtain ⟨hbucket, hdisjoint⟩ := List.nodup_flatMap.1 h.nodup_filed
  refine ⟨h.nodup_keys, h.nodup_periods, hbucket, fun k hk => ?_, fun b hb k hk => ?_⟩
  · obtain ⟨b, hb, hkb⟩ := List.mem_flatMap.1 ((h.mem_filed k).2 hk)
    refine ⟨b, ⟨hb, hkb⟩, fun b' ⟨hb', hkb'⟩ => ?_⟩
    by_contra hne
    have : Std.Symm (Function.onFun List.Disjoint fun b : Int × List Key => b.2) :=
      ⟨fun _ _ h _ hk hk' => h hk' hk⟩
    exact hdisjoint.forall hb' hb hne hkb' hkb
  · exact (h.mem_filed k).1 (List.mem_flatMap.2 ⟨b, hb, hk⟩)

/-! ## Forgetting -/

theorem foldlM_forget {kept : List (Key × Value)} {old : List Key} (hold : old.Nodup)
    (hkept : ∀ k ∈ old, k ∈ kept.map (·.1)) :
    old.foldlM forget kept = .ok (kept.filter fun (k, _) => !decide (k ∈ old)) := by
  induction old generalizing kept with
  | nil => simp [pure, Except.pure]
  | cons k rest ih =>
    obtain ⟨hk, hrest⟩ := List.nodup_cons.1 hold
    have hforget : forget kept k = .ok (kept.filter fun (k', _) => !decide (k' = k)) := by
      rw [forget, if_pos (List.contains_iff_mem.2 (hkept k List.mem_cons_self))]
    have hleft : ∀ k' ∈ rest,
        k' ∈ (kept.filter fun (k', _) => !decide (k' = k)).map (·.1) := by
      intro k' hk'
      obtain ⟨e, hmem, rfl⟩ := List.mem_map.1 (hkept k' (List.mem_cons_of_mem k hk'))
      have hne : e.1 ≠ k := fun h => hk (h ▸ hk')
      exact List.mem_map.2 ⟨e, List.mem_filter.2 ⟨hmem, by simpa using hne⟩, rfl⟩
    rw [List.foldlM_cons, hforget]
    refine (ih hrest hleft).trans (congrArg _ ?_)
    rw [List.filter_filter]
    refine List.filter_congr fun e _ => ?_
    simp [Bool.and_comm]

theorem outdated_sublist (r : Resolver) (now : Int) : (r.outdated now).Sublist r.filed :=
  List.filter_sublist.flatMap _

theorem outdated_append_perm (r : Resolver) (now : Int) :
    (r.outdated now ++ (r.swept now).filed).Perm r.filed := by
  rw [outdated, filed, swept, ← List.flatMap_append]
  exact (List.filter_append_perm _ _).flatMap_right _

/-- **A sweep succeeds** while the tables are in step. -/
theorem sweep_eq (h : r.Matched) (now : Int) : r.sweep now = .ok (r.swept now) := by
  have hsub := r.outdated_sublist now
  have hfold := foldlM_forget (h.nodup_filed.sublist hsub)
    fun k hk => (h.mem_filed k).1 (hsub.subset hk)
  rw [outdated] at hfold
  rw [sweep, hfold]
  rfl

theorem mem_keys_swept {now : Int} : k ∈ (r.swept now).keys ↔ k ∈ r.keys ∧ k ∉ r.outdated now := by
  simp [keys, swept]

theorem Matched.swept (h : r.Matched) (now : Int) : (r.swept now).Matched := by
  have hperm := r.outdated_append_perm now
  obtain ⟨-, hnodup, hdisjoint⟩ := List.nodup_append.1 (hperm.nodup_iff.2 h.nodup_filed)
  refine ⟨?_, ?_, hnodup, fun k => ?_⟩
  · exact h.nodup_keys.sublist (List.filter_sublist.map _)
  · exact h.nodup_periods.sublist (List.filter_sublist.map _)
  · rw [mem_keys_swept, ← h.mem_filed, ← hperm.mem_iff, List.mem_append]
    constructor
    · exact fun hk => ⟨.inr hk, fun hold => hdisjoint k hold k hk rfl⟩
    · exact fun ⟨hk, hnot⟩ => hk.resolve_left hnot

/-! ## Filing -/

theorem addKey_perm (period : Int) {buckets : List (Int × List Key)}
    (hk : k ∉ buckets.flatMap (·.2)) :
    ((addKey period k buckets).flatMap (·.2)).Perm (k :: buckets.flatMap (·.2)) := by
  induction buckets with
  | nil => exact List.Perm.refl _
  | cons b rest ih =>
    simp only [List.flatMap_cons, List.mem_append, not_or] at hk ⊢
    rw [addKey]
    split
    · rw [if_neg fun hmem => hk.1 (List.contains_iff_mem.1 hmem), List.flatMap_cons,
        List.append_assoc]
      exact List.perm_middle
    · rw [List.flatMap_cons]
      exact ((ih hk.2).append_left b.2).trans List.perm_middle

theorem mem_periods_addKey {period t : Int} {buckets : List (Int × List Key)} :
    t ∈ (addKey period k buckets).map (·.1) ↔ t = period ∨ t ∈ buckets.map (·.1) := by
  induction buckets with
  | nil => simp [addKey]
  | cons b rest ih =>
    rw [addKey]
    split
    · rename_i hb
      simp [← hb]
    · rw [List.map_cons, List.mem_cons, ih, List.map_cons, List.mem_cons]
      exact or_left_comm

theorem nodup_periods_addKey {period : Int} {buckets : List (Int × List Key)}
    (h : (buckets.map (·.1)).Nodup) : ((addKey period k buckets).map (·.1)).Nodup := by
  induction buckets with
  | nil => exact List.nodup_singleton _
  | cons b rest ih =>
    obtain ⟨hb, hrest⟩ := List.nodup_cons.1 h
    rw [addKey]
    split
    · exact h
    · rename_i hne
      refine List.nodup_cons.2 ⟨fun hmem => ?_, ih hrest⟩
      exact (mem_periods_addKey.1 hmem).elim hne hb

/-- The resolver with a new result. -/
def filing (r : Resolver) (k : Key) (v : Value) (period : Int) : Resolver :=
  { r with kept := r.kept ++ [(k, v)], buckets := addKey period k r.buckets }

theorem Matched.filing (h : r.Matched) (hk : k ∉ r.keys) (v : Value) (period : Int) :
    (r.filing k v period).Matched := by
  have hkeys : (r.filing k v period).keys = r.keys ++ [k] := by simp [keys, Resolver.filing]
  have hfiled : (r.filing k v period).filed.Perm (k :: r.filed) :=
    addKey_perm period fun hmem => hk ((h.mem_filed k).1 hmem)
  refine ⟨?_, nodup_periods_addKey h.nodup_periods, ?_, fun k' => ?_⟩
  · rw [hkeys]
    exact List.nodup_append.2 ⟨h.nodup_keys, List.nodup_singleton k, fun a ha b hb hab =>
      hk (List.mem_singleton.1 hb ▸ hab ▸ ha)⟩
  · rw [hfiled.nodup_iff]
    exact List.nodup_cons.2 ⟨fun hmem => hk ((h.mem_filed k).1 hmem), h.nodup_filed⟩
  · rw [hfiled.mem_iff, hkeys, List.mem_cons, List.mem_append, List.mem_singleton, h.mem_filed,
      or_comm]

/-! ## A step -/

/-- Both resolvers make the same of a completion, and count time in the same periods. -/
structure Alike (r r' : Resolver) : Prop where
  product : r'.product = r.product
  onError : r'.onError = r.onError
  lifetime : r'.lifetime = r.lifetime

namespace Alike

variable {r' r'' : Resolver}

theorem refl (r : Resolver) : r.Alike r := ⟨rfl, rfl, rfl⟩

theorem trans (h : r.Alike r') (h' : r'.Alike r'') : r.Alike r'' :=
  ⟨h'.product.trans h.product, h'.onError.trans h.onError, h'.lifetime.trans h.lifetime⟩

theorem resolve_eq (h : r.Alike r') (n : Name) : r'.resolve n = r.resolve n := by
  rw [resolve, resolve, h.product, h.onError]

theorem period_eq (h : r.Alike r') (time : Int) : r'.period time = r.period time := by
  rw [period, period, h.lifetime]

end Alike

theorem alike_swept (r : Resolver) (now : Int) : r.Alike (r.swept now) := ⟨rfl, rfl, rfl⟩

/-- The key of a completion at a time, if its results are kept. -/
def keyAt? (r : Resolver) (time : Int) (n : Name) : Option Key :=
  (n.fullName.filter fun fullName => !fullName.isEmpty && r.isKept fullName).map fun fullName =>
    keyOf n fullName (time.tdiv r.lifetime)

/-- The resolver that a new result is filed in, which is swept in every other period. -/
def tidied (r : Resolver) (readings : Readings) : Resolver :=
  if readings.decide.tdiv r.lifetime % 2 = 0 then r.swept (readings.sweep.tdiv r.lifetime) else r

theorem alike_tidied (r : Resolver) (readings : Readings) : r.Alike (r.tidied readings) := by
  rw [tidied]
  split
  · exact alike_swept r _
  · exact Alike.refl r

theorem Matched.tidied (h : r.Matched) (readings : Readings) : (r.tidied readings).Matched := by
  rw [Resolver.tidied]
  split
  · exact h.swept _
  · exact h

theorem kept_of_mem_tidied {e : Key × Value} (he : e ∈ (r.tidied readings).kept) : e ∈ r.kept := by
  rw [tidied] at he
  split at he
  · exact (List.mem_filter.1 he).1
  · exact he

theorem not_mem_keys_tidied (hnew : k ∉ r.keys) : k ∉ (r.tidied readings).keys := by
  intro hk
  obtain ⟨e, he, hke⟩ := List.mem_map.1 hk
  exact hnew (List.mem_map.2 ⟨e, kept_of_mem_tidied he, hke⟩)

theorem keyAt?_eq_some_iff {time : Int} {n : Name} :
    r.keyAt? time n = some k ↔ ∃ fullName, n.fullName = some fullName ∧
      (fullName.isEmpty || !r.isKept fullName) = false ∧
      keyOf n fullName (time.tdiv r.lifetime) = k := by
  simp [keyAt?, Option.filter_eq_some_iff, and_assoc]

theorem step_of_none {n : Name} (hkey : r.keyAt? readings.key n = none) :
    r.step readings n = .ok (r.resolve n, r, true) := by
  rw [step]
  split
  · rfl
  · rename_i fullName hname
    split
    · rfl
    · rename_i hkept
      rw [keyAt?_eq_some_iff.2 ⟨fullName, hname, Bool.eq_false_iff.2 hkept, rfl⟩] at hkey
      cases hkey

theorem period_eq (hlife : r.lifetime ≠ 0) (time : Int) :
    r.period time = .ok (time.tdiv r.lifetime) := if_neg hlife

theorem step_of_mem (h : r.Matched) (hlife : r.lifetime ≠ 0) {n : Name}
    {v : Value} (hkey : r.keyAt? readings.key n = some k) (hmem : (k, v) ∈ r.kept) :
    r.step readings n = .ok (v, r, false) := by
  obtain ⟨fullName, hname, hkept, rfl⟩ := keyAt?_eq_some_iff.1 hkey
  rw [step, hname]
  dsimp only
  rw [if_neg (Bool.eq_false_iff.1 hkept), period_eq hlife, ok_bind]
  split
  · rename_i k v' hfind
    have hk := List.find?_some hfind
    rw [decide_eq_true_iff] at hk
    -- no other result is kept under the key
    have hsame := List.inj_on_of_nodup_map h.nodup_keys (List.mem_of_find?_eq_some hfind) hmem hk
    rw [(Prod.mk.inj hsame).2]
  · rename_i hfind
    exact absurd (decide_eq_true rfl) (List.find?_eq_none.1 hfind _ hmem)

/-- A completion whose result is not kept is computed and filed. -/
theorem step_of_not_mem (h : r.Matched) (hlife : r.lifetime ≠ 0) {n : Name}
    (hkey : r.keyAt? readings.key n = some k) (hnew : k ∉ r.keys) :
    r.step readings n = .ok (r.resolve n, (r.tidied readings).filing k (r.resolve n)
      (readings.bucket.tdiv r.lifetime), true) := by
  obtain ⟨fullName, hname, hkept, rfl⟩ := keyAt?_eq_some_iff.1 hkey
  rw [step, hname, tidied]
  dsimp only
  rw [if_neg (Bool.eq_false_iff.1 hkept), period_eq hlife, ok_bind]
  split
  · rename_i k v hfind
    have hk := List.find?_some hfind
    rw [decide_eq_true_iff] at hk
    exact absurd (List.mem_map.2 ⟨_, List.mem_of_find?_eq_some hfind, hk⟩) hnew
  rw [period_eq hlife, ok_bind]
  split
  · rw [period_eq hlife, ok_bind, sweep_eq h, ok_bind, (r.alike_swept _).period_eq,
      period_eq hlife, ok_bind]
    rfl
  · rw [ok_bind, period_eq hlife, ok_bind]
    rfl

/-- **What a step can do** while the tables are in step. -/
inductive Stepped (r : Resolver) (readings : Readings) (n : Name) :
    Except Fault (Value × Resolver × Bool) → Prop
  /-- No time can be divided by a lifetime of nothing. -/
  | timeless (h : r.lifetime = 0) :
    Stepped r readings n (.error (.reported "ZeroDivisionError" "division by zero"))
  /-- The completion is of a module whose completions are not kept. -/
  | passing (hkey : r.keyAt? readings.key n = none) :
    Stepped r readings n (.ok (r.resolve n, r, true))
  | hit {k : Key} {v : Value} (hlife : r.lifetime ≠ 0) (hkey : r.keyAt? readings.key n = some k)
    (hmem : (k, v) ∈ r.kept) : Stepped r readings n (.ok (v, r, false))
  /-- The result is filed after a sweep, or without one. -/
  | miss {k : Key} (hlife : r.lifetime ≠ 0) (hkey : r.keyAt? readings.key n = some k)
    (hnew : k ∉ r.keys) : Stepped r readings n (.ok (r.resolve n,
      (r.tidied readings).filing k (r.resolve n) (readings.bucket.tdiv r.lifetime), true))

theorem stepped_step (h : r.Matched) (readings : Readings) (n : Name) :
    Stepped r readings n (r.step readings n) := by
  cases hkey : r.keyAt? readings.key n with
  | none =>
    rw [step_of_none hkey]
    exact .passing hkey
  | some k =>
    by_cases hlife : r.lifetime = 0
    · obtain ⟨fullName, hname, hkept, -⟩ := keyAt?_eq_some_iff.1 hkey
      have hperiod : r.period readings.key =
          .error (.reported "ZeroDivisionError" "division by zero") := if_pos hlife
      rw [step, hname]
      dsimp only
      rw [if_neg (Bool.eq_false_iff.1 hkept), hperiod]
      exact .timeless hlife
    by_cases hmem : k ∈ r.keys
    · obtain ⟨⟨_, v⟩, he, rfl⟩ := List.mem_map.1 hmem
      rw [step_of_mem h hlife hkey he]
      exact .hit hlife hkey he
    · rw [step_of_not_mem h hlife hkey hmem]
      exact .miss hlife hkey hmem

/-! ## Runs -/

/-- What happens to a resolver. -/
inductive Use where
  /-- A completion is resolved. -/
  | step (readings : Readings) (n : Name)
  | setModules (modules : Value)
  | sweep (time : Int)

/-- The resolver afterwards. What fails changes nothing. -/
def Use.act (r : Resolver) : Use → Resolver
  | step readings n => ((r.step readings n).toOption.map (·.2.1)).getD r
  | setModules modules => (r.setModules modules).toOption.getD r
  | sweep time => (r.period time >>= r.sweep).toOption.getD r

/-- The period does not change back while the resolver is used. -/
def Use.isForward (lifetime : Int) : Use → Bool
  | .step readings _ =>
    decide (readings.key.tdiv lifetime ≤ readings.bucket.tdiv lifetime)
  | _ => true

/-- The resolver after a run. -/
def run (r : Resolver) (uses : List Use) : Resolver := uses.foldl Use.act r

theorem run_append (r : Resolver) (uses : List Use) (u : Use) :
    r.run (uses ++ [u]) = u.act (r.run uses) := by
  rw [run, List.foldl_append]
  rfl

/-- The value was computed in the run, for a completion with this key. -/
def Computed (r : Resolver) (uses : List Use) (k : Key) (v : Value) : Prop :=
  ∃ before readings n after fullName period t, uses = before ++ .step readings n :: after ∧
    (r.run before).step readings n = .ok (v, t, true) ∧ v = r.resolve n ∧
    n.fullName = some fullName ∧ r.period readings.key = .ok period ∧ keyOf n fullName period = k

variable {uses : List Use}

theorem Computed.append {v : Value} (h : r.Computed uses k v)
    (u : Use) : r.Computed (uses ++ [u]) k v := by
  obtain ⟨before, readings, n, after, fullName, period, t, rfl, hrest⟩ := h
  exact ⟨before, readings, n, after ++ [u], fullName, period, t, by simp, hrest⟩

/-- What holds after a run from an empty resolver. -/
structure Reached (r : Resolver) (uses : List Use) : Prop where
  matched : (r.run uses).Matched
  alike : r.Alike (r.run uses)
  computed : ∀ k v, (k, v) ∈ (r.run uses).kept → r.Computed uses k v

theorem Reached.append (h : r.Reached uses) {u : Use} {t : Resolver}
    (hact : u.act (r.run uses) = t) (hmatched : t.Matched) (halike : (r.run uses).Alike t)
    (hkept : ∀ k v, (k, v) ∈ t.kept → (k, v) ∈ (r.run uses).kept ∨ r.Computed (uses ++ [u]) k v) :
    r.Reached (uses ++ [u]) := by
  rw [← hact, ← run_append] at hmatched halike hkept
  refine ⟨hmatched, h.alike.trans halike, fun k v hk => ?_⟩
  exact (hkept k v hk).elim (fun hold => (h.computed k v hold).append u) fun hnew => hnew

theorem Reached.idle (h : r.Reached uses) {u : Use}
    (hact : u.act (r.run uses) = r.run uses) : r.Reached (uses ++ [u]) :=
  h.append hact h.matched (Alike.refl _) fun _ _ hk => .inl hk

theorem Reached.step (h : r.Reached uses) (readings : Readings) (n : Name) :
    r.Reached (uses ++ [.step readings n]) := by
  have hstepped := stepped_step h.matched readings n
  generalize hx : (r.run uses).step readings n = x at hstepped
  rcases hstepped with _ | _ | _ | ⟨hlife, hkey, hnew⟩
  · exact h.idle (by simp [Use.act, hx, Except.toOption])
  · exact h.idle (by simp [Use.act, hx, Except.toOption])
  · exact h.idle (by simp [Use.act, hx, Except.toOption])
  · obtain ⟨fullName, hname, -, rfl⟩ := keyAt?_eq_some_iff.1 hkey
    have halike := (r.run uses).alike_tidied readings
    refine h.append (t := ((r.run uses).tidied readings).filing _ ((r.run uses).resolve n)
      (readings.bucket.tdiv _)) (by rw [Use.act, hx]; rfl)
      ((h.matched.tidied readings).filing (not_mem_keys_tidied hnew) _ _)
      ⟨halike.product, halike.onError, halike.lifetime⟩ fun k v hk => ?_
    rcases List.mem_append.1 hk with hk | hk
    · exact .inl (kept_of_mem_tidied hk)
    · obtain ⟨rfl, rfl⟩ := Prod.mk.inj (List.mem_singleton.1 hk)
      exact .inr ⟨uses, readings, n, [], fullName, _, _, rfl, hx, h.alike.resolve_eq n, hname,
        (h.alike.period_eq _).symm.trans (period_eq hlife _), rfl⟩

theorem Reached.setModules (h : r.Reached uses) (modules : Value) :
    r.Reached (uses ++ [.setModules modules]) := by
  have hact : ∃ kinds, (Use.setModules modules).act (r.run uses) =
      { r.run uses with modules := kinds } := by
    simp only [Use.act, Resolver.setModules]
    rcases modules.elements with f | items
    · exact ⟨_, rfl⟩
    · simp only [bind, Except.bind]
      split
      · exact ⟨_, rfl⟩
      · exact ⟨_, rfl⟩
  obtain ⟨kinds, hact⟩ := hact
  exact h.append hact ⟨h.matched.nodup_keys, h.matched.nodup_periods, h.matched.nodup_filed,
    h.matched.mem_filed⟩ ⟨rfl, rfl, rfl⟩ fun _ _ hk => .inl hk

theorem Reached.sweep (h : r.Reached uses) (time : Int) : r.Reached (uses ++ [.sweep time]) := by
  rcases hperiod : (r.run uses).period time with f | now
  · exact h.idle (by simp [Use.act, hperiod, bind, Except.bind, Except.toOption])
  · refine h.append (t := (r.run uses).swept now) ?_ (h.matched.swept now) (alike_swept _ now)
      fun _ _ hk => .inl (List.mem_filter.1 hk).1
    simp [Use.act, hperiod, bind, Except.bind, Except.toOption, sweep_eq h.matched]

/-- The resolver of a product before anything was resolved. -/
def empty (product : Product) (onError : Value) (lifetime : Int) (modules : List Value) :
    Resolver :=
  { product, onError, lifetime, modules }

theorem reached_empty (product : Product) (onError : Value) (lifetime : Int)
    (modules : List Value) (uses : List Use) :
    (empty product onError lifetime modules).Reached uses := by
  induction uses using List.reverseRecOn with
  | nil =>
    exact ⟨⟨List.nodup_nil, List.nodup_nil, List.nodup_nil, fun _ => Iff.rfl⟩, Alike.refl _,
      fun _ _ hk => absurd hk List.not_mem_nil⟩
  | append_singleton uses u ih =>
    cases u with
    | step readings n => exact ih.step readings n
    | setModules modules => exact ih.setModules modules
    | sweep time => exact ih.sweep time

/-- An answer for a completion: computed for it now, or in the run before for a completion with the
same full name, place and period. -/
def Answers (r : Resolver) (uses : List Use) (readings : Readings) (n : Name) :
    Except Fault (Value × Resolver × Bool) → Prop
  | .ok (v, _, true) => v = r.resolve n
  | .ok (v, _, false) =>
    ∃ before earlier m after t, uses = before ++ .step earlier m :: after ∧
      (r.run before).step earlier m = .ok (v, t, true) ∧ v = r.resolve m ∧
      m.fullName = n.fullName ∧ m.modulePath = n.modulePath ∧ m.line = n.line ∧
      m.column = n.column ∧ r.period earlier.key = r.period readings.key
  | .error f => r.lifetime = 0 ∧ f = .reported "ZeroDivisionError" "division by zero"

theorem Reached.answers (h : r.Reached uses) (readings : Readings) (n : Name) :
    r.Answers uses readings n ((r.run uses).step readings n) := by
  have hstepped := stepped_step h.matched readings n
  generalize (r.run uses).step readings n = x at hstepped
  rcases hstepped with hlife | _ | ⟨hlife, hkey, hkept⟩ | _
  · exact ⟨h.alike.lifetime.symm.trans hlife, rfl⟩
  · exact h.alike.resolve_eq n
  · obtain ⟨fullName, hname, -, rfl⟩ := keyAt?_eq_some_iff.1 hkey
    obtain ⟨before, earlier, m, after, _, _, t, huses, hstep, hv, hm, hp, hkey⟩ :=
      h.computed _ _ hkept
    obtain ⟨rfl, hmodule, hline, hcolumn, rfl⟩ := Key.mk.inj hkey
    exact ⟨before, earlier, m, after, t, huses, hstep, hv, hm.trans hname.symm, hmodule, hline,
      hcolumn, hp.trans ((period_eq hlife _).symm.trans (h.alike.period_eq _))⟩
  · exact h.alike.resolve_eq n

theorem Reached.exists_resolve (h : r.Reached uses)
    {n : Name} {v : Value} {t : Resolver} {asked : Bool}
    (hstep : (r.run uses).step readings n = .ok (v, t, asked)) : ∃ m, v = r.resolve m := by
  have hanswers := h.answers readings n
  rw [hstep] at hanswers
  rcases asked with _ | _
  · obtain ⟨-, -, m, -, -, -, -, hv, -⟩ := hanswers
    exact ⟨m, hv⟩
  · exact ⟨n, hanswers⟩

/-- **The two tables stay in step** whatever the clock gives: a sweep never fails, and every result
is that of the completion itself or of an earlier one that is told apart by nothing. -/
theorem tables_in_step (product : Product) (onError : Value) (lifetime : Int)
    (modules : List Value) (uses : List Use) :
    ((empty product onError lifetime modules).run uses).InStep ∧
    (∀ now, ∃ r, ((empty product onError lifetime modules).run uses).sweep now = .ok r) ∧
    ∀ readings n, (empty product onError lifetime modules).Answers uses readings n
      (((empty product onError lifetime modules).run uses).step readings n) := by
  have h := reached_empty product onError lifetime modules uses
  exact ⟨h.matched.inStep, fun now => ⟨_, sweep_eq h.matched now⟩, h.answers⟩

end LangServer.Completion.Resolver
