import LangServer.Proofs.Hooks
import Mathlib.Data.List.Forall2

/-!
# Looking names up in the resolvers

Making a completion item looks its name up in the resolvers: once for the label, and once more for
a snippet. A look-up changes the host (`Host.look`), for the answer is kept and the engine may be
asked for signatures, and the item follows from what the look-ups gave (`itemWith`).

One answer has to be the same twice, because a class is offered once as such and once as an object:
the label. A result of the current period outlives every sweep of this period, provided that no key
lies in the bucket of an earlier period than its own (`Resolver.Timely`). The buckets are so unless
the clock was put back within a step, from one period into an earlier one.
-/

namespace LangServer

open Relation

/-! ## Labels -/

namespace Completion

/-- The text that an item is labelled with. -/
def labelOf? (item : Item) : Option String :=
  match Value.lookup "label" item with
  | some (.str label) => some label
  | _ => none

theorem labelOf?_eq_some_iff {item : Item} {label : String} :
    labelOf? item = some label ↔ Value.lookup "label" item = some (.str label) := by
  rw [labelOf?]
  split <;> simp_all

theorem labelOf?_insert {key : String} (hkey : key ≠ "label") (v : Value) (item : Item) :
    labelOf? (Value.insert key v item) = labelOf? item := by
  rw [labelOf?, labelOf?, Value.lookup_insert_of_ne hkey.symm]

theorem Resolver.lookup_label_resolve {r : Resolver} (hproduct : r.product = .snippet)
    (herror : r.onError = .object []) (n : Name) {members : Item}
    (h : r.resolve n = .object members) : Value.lookup "label" members = none := by
  rw [resolve, hproduct, herror] at h
  rcases hs : n.signatures with f | signatures <;> rw [hs] at h
  · obtain rfl := Value.object.inj h
    rfl
  · simp only [snippet] at h
    split at h
    · obtain rfl := Value.object.inj h
      rfl
    · split at h
      all_goals
        obtain rfl := Value.object.inj h
        rfl

theorem lookup_insertAll {key : String} {members : Item}
    (hmembers : Value.lookup key members = none) (item : Item) :
    Value.lookup key (Value.insertAll item members) = Value.lookup key item := by
  induction members generalizing item with
  | nil => rfl
  | cons m rest ih =>
    obtain ⟨k, v⟩ := m
    rw [Value.lookup] at hmembers
    split at hmembers
    · cases hmembers
    · rename_i hk
      exact (ih hmembers _).trans (Value.lookup_insert_of_ne (fun h => hk h.symm) _ _)

theorem lookup_label_resolveItem {item item' : Item} {n : Name}
    (h : resolveItem item n = .ok item') : labelOf? item' = labelOf? item := by
  rw [resolveItem] at h
  obtain ⟨text, -, h⟩ := exists_of_bind_eq_ok h
  obtain rfl := Except.ok.inj h
  rw [labelOf?_insert (by decide), labelOf?_insert (by decide)]

theorem labelOf?_asObject {item : Item} {label : String} (h : labelOf? item = some label) :
    labelOf? (asObject item) = some (label ++ " object") := by
  have hkind : Value.lookup "label" (Value.insert "kind" (.int 25) item) = some (.str label) := by
    rw [Value.lookup_insert_of_ne (by decide), labelOf?_eq_some_iff.1 h]
  simp only [asObject, hkind]
  rw [labelOf?_eq_some_iff, Value.lookup_insert_self]

end Completion

namespace Completion.Resolver

variable {r r' : Resolver} {time : Int} {n : Name} {v : Value}

/-! ## Buckets in time -/

/-- No key lies in the bucket of an earlier period than its own. -/
def Timely (r : Resolver) : Prop := ∀ b ∈ r.buckets, ∀ k ∈ b.2, k.period ≤ b.1

theorem Timely.swept (h : r.Timely) (now : Int) : (r.swept now).Timely :=
  fun b hb => h b (List.mem_filter.1 hb).1

theorem mem_addKey {period : Int} {k k' : Key} {buckets : List (Int × List Key)}
    {b : Int × List Key} (hb : b ∈ addKey period k buckets) (hk : k' ∈ b.2) :
    k' = k ∧ b.1 = period ∨ ∃ b' ∈ buckets, b'.1 = b.1 ∧ k' ∈ b'.2 := by
  induction buckets with
  | nil =>
    rw [addKey, List.mem_singleton] at hb
    subst hb
    exact .inl ⟨List.mem_singleton.1 hk, rfl⟩
  | cons first rest ih =>
    rw [addKey] at hb
    split at hb
    · rename_i hperiod
      rcases List.mem_cons.1 hb with rfl | hb
      · dsimp only at hk
        split at hk
        · exact .inr ⟨first, List.mem_cons_self, rfl, hk⟩
        · rcases List.mem_append.1 hk with hk | hk
          · exact .inr ⟨first, List.mem_cons_self, rfl, hk⟩
          · exact .inl ⟨List.mem_singleton.1 hk, hperiod⟩
      · exact .inr ⟨b, List.mem_cons_of_mem _ hb, rfl, hk⟩
    · rcases List.mem_cons.1 hb with rfl | hb
      · exact .inr ⟨first, List.mem_cons_self, rfl, hk⟩
      · refine (ih hb).imp_right ?_
        rintro ⟨b', hb', hsame⟩
        exact ⟨b', List.mem_cons_of_mem _ hb', hsame⟩

theorem Timely.filing (h : r.Timely) {k : Key} {period : Int} (hk : k.period ≤ period)
    (v : Value) : (r.filing k v period).Timely := by
  intro b hb k' hk'
  rcases mem_addKey hb hk' with ⟨rfl, hperiod⟩ | ⟨b', hb', hsame, hk'⟩
  · exact hperiod ▸ hk
  · exact hsame ▸ h b' hb' k' hk'

theorem Timely.mem_swept (h : r.Timely) {e : Key × Value} (he : e ∈ r.kept) {now : Int}
    (hnow : now ≤ e.1.period) : e ∈ (r.swept now).kept := by
  have hnot : e.1 ∉ r.outdated now := by
    intro hold
    obtain ⟨b, hb, hk⟩ := List.mem_flatMap.1 hold
    obtain ⟨hb, hbefore⟩ := List.mem_filter.1 hb
    have hperiod := h b hb e.1 hk
    have hbefore : b.1 < now := decide_eq_true_iff.1 hbefore
    omega
  exact List.mem_filter.2 ⟨he, by simpa using hnot⟩

/-- What a resolver keeps up as long as the period does not change back within a step. -/
structure Sound (r : Resolver) : Prop where
  matched : r.Matched
  timely : r.Timely
  lifetime : r.lifetime ≠ 0

namespace Sound

theorem swept (h : r.Sound) (now : Int) : (r.swept now).Sound :=
  ⟨h.matched.swept now, h.timely.swept now, h.lifetime⟩

theorem tidied (h : r.Sound) (readings : Readings) : (r.tidied readings).Sound := by
  rw [Resolver.tidied]
  split
  · exact h.swept _
  · exact h

end Sound

theorem Sound.stepped (h : r.Sound) {readings : Readings} {asked : Bool}
    (hstep : r.step readings n = .ok (v, r', asked)) :
    Stepped r readings n (.ok (v, r', asked)) :=
  hstep ▸ stepped_step h.matched readings n

theorem period_of_keyAt? {k : Key} (hkey : r.keyAt? time n = some k) :
    k.period = time.tdiv r.lifetime := by
  obtain ⟨fullName, -, -, rfl⟩ := keyAt?_eq_some_iff.1 hkey
  rfl

theorem Sound.step (h : r.Sound) {readings : Readings} {asked : Bool}
    (hforward : readings.key.tdiv r.lifetime ≤ readings.bucket.tdiv r.lifetime)
    (hstep : r.step readings n = .ok (v, r', asked)) : r'.Sound := by
  cases h.stepped hstep with
  | passing | hit => exact h
  | miss _ hkey hnew =>
    have ht := h.tidied readings
    refine ⟨ht.matched.filing (not_mem_keys_tidied hnew) _ _, ht.timely.filing ?_ _, ht.lifetime⟩
    rw [period_of_keyAt? hkey]
    exact hforward

theorem Sound.act (h : r.Sound) {u : Use} (hu : u.isForward r.lifetime = true) :
    (u.act r).Sound ∧ (u.act r).lifetime = r.lifetime := by
  cases u with
  | step readings n =>
    rw [Use.act]
    cases hstep : r.step readings n with
    | error f => exact ⟨h, rfl⟩
    | ok answer =>
      obtain ⟨v, t, asked⟩ := answer
      refine ⟨h.step (decide_eq_true_iff.1 hu) hstep, ?_⟩
      cases h.stepped hstep with
      | passing | hit => rfl
      | miss => exact (r.alike_tidied readings).lifetime
  | setModules modules =>
    rw [Use.act]
    cases hset : r.setModules modules with
    | error f => exact ⟨h, rfl⟩
    | ok t =>
      obtain ⟨items, -, hset⟩ := exists_of_bind_eq_ok hset
      split at hset
      · obtain rfl := Except.ok.inj hset
        exact ⟨⟨⟨h.matched.nodup_keys, h.matched.nodup_periods, h.matched.nodup_filed,
          h.matched.mem_filed⟩, h.timely, h.lifetime⟩, rfl⟩
      · cases hset
  | sweep time =>
    rw [Use.act, period_eq h.lifetime, ok_bind, sweep_eq h.matched]
    exact ⟨h.swept _, rfl⟩

theorem Sound.run (h : r.Sound) {uses : List Use}
    (huses : ∀ u ∈ uses, u.isForward r.lifetime = true) : (r.run uses).Sound := by
  induction uses generalizing r with
  | nil => exact h
  | cons u uses ih =>
    rw [List.forall_mem_cons] at huses
    obtain ⟨hact, hlife⟩ := h.act huses.1
    exact ih hact (hlife ▸ huses.2)

theorem sound_empty (product : Product) (onError : Value) {lifetime : Int} (hlife : lifetime ≠ 0)
    (modules : List Value) : (empty product onError lifetime modules).Sound :=
  ⟨⟨List.nodup_nil, List.nodup_nil, List.nodup_nil, fun _ => Iff.rfl⟩,
    fun _ hb => absurd hb List.not_mem_nil, hlife⟩

/-! ## Answers that are settled -/

/-- Asking about the completion gives the value, and changes nothing. -/
def Settled (r : Resolver) (time : Int) (n : Name) (v : Value) : Prop :=
  ∃ asked, r.get time n = .ok (v, r, asked)

theorem settled_of_mem (h : r.Sound) {k : Key} (hkey : r.keyAt? time n = some k)
    (hmem : (k, v) ∈ r.kept) : r.Settled time n v :=
  ⟨false, step_of_mem h.matched h.lifetime hkey hmem⟩

theorem Settled.cases (h : r.Sound) (hsettled : r.Settled time n v) :
    r.keyAt? time n = none ∧ v = r.resolve n ∨
      ∃ k, r.keyAt? time n = some k ∧ (k, v) ∈ r.kept := by
  obtain ⟨asked, hget⟩ := hsettled
  obtain ⟨r', hr, hget⟩ : ∃ r', r' = r ∧ r.get time n = .ok (v, r', asked) := ⟨r, rfl, hget⟩
  cases h.stepped hget with
  | passing hkey => exact .inl ⟨hkey, rfl⟩
  | hit _ hkey hmem => exact .inr ⟨_, hkey, hmem⟩
  | miss _ hkey _ =>
    have hkept := congrArg kept hr
    exact .inr ⟨_, hkey, hkept ▸ List.mem_append_right _ (List.mem_singleton_self _)⟩

/-- What asking about completions keeps. -/
structure Onward (time : Int) (r r' : Resolver) : Prop where
  sound : r'.Sound
  alike : r.Alike r'
  modules : r'.modules = r.modules
  kept : ∀ e ∈ r.kept, time.tdiv r.lifetime ≤ e.1.period → e ∈ r'.kept

theorem Onward.refl (h : r.Sound) : r.Onward time r := ⟨h, Alike.refl r, rfl, fun _ he _ => he⟩

theorem Onward.keyAt?_eq (h : r.Onward time r') (n : Name) :
    r'.keyAt? time n = r.keyAt? time n := by
  rw [keyAt?, keyAt?, h.alike.lifetime]
  simp only [isKept, h.modules]

theorem Settled.onward (h : r.Sound) (hon : r.Onward time r') (hsettled : r.Settled time n v) :
    r'.Settled time n v := by
  rcases hsettled.cases h with ⟨hkey, rfl⟩ | ⟨k, hkey, hmem⟩
  · refine ⟨true, ?_⟩
    rw [get, step_of_none ((hon.keyAt?_eq n).trans hkey), hon.alike.resolve_eq]
  · refine settled_of_mem hon.sound ((hon.keyAt?_eq n).trans hkey) (hon.kept _ hmem ?_)
    exact Int.le_of_eq (period_of_keyAt? hkey).symm

/-- **Asking about a completion settles it**, and unsettles no other one. -/
theorem Sound.get (h : r.Sound) {asked : Bool} (hget : r.get time n = .ok (v, r', asked)) :
    r.Onward time r' ∧ r'.Settled time n v := by
  have hsound : r'.Sound := h.step (Int.le_refl _) hget
  have hon : r.Onward time r' := by
    cases h.stepped hget with
    | passing | hit => exact .refl h
    | miss =>
      have halike := r.alike_tidied ⟨time, time, time, time⟩
      refine ⟨hsound, ⟨halike.product, halike.onError, halike.lifetime⟩, ?_, fun e he hnow => ?_⟩
      · rw [filing, Resolver.tidied]
        split <;> rfl
      · refine List.mem_append_left _ ?_
        rw [Resolver.tidied]
        split
        · exact h.timely.mem_swept he hnow
        · exact he
  refine ⟨hon, ?_⟩
  cases h.stepped hget with
  | passing hkey => exact ⟨true, step_of_none hkey⟩
  | hit _ hkey hmem => exact settled_of_mem h hkey hmem
  | miss _ hkey _ =>
    exact settled_of_mem hsound ((hon.keyAt?_eq n).trans hkey)
      (List.mem_append_right _ (List.mem_singleton_self _))

end Completion.Resolver

/-- What the resolvers of the host keep they have found themselves, and while a label was looked up
the clock did not go back into an earlier period. -/
structure Host.Primed (h : Host) : Prop where
  labels : ∃ uses, (∀ u ∈ uses, Completion.Resolver.Use.isForward 1800 u = true) ∧
    h.labels = ({ product := .label, onError := .str "" } : Completion.Resolver).run uses
  snippets : ∃ uses, h.snippets =
    ({ product := .snippet, onError := .object [] } : Completion.Resolver).run uses

theorem Host.Primed.of_eq {h h' : Host} (hp : h.Primed) (hlabels : h'.labels = h.labels)
    (hsnippets : h'.snippets = h.snippets) : h'.Primed :=
  ⟨by rw [hlabels]; exact hp.labels, by rw [hsnippets]; exact hp.snippets⟩

theorem Host.Primed.work {h h' : Host} (hp : h.Primed) (hstep : h.Work h') : h'.Primed := by
  rcases hstep with ((hstep | hrun) | _) | _ | _ | _ | ⟨u, hu⟩ | ⟨u⟩
  · rcases hstep with _ | _ <;> exact hp.of_eq rfl rfl
  · obtain ⟨spaces, cache, rfl⟩ := exists_of_extendIgnores hrun
    exact hp.of_eq rfl rfl
  case labels =>
    obtain ⟨uses, hforward, huses⟩ := hp.labels
    refine ⟨⟨uses ++ [u], List.forall_mem_append.2 ⟨hforward, ?_⟩, ?_⟩, hp.snippets⟩
    · rwa [List.forall_mem_singleton]
    · rw [Completion.Resolver.run_append, ← huses]
  case snippets =>
    obtain ⟨uses, huses⟩ := hp.snippets
    refine ⟨hp.labels, uses ++ [u], ?_⟩
    rw [Completion.Resolver.run_append, ← huses]
  all_goals exact hp.of_eq rfl rfl

theorem Host.Primed.sound {h : Host} (hp : h.Primed) : h.labels.Sound := by
  obtain ⟨uses, huses, hlabels⟩ := hp.labels
  rw [hlabels]
  have hempty := Completion.Resolver.sound_empty .label (.str "") (show (1800 : Int) ≠ 0 by decide)
    (["pandas", "numpy", "tensorflow", "matplotlib"].map .str)
  exact hempty.run huses

theorem Host.Primed.steps {h h' : Host} (hp : h.Primed) (hsteps : ReflTransGen Work h h') :
    h'.Primed := by
  induction hsteps with
  | refl => exact hp
  | tail _ hstep ih => exact ih.work hstep

/-! ## Look-ups on the host -/

/-- A question to a resolver. -/
structure Completion.Lookup where
  product : Product
  name : Name

/-- The label of a name, by what its resolver gave. -/
def Completion.labelText (n : Name) : Value → String
  | .str s => if s.isEmpty then n.name else s
  | _ => n.name

namespace Host

open Completion

variable {h h' : Host} {ask : Bool} {n : Name} {label : String}

/-- The resolver for a product. -/
def resolver (h : Host) : Product → Resolver
  | .label => h.labels
  | .snippet => h.snippets

def withResolver (h : Host) (r : Resolver) : Product → Host
  | .label => { h with labels := r }
  | .snippet => { h with snippets := r }

/-- The host after a look-up. What fails changes nothing. -/
def look (h : Host) (q : Lookup) : Host :=
  match (h.resolver q.product).get h.machine.time q.name with
  | .ok (_, r, asked) =>
    let h := h.withResolver r q.product
    if asked then { h with asked := h.asked ++ [.signatures q.name.name] } else h
  | .error _ => h

/-- **What a look-up changes**: the resolver that is asked, and what the engine was asked. -/
theorem look_eq (h : Host) (q : Lookup) : ∃ (r : Resolver) (sought : List String),
    h.look q = { h.withResolver r q.product with asked := h.asked ++ sought.map .signatures } ∧
      sought.Sublist [q.name.name] ∧ (r = h.resolver q.product ∨ ∃ v b,
        (h.resolver q.product).get h.machine.time q.name = .ok (v, r, b)) := by
  have hasked : ∀ r, (h.withResolver r q.product).asked = h.asked := by
    intro r
    cases q.product <;> rfl
  have hsame : ∀ r, { h.withResolver r q.product with asked := h.asked ++ [] } =
      h.withResolver r q.product := by
    intro r
    rw [List.append_nil]
    cases q.product <;> rfl
  rw [look]
  split
  · rename_i v r b hget
    dsimp only
    split
    · exact ⟨r, [q.name.name], by rw [hasked]; rfl, List.Sublist.refl _, .inr ⟨v, b, hget⟩⟩
    · exact ⟨r, [], (hsame r).symm, List.nil_sublist _, .inr ⟨v, b, hget⟩⟩
  · refine ⟨_, [], Eq.trans ?_ (hsame _).symm, List.nil_sublist _, .inl rfl⟩
    cases q.product <;> rfl

theorem work_look (h : Host) (q : Lookup) : ReflTransGen Work h (h.look q) := by
  rw [look]
  split
  · rename_i v r asked hget
    have hr : r = Resolver.Use.act (h.resolver q.product) (.step
        ⟨h.machine.time, h.machine.time, h.machine.time, h.machine.time⟩ q.name) := by
      rw [Resolver.Use.act, ← Resolver.get, hget]
      rfl
    have hstore : Work h (h.withResolver r q.product) := by
      rw [hr]
      cases q.product with
      | label => exact .labels h _ (decide_eq_true (Int.le_refl _))
      | snippet => exact .snippets h _
    dsimp only
    split
    · exact (ReflTransGen.single hstore).tail (Consult.asked _ _).work
    · exact .single hstore
  · exact .refl

theorem machine_look (h : Host) (q : Lookup) : (h.look q).machine = h.machine := by
  obtain ⟨r, sought, heq, -⟩ := h.look_eq q
  rw [heq]
  cases q.product <;> rfl

theorem onward_look (hs : h.labels.Sound) (q : Lookup) :
    h.labels.Onward h.machine.time (h.look q).labels := by
  obtain ⟨r, sought, heq, -, hr⟩ := h.look_eq q
  rw [heq]
  obtain ⟨product, name⟩ := q
  cases product with
  | snippet => exact .refl hs
  | label =>
    rcases hr with rfl | ⟨v, b, hget⟩
    · exact .refl hs
    · exact (hs.get hget).1

/-! ## Labels that are settled -/

/-- The name gets the label whenever it is asked for, and nothing but the name if it is not looked
up. -/
def Settles (h : Host) (ask : Bool) (n : Name) (label : String) : Prop :=
  if ask then ∃ v, h.labels.Settled h.machine.time n v ∧ labelText n v = label
  else label = n.name

theorem Settles.look (hs : h.labels.Sound) (hsettles : h.Settles ask n label) (q : Lookup) :
    (h.look q).Settles ask n label := by
  cases ask with
  | false => exact hsettles
  | true =>
    obtain ⟨v, hsettled, hlabel⟩ := hsettles
    refine ⟨v, ?_, hlabel⟩
    rw [machine_look]
    exact hsettled.onward hs (onward_look hs q)

/-- The host comes from the other one by look-ups. -/
def Looks (h h' : Host) : Prop := ∃ qs : List Lookup, h' = qs.foldl look h

theorem Looks.refl (h : Host) : h.Looks h := ⟨[], rfl⟩

theorem Looks.trans {h'' : Host} (hl : h.Looks h') (hl' : h'.Looks h'') : h.Looks h'' := by
  obtain ⟨qs, rfl⟩ := hl
  obtain ⟨qs', rfl⟩ := hl'
  exact ⟨qs ++ qs', (List.foldl_append ..).symm⟩

theorem Looks.keeps {P : Host → Prop} (hP : ∀ h q, P h → P (h.look q)) (hl : h.Looks h')
    (hh : P h) : P h' := by
  obtain ⟨qs, rfl⟩ := hl
  induction qs generalizing h with
  | nil => exact hh
  | cons q qs ih => exact ih (hP h q hh)

theorem Looks.machine (hl : h.Looks h') : h'.machine = h.machine :=
  hl.keeps (P := fun t => t.machine = h.machine) (fun t q ht => (machine_look t q).trans ht) rfl

theorem Looks.sound (hl : h.Looks h') (hs : h.labels.Sound) : h'.labels.Sound :=
  hl.keeps (P := fun h => h.labels.Sound) (fun _ q hs => (onward_look hs q).sound) hs

theorem Looks.work (hl : h.Looks h') : ReflTransGen Work h h' :=
  hl.keeps (P := ReflTransGen Work h) (fun t q ht => ht.trans (work_look t q)) .refl

theorem Looks.primed (hl : h.Looks h') (hp : h.Primed) : h'.Primed := hp.steps hl.work

theorem Looks.settles (hl : h.Looks h') (hs : h.labels.Sound) (hsettles : h.Settles ask n label) :
    h'.Settles ask n label := by
  have hboth := hl.keeps (P := fun h => h.labels.Sound ∧ h.Settles ask n label)
    (fun _ q hh => ⟨(onward_look hh.1 q).sound, hh.2.look hh.1 q⟩) ⟨hs, hsettles⟩
  exact hboth.2

end Host

/-! ## Items -/

namespace Completion

open Host

theorem ensures_askResolver (h : Host) (q : Lookup) :
    Ensures (askResolver (·.resolver q.product) (fun h r => h.withResolver r q.product) q.name) h
      (fun v t => t = h.look q ∧ ∃ r asked,
        (h.resolver q.product).get h.machine.time q.name = .ok (v, r, asked))
      fun _ t => t = h := by
  simp only [askResolver, ensures_bind, ensures_get, ensures_liftExcept, ensures_set]
  refine ⟨?_, fun _ _ => trivial⟩
  rintro ⟨v, r, asked⟩ hget
  rw [look, hget]
  cases asked with
  | false => exact ⟨rfl, r, false, rfl⟩
  | true => exact ⟨rfl, r, true, rfl⟩

/-- The look-ups for a product, if it is asked for. -/
def lookupsIf (ask : Bool) (product : Product) (n : Name) : List Lookup :=
  if ask then [⟨product, n⟩] else []

/-- **The label of a name**: a look-up settles it, and one that is settled stays. -/
theorem ensures_itemLabel (h : Host) (ask : Bool) (n : Name) :
    Ensures (itemLabel ask n) h
      (fun label t => t = (lookupsIf ask .label n).foldl look h ∧
        (h.labels.Sound → t.Settles ask n label) ∧ ∀ s, h.Settles ask n s → label = s)
      fun _ t => t = h := by
  cases ask with
  | false => exact ⟨rfl, fun _ => rfl, fun s hs => hs.symm⟩
  | true =>
    rw [itemLabel]
    refine (ensures_bind _ _ _ _ _).2 ((ensures_askResolver h ⟨.label, n⟩).imp ?_)
    rintro v t ⟨rfl, r, asked, hget⟩
    have hlook : (h.look ⟨.label, n⟩).labels = r := by
      rw [look, hget]
      cases asked <;> rfl
    have hanswer : ∀ label, labelText n v = label →
        (h.labels.Sound → (h.look ⟨.label, n⟩).Settles true n label) ∧
          ∀ s, h.Settles true n s → label = s := by
      rintro label rfl
      refine ⟨fun hs => ⟨v, ?_, rfl⟩, ?_⟩
      · rw [machine_look, hlook]
        exact (hs.get hget).2
      · rintro s ⟨v', ⟨asked', hget'⟩, rfl⟩
        have hsame := Except.ok.inj (hget.symm.trans hget')
        rw [(Prod.mk.inj hsame).1]
    split
    · exact ⟨rfl, hanswer _ rfl⟩
    · rename_i hother
      refine ⟨rfl, hanswer _ ?_⟩
      cases v with
      | str s => exact absurd rfl (hother s)
      | _ => rfl

theorem ensures_itemSnippet (h : Host) (ask : Bool) (n : Name) :
    Ensures (itemSnippet ask n) h
      (fun snippet t => t = (lookupsIf ask .snippet n).foldl look h ∧
        (ask = false → snippet = []) ∧ (h.Primed → Value.lookup "label" snippet = none))
      fun _ t => t = h := by
  cases ask with
  | false => exact ⟨rfl, fun _ => rfl, fun _ => rfl⟩
  | true =>
    rw [itemSnippet]
    refine (ensures_bind _ _ _ _ _).2 ((ensures_askResolver h ⟨.snippet, n⟩).imp ?_)
    rintro v t ⟨rfl, r, asked, hget⟩
    split
    · rename_i members
      refine ⟨rfl, Bool.noConfusion, ?_⟩
      intro hp
      obtain ⟨uses, huses⟩ := hp.snippets
      have hget : h.snippets.get h.machine.time n = .ok (.object members, r, asked) := hget
      rw [huses, Resolver.get] at hget
      obtain ⟨m, hm⟩ := (Resolver.reached_empty .snippet (.object []) 1800
        (["pandas", "numpy", "tensorflow", "matplotlib"].map .str) uses).exists_resolve hget
      exact Resolver.lookup_label_resolve rfl rfl m hm.symm
    · exact ⟨rfl, Bool.noConfusion, fun _ => rfl⟩

/-- The item for a name with a label and the members of a snippet. -/
def itemWith (label : String) (eager : Bool) (snippet : Item) (n : Name) : Except Fault Item := do
  let item : Item := [("label", .str label), ("kind", kindValue kinds n.kind),
    ("sortText", .str (sortText n)), ("insertText", .str n.name)]
  let item ← (if eager then resolveItem item n else pure item)
  let item :=
    if n.kind = "path" then Value.insert "insertText" (.str (pathText n.name)) item else item
  return Value.insertAll item snippet

theorem labelOf?_itemWith {label : String} {eager : Bool} {snippet item : Item} {n : Name}
    (hitem : itemWith label eager snippet n = .ok item)
    (hsnippet : Value.lookup "label" snippet = none) : labelOf? item = some label := by
  rw [itemWith] at hitem
  obtain ⟨made, hmade, hitem⟩ := exists_of_bind_eq_ok hitem
  obtain rfl := Except.ok.inj hitem
  have hlabel : labelOf? made = some label := by
    split at hmade
    · rw [lookup_label_resolveItem hmade]
      rfl
    · obtain rfl := Except.ok.inj hmade
      rfl
  rw [labelOf?_eq_some_iff, lookup_insertAll hsnippet, ← labelOf?_eq_some_iff]
  split
  · rw [labelOf?_insert (by decide), hlabel]
  · exact hlabel

/-- The look-ups for an item on a machine. -/
def Wishes.lookups (w : Wishes) (m : Machine) (n : Name) : List Lookup :=
  if w.resolvers then
    ⟨.label, n⟩ :: if w.snippet && !m.exceptionClasses.contains n.name then [⟨.snippet, n⟩] else []
  else []

/-- How an item was made, between the host before it and the host after it. -/
structure Making (n : Name) (w : Wishes) (h t : Host) (label : String) (snippet item : Item) :
    Prop where
  item_eq : itemWith label w.eager snippet n = .ok item
  bare : w.resolvers = false → label = n.name ∧ snippet = []
  plain : w.snippet = false → snippet = []
  settles : h.labels.Sound → t.Settles w.resolvers n label
  settled : ∀ s, h.Settles w.resolvers n s → label = s
  unlabelled : h.Primed → Value.lookup "label" snippet = none

theorem Making.labelOf?_eq {n : Name} {w : Wishes} {h t : Host} {label : String}
    {snippet item : Item} (hm : Making n w h t label snippet item) (hp : h.Primed) :
    labelOf? item = some label := labelOf?_itemWith hm.item_eq (hm.unlabelled hp)

/-- **What making an item does.** -/
theorem ensures_makeItem (n : Name) (w : Wishes) (h : Host) :
    Ensures (makeItem n w) h
      (fun item t => t = (w.lookups h.machine n).foldl look h ∧ ∃ label snippet,
        Making n w h t label snippet item)
      fun _ t => h.Looks t := by
  rw [makeItem]
  refine (ensures_itemLabel h w.resolvers n).bind ?_ fun _ t ht => ht ▸ .refl t
  rintro label t ⟨ht, hsettles, hsettled⟩
  have hlooks : h.Looks t := ⟨_, ht⟩
  have hmachine : t.machine = h.machine := hlooks.machine
  have hname : w.resolvers = false → label = n.name := by
    intro hw
    rw [hw] at hsettled
    exact hsettled n.name rfl
  -- the rest, once the item has its label and perhaps its detail
  have hrest : ∀ item, (∀ snippet, itemWith label w.eager snippet n = .ok (Value.insertAll
      (if n.kind = "path" then Value.insert "insertText" (.str (pathText n.name)) item else item)
      snippet)) → Ensures (do
        let item :=
          if n.kind = "path" then Value.insert "insertText" (.str (pathText n.name)) item else item
        let m := (← get).machine
        if w.snippet && !m.exceptionClasses.contains n.name then
          return Value.insertAll item (← itemSnippet w.resolvers n)
        else return item : Act Item) t
      (fun item t => t = (w.lookups h.machine n).foldl look h ∧ ∃ label snippet,
        Making n w h t label snippet item)
      fun _ t => h.Looks t := by
    intro item hitem
    rw [ensures_bind, ensures_get, hmachine]
    dsimp only
    split
    · rename_i hsnippet
      refine (ensures_itemSnippet t w.resolvers n).bind ?_ fun _ t ht => ht ▸ hlooks
      rintro snippet u ⟨hu, hnone, hlabel⟩
      refine ⟨?_, label, snippet, hitem snippet, fun hw => ⟨hname hw, hnone hw⟩, fun hw => ?_,
        fun hs => Looks.settles ⟨_, hu⟩ (hlooks.sound hs) (hsettles hs), hsettled,
        fun hp => hlabel (hlooks.primed hp)⟩
      · rw [hu, ht, Wishes.lookups, if_pos hsnippet]
        cases w.resolvers <;> rfl
      · rw [hw] at hsnippet
        cases hsnippet
    · rename_i hsnippet
      refine ⟨?_, label, [], hitem [], fun hw => ⟨hname hw, rfl⟩, fun _ => rfl, hsettles, hsettled,
        fun _ => rfl⟩
      rw [ht, Wishes.lookups, if_neg hsnippet]
      cases w.resolvers <;> rfl
  dsimp only
  cases heager : w.eager with
  | false =>
    refine hrest _ fun snippet => ?_
    rw [itemWith, heager]
    rfl
  | true =>
    rw [if_pos rfl, ensures_bind, ensures_liftExcept]
    refine ⟨fun item hitem => hrest item fun snippet => ?_, fun _ _ => hlooks⟩
    rw [itemWith, heager, if_pos rfl, hitem]
    rfl

/-! ## Two rounds of items -/

/-- Items that are made one after the other: their look-ups follow each other, and each item is made
between two hosts on the way. -/
theorem ensures_mapM_look {α β : Type} {f : α → Act β} (looks : Machine → α → List Lookup)
    {P : α → Host → β → Host → Prop}
    (hf : ∀ a h, Ensures (f a) h (fun b t => t = (looks h.machine a).foldl look h ∧ P a h b t)
      fun _ t => h.Looks t) (xs : List α) (h : Host) :
    Ensures (xs.mapM f) h
      (fun bs t => t = (xs.flatMap (looks h.machine)).foldl look h ∧
        List.Forall₂ (fun a b => ∃ u u', h.Looks u ∧ u.Looks u' ∧ u'.Looks t ∧ P a u b u') xs bs)
      fun _ t => h.Looks t := by
  induction xs generalizing h with
  | nil => exact ⟨rfl, .nil⟩
  | cons a xs ih =>
    rw [List.mapM_cons]
    refine (hf a h).bind ?_ fun _ _ h => h
    rintro b u ⟨hu, hb⟩
    have hlooks : h.Looks u := ⟨looks h.machine a, hu⟩
    refine (ih u).bind ?_ fun _ _ ht => hlooks.trans ht
    rintro bs t ⟨ht, hbs⟩
    rw [hlooks.machine] at ht
    refine ⟨?_, .cons ⟨h, u, .refl h, hlooks, ⟨_, ht⟩, hb⟩ (hbs.imp ?_)⟩
    · rw [ht, hu, List.flatMap_cons, List.foldl_append]
    · rintro a' b' ⟨s, s', hs, hrest⟩
      exact ⟨s, s', hlooks.trans hs, hrest⟩

/-- The item was made for the name, somewhere between the hosts. -/
def MadeFor (n : Name) (w : Wishes) (h t : Host) (label : String) (snippet item : Item) : Prop :=
  ∃ u u', h.Looks u ∧ u.Looks u' ∧ u'.Looks t ∧ makeItem n w u = .ok item u' ∧
    Making n w u u' label snippet item

/-- Both rounds, where `shape` is what becomes of an item. -/
theorem ensures_mapM_makeItem (shape : Item → Item) (w : Name × Nat → Wishes)
    (xs : List (Name × Nat)) (h : Host) :
    Ensures (xs.mapM fun a => do return shape (← makeItem a.1 (w a))) h
      (fun items t => t = (xs.flatMap fun a => (w a).lookups h.machine a.1).foldl look h ∧
        List.Forall₂ (fun a item => ∃ label snippet made,
          MadeFor a.1 (w a) h t label snippet made ∧ item = shape made) xs items)
      fun _ t => h.Looks t := by
  have hmake : ∀ (a : Name × Nat) h, Ensures (do return shape (← makeItem a.1 (w a)) : Act Item) h
      (fun item t => t = ((w a).lookups h.machine a.1).foldl look h ∧ ∃ label snippet made,
        (makeItem a.1 (w a) h = .ok made t ∧ Making a.1 (w a) h t label snippet made) ∧
          item = shape made) fun _ t => h.Looks t := by
    intro a h
    refine ((Ensures.self _ _).and (ensures_makeItem a.1 (w a) h)).bind ?_ fun _ _ h => h.2
    rintro made t ⟨hrun, ht, label, snippet, hmaking⟩
    exact ⟨ht, label, snippet, made, ⟨hrun, hmaking⟩, rfl⟩
  refine (ensures_mapM_look (fun m a => (w a).lookups m a.1) hmake xs h).imp ?_
  rintro items t ⟨ht, hitems⟩
  refine ⟨ht, hitems.imp ?_⟩
  rintro a item ⟨u, u', hu, hu', hut, label, snippet, made, hmade, hitem⟩
  exact ⟨label, snippet, made, ⟨u, u', hu, hu', hut, hmade⟩, hitem⟩

end Completion
end LangServer
