import LangServer.Debounce
import Mathlib.Data.List.Nodup
import Mathlib.Logic.Function.Basic

/-!
# Calls that race with timers

A timer that has expired waits until its run begins, and until then it can no longer be cancelled.
`Debouncer` follows a debounced function in these steps: a call, the expiry of a timer, and the
beginning of its run may follow on each other in any order. A run takes the timer out that is
stored for its key, whichever that is, and fails if there is none.

* `Sound` holds in every state. Its `balance` counts for each key: the timers that wait and the
  runs that failed are as many as the timers stored and the calls that came too late to cancel
  (`Debouncer.Overtakes`). So whenever nothing waits, exactly as many runs have failed as calls
  have overtaken an expired timer (`failed_eq_overtaken`).
* `UpToDate` holds as long as no call overtakes. Then no run fails, and whenever nothing waits the
  last call of every key is the one that was executed last (`UpToDate.lastOf_executed`).
-/

namespace LangServer

variable {κ α : Type}

/-! ## The steps -/

/-- A timer that was started and not cancelled, with the call it is for. -/
structure Ticket (κ α : Type) where
  number : Nat
  key : κ
  call : α
  /-- Has its time come?  Then it waits for its run. -/
  expired : Bool := false

/-- A debounced function at work. -/
structure Debouncer (κ α : Type) where
  /-- The number of the next timer. -/
  next : Nat := 0
  /-- The timers that wait, for their time or for their run. -/
  waiting : List (Ticket κ α) := []
  /-- The timer that is stored for a key. -/
  stored : κ → Option Nat := fun _ => none
  /-- The calls so far, with their keys. -/
  called : List (κ × α) := []
  /-- The calls that were executed so far. -/
  executed : List (κ × α) := []
  /-- The keys of the runs that found no timer stored. -/
  failed : List κ := []
  /-- The keys of the calls that came too late to cancel the timer stored. -/
  overtaken : List κ := []

namespace Debouncer

/-- What can happen. -/
inductive Step (α : Type) where
  | call (c : α)
  /-- The time of a timer comes. -/
  | expire (n : Nat)
  /-- The run of an expired timer begins. -/
  | run (n : Nat)

/-- The timer that is stored for the key has expired and waits for its run. -/
def IsLate (d : Debouncer κ α) (k : κ) : Prop :=
  ∃ t ∈ d.waiting, d.stored k = some t.number ∧ t.expired = true

instance (d : Debouncer κ α) (k : κ) : Decidable (d.IsLate k) :=
  inferInstanceAs (Decidable (∃ t ∈ d.waiting, d.stored k = some t.number ∧ t.expired = true))

/-- The timers that wait once the one stored for a key was cancelled, which does nothing to a timer
that has expired. -/
def cancelled (d : Debouncer κ α) (k : κ) : List (Ticket κ α) :=
  d.waiting.eraseP fun t => d.stored k == some t.number && !t.expired

variable [DecidableEq κ]

/-- A call with a key: the stored timer is cancelled, and a new one is stored and started. -/
def place (d : Debouncer κ α) (k : κ) (c : α) : Debouncer κ α :=
  { d with
    next := d.next + 1
    waiting := d.cancelled k ++ [⟨d.next, k, c, false⟩]
    stored := Function.update d.stored k (some d.next)
    called := d.called ++ [(k, c)]
    overtaken := if d.IsLate k then d.overtaken ++ [k] else d.overtaken }

/-- The time of a timer comes. -/
def expire (d : Debouncer κ α) (n : Nat) : Debouncer κ α :=
  { d with waiting := d.waiting.map fun t =>
      if t.number = n then { t with expired := true } else t }

/-- The run of a timer: what is stored for its key is taken out, and then the call is executed. If
nothing is stored the run fails. -/
def begin (d : Debouncer κ α) (t : Ticket κ α) : Debouncer κ α :=
  let waiting := d.waiting.eraseP fun u => u.number == t.number
  if (d.stored t.key).isSome then
    { d with
      waiting
      stored := Function.update d.stored t.key none
      executed := d.executed ++ [(t.key, t.call)] }
  else { d with waiting, failed := d.failed ++ [t.key] }

/-- What a step does. A call without a key is refused, and only an expired timer can run. -/
def step (key : α → Option κ) (d : Debouncer κ α) : Step α → Debouncer κ α
  | .call c =>
    match key c with
    | some k => d.place k c
    | none => d
  | .expire n => d.expire n
  | .run n =>
    match d.waiting.find? fun t => t.number == n && t.expired with
    | some t => d.begin t
    | none => d

/-- The step is a call that comes too late to cancel the timer that is stored for its key. -/
def Overtakes (key : α → Option κ) (d : Debouncer κ α) : Step α → Prop
  | .call c => ∃ k ∈ key c, d.IsLate k
  | _ => False

instance (key : α → Option κ) (d : Debouncer κ α) : (e : Step α) → Decidable (d.Overtakes key e)
  | .call c => inferInstanceAs (Decidable (∃ k ∈ key c, d.IsLate k))
  | .expire _ | .run _ => .isFalse fun h => h

/-- The last call with a key among some calls. -/
def lastOf (k : κ) (calls : List (κ × α)) : Option α :=
  (calls.filterMap fun c => if c.1 = k then some c.2 else none).getLast?

theorem lastOf_append (k : κ) (calls : List (κ × α)) (j : κ) (c : α) :
    lastOf k (calls ++ [(j, c)]) = if j = k then some c else lastOf k calls := by
  rw [lastOf, List.filterMap_append]
  by_cases h : j = k <;> simp [h, lastOf]

/-! ## Timers among those that wait -/

section

omit [DecidableEq κ]

variable {d : Debouncer κ α} {t : Ticket κ α}

theorem exists_of_eraseP {p : Ticket κ α → Bool} {ts : List (Ticket κ α)}
    (ht : t ∈ ts) (hp : p t = true) (hone : ∀ u ∈ ts, p u = true → u = t) :
    ∃ pre post, ts = pre ++ t :: post ∧ ts.eraseP p = pre ++ post := by
  obtain ⟨u, pre, post, -, hu, hts, herase⟩ := List.exists_of_eraseP ht hp
  obtain rfl : u = t := hone u (by simp [hts]) hu
  exact ⟨pre, post, hts, herase⟩

theorem mem_of_mem_cancelled {k : κ} (h : t ∈ d.cancelled k) : t ∈ d.waiting :=
  List.mem_of_mem_eraseP h

theorem mem_cancelled {k : κ} (ht : t ∈ d.waiting)
    (hne : d.stored k ≠ some t.number) : t ∈ d.cancelled k :=
  (List.mem_eraseP_of_neg (by simp [hne])).2 ht

theorem mem_of_find? {n : Nat}
    (h : d.waiting.find? (fun t => t.number == n && t.expired) = some t) : t ∈ d.waiting :=
  List.mem_of_find?_eq_some h

end

/-- How many timers with a key wait. -/
def count (k : κ) (ts : List (Ticket κ α)) : Nat := ts.countP fun t => t.key = k

theorem eq_of_count_le_one {k : κ} {ts : List (Ticket κ α)} (h : count k ts ≤ 1) {t u : Ticket κ α}
    (ht : t ∈ ts) (hu : u ∈ ts) (htk : t.key = k) (huk : u.key = k) : t = u := by
  obtain ⟨pre, post, rfl⟩ := List.append_of_mem ht
  rw [count, List.countP_append, List.countP_cons_of_pos (by simp [htk])] at h
  have hpre : ∀ v ∈ pre, ¬ v.key = k := by
    simpa using List.countP_eq_zero.1 (show pre.countP (fun t => t.key = k) = 0 by omega)
  have hpost : ∀ v ∈ post, ¬ v.key = k := by
    simpa using List.countP_eq_zero.1 (show post.countP (fun t => t.key = k) = 0 by omega)
  rcases List.mem_append.1 hu with hu | hu
  · exact absurd huk (hpre u hu)
  · rcases List.mem_cons.1 hu with rfl | hu
    · rfl
    · exact absurd huk (hpost u hu)

theorem count_append_cons (k : κ) (pre post : List (Ticket κ α)) (t : Ticket κ α) :
    count k (pre ++ t :: post) = count k (pre ++ post) + if t.key = k then 1 else 0 := by
  simp only [count, List.countP_append, List.countP_cons, decide_eq_true_eq]
  omega

/-! ## What holds in every state -/

/-- What holds in every state. -/
structure Sound (d : Debouncer κ α) : Prop where
  nodup : (d.waiting.map (·.number)).Nodup
  lt_next : ∀ t ∈ d.waiting, t.number < d.next
  /-- A timer that is stored waits. -/
  exists_of_stored : ∀ k n, d.stored k = some n → ∃ t ∈ d.waiting, t.number = n ∧ t.key = k
  /-- Of each key, as many timers wait and have failed as are stored and were overtaken. -/
  balance : ∀ k, count k d.waiting + d.failed.count k =
    (if (d.stored k).isSome then 1 else 0) + d.overtaken.count k

variable {d : Debouncer κ α}

theorem sound_empty : ({} : Debouncer κ α).Sound :=
  ⟨List.nodup_nil, by simp, by simp, fun k => by simp [count]⟩

theorem Sound.eq_of_number (h : d.Sound) {t u : Ticket κ α} (ht : t ∈ d.waiting)
    (hu : u ∈ d.waiting) (hn : t.number = u.number) : t = u :=
  List.inj_on_of_nodup_map h.nodup ht hu hn

theorem Sound.cancelled_cases (h : d.Sound) (k : κ) :
    (∃ t pre post, d.stored k = some t.number ∧ t.key = k ∧ t.expired = false ∧
      d.waiting = pre ++ t :: post ∧ d.cancelled k = pre ++ post ∧ ¬ d.IsLate k) ∨
    d.cancelled k = d.waiting ∧ (d.IsLate k ∨ d.stored k = none) := by
  cases hk : d.stored k with
  | none =>
    refine .inr ⟨?_, .inr rfl⟩
    rw [cancelled, hk, List.eraseP_of_forall_not (by simp)]
  | some n =>
    obtain ⟨t, ht, rfl, htk⟩ := h.exists_of_stored k n hk
    have hone : ∀ u ∈ d.waiting, d.stored k = some u.number → u = t := by
      intro u hu hun
      rw [hk, Option.some_inj] at hun
      exact h.eq_of_number hu ht hun.symm
    cases hexp : t.expired with
    | true =>
      refine .inr ⟨?_, .inl ⟨t, ht, hk, hexp⟩⟩
      rw [cancelled, List.eraseP_of_forall_not]
      intro u hu hpu
      rw [Bool.and_eq_true, beq_iff_eq] at hpu
      rw [hone u hu hpu.1, hexp] at hpu
      simp at hpu
    | false =>
      obtain ⟨pre, post, hts, herase⟩ := exists_of_eraseP
        (p := fun u => d.stored k == some u.number && !u.expired) ht (by simp [hk, hexp])
        fun u hu hpu => hone u hu (by simpa using (Bool.and_eq_true_iff.1 hpu).1)
      refine .inl ⟨t, pre, post, rfl, htk, hexp, hts, herase, ?_⟩
      rintro ⟨u, hu, hun, hue⟩
      rw [hone u hu hun, hexp] at hue
      cases hue

/-- **A call** keeps the balance: a timer that is cancelled makes room for the new one, and one that
could not be cancelled is counted. -/
theorem Sound.place (h : d.Sound) (k : κ) (c : α) : (d.place k c).Sound := by
  have hlt : ∀ t ∈ d.cancelled k, t.number < d.next := fun t ht =>
    h.lt_next t (mem_of_mem_cancelled ht)
  refine ⟨?_, fun t ht => ?_, fun j n hj => ?_, fun j => ?_⟩
  · have hsub : ((d.cancelled k).map (·.number)).Sublist (d.waiting.map (·.number)) :=
      List.eraseP_sublist.map _
    simp only [Debouncer.place, List.map_append, List.map_cons, List.map_nil]
    refine List.Nodup.append (h.nodup.sublist hsub) (List.nodup_singleton _) ?_
    rw [List.disjoint_singleton]
    intro hmem
    obtain ⟨t, ht, htn⟩ := List.mem_map.1 hmem
    exact Nat.ne_of_lt (hlt t ht) htn
  · rcases List.mem_append.1 ht with ht | ht
    · exact Nat.lt_succ_of_lt (hlt t ht)
    · rw [List.mem_singleton.1 ht]
      exact Nat.lt_succ_self _
  · by_cases hjk : j = k
    · subst hjk
      simp only [Debouncer.place, Function.update_self, Option.some_inj] at hj
      exact ⟨⟨d.next, j, c, false⟩, List.mem_append_right _ (List.mem_singleton_self _), hj, rfl⟩
    · simp only [Debouncer.place, Function.update_of_ne hjk] at hj
      obtain ⟨t, ht, htn, htj⟩ := h.exists_of_stored j n hj
      refine ⟨t, List.mem_append_left _ (mem_cancelled ht fun hk => hjk ?_), htn, htj⟩
      obtain ⟨u, hu, hun, huk⟩ := h.exists_of_stored k _ hk
      rw [← htj, ← huk, h.eq_of_number hu ht hun]
  · have hb := h.balance j
    simp only [Debouncer.place, count_append_cons, List.append_nil]
    by_cases hjk : j = k
    · subst hjk
      rcases h.cancelled_cases j with
        ⟨t, pre, post, hst, htk, -, hwait, hcan, hlate⟩ | ⟨hcan, hlate | hnone⟩
      · rw [hwait, count_append_cons, if_pos htk, hst] at hb
        simp only [hcan, if_neg hlate, if_true, Function.update_self, Option.isSome_some] at hb ⊢
        exact hb
      · have hst : (d.stored j).isSome = true := by
          obtain ⟨t, -, hst, -⟩ := hlate
          simp [hst]
        simp only [hcan, if_pos hlate, if_true, Function.update_self, Option.isSome_some,
          List.count_append, List.count_singleton_self, hst] at hb ⊢
        omega
      · have hlate : ¬ d.IsLate j := by
          rintro ⟨t, -, hst, -⟩
          rw [hnone] at hst
          cases hst
        simp only [hcan, hnone, if_neg hlate, if_true, Function.update_self, Option.isSome_some,
          Option.isSome_none, Bool.false_eq_true, if_false] at hb ⊢
        omega
    · have hcan : count j (d.cancelled k) = count j d.waiting := by
        rcases h.cancelled_cases k with ⟨t, pre, post, -, htk, -, hwait, hcan, -⟩ | ⟨hcan, -⟩
        · rw [hcan, hwait, count_append_cons, if_neg fun hj => hjk (hj.symm.trans htk),
            Nat.add_zero]
        · rw [hcan]
      have hover : (if d.IsLate k then d.overtaken ++ [k] else d.overtaken).count j =
          d.overtaken.count j := by
        split
        · rw [List.count_append, List.count_singleton, beq_false_of_ne (Ne.symm hjk)]
          rfl
        · rfl
      simp only [hcan, hover, Function.update_of_ne hjk, if_neg (Ne.symm hjk), Nat.add_zero]
      exact hb

theorem Sound.expire (h : d.Sound) (n : Nat) : (d.expire n).Sound := by
  have hnumber : ∀ t : Ticket κ α,
      (if t.number = n then { t with expired := true } else t).number = t.number := by
    intro t
    split <;> rfl
  have hkey : ∀ t : Ticket κ α,
      (if t.number = n then { t with expired := true } else t).key = t.key := by
    intro t
    split <;> rfl
  refine ⟨?_, fun t ht => ?_, fun k m hk => ?_, fun k => ?_⟩
  · rw [Debouncer.expire, List.map_map]
    exact (List.map_congr_left fun t _ => hnumber t) ▸ h.nodup
  · obtain ⟨u, hu, rfl⟩ := List.mem_map.1 ht
    rw [hnumber]
    exact h.lt_next u hu
  · obtain ⟨t, ht, htn, htk⟩ := h.exists_of_stored k m hk
    exact ⟨_, List.mem_map.2 ⟨t, ht, rfl⟩, (hnumber t).trans htn, (hkey t).trans htk⟩
  · rw [Debouncer.expire, count, List.countP_map]
    have hcount : ((fun t : Ticket κ α => decide (t.key = k)) ∘ fun t : Ticket κ α =>
        if t.number = n then { t with expired := true } else t) = fun t => decide (t.key = k) := by
      funext t
      rw [Function.comp_apply, hkey]
    rw [hcount]
    exact h.balance k

theorem Sound.eraseP_cases (h : d.Sound) (ht : t ∈ d.waiting) :
    ∃ pre post, d.waiting = pre ++ t :: post ∧
      d.waiting.eraseP (fun u => u.number == t.number) = pre ++ post :=
  exists_of_eraseP ht (by simp) fun _ hu hn => h.eq_of_number hu ht (beq_iff_eq.1 hn)

/-- **A run** keeps the balance: it takes a timer out that is stored, or it has failed. -/
theorem Sound.begin (h : d.Sound) (ht : t ∈ d.waiting) : (d.begin t).Sound := by
  obtain ⟨pre, post, hwait, herase⟩ := h.eraseP_cases ht
  have hnodup : ((pre ++ post).map (·.number)).Nodup := by
    rw [← herase]
    exact h.nodup.sublist (List.eraseP_sublist.map _)
  have hlt : ∀ u ∈ pre ++ post, u.number < d.next := by
    intro u hu
    rw [← herase] at hu
    exact h.lt_next u (List.mem_of_mem_eraseP hu)
  -- a timer that is stored for another key is another timer, and still waits
  have hothers : ∀ j n, j ≠ t.key → d.stored j = some n →
      ∃ u ∈ pre ++ post, u.number = n ∧ u.key = j := by
    intro j n hj hst
    obtain ⟨u, hu, hun, huj⟩ := h.exists_of_stored j n hst
    refine ⟨u, ?_, hun, huj⟩
    rw [← herase]
    refine (List.mem_eraseP_of_neg ?_).2 hu
    rw [beq_iff_eq]
    intro hn
    exact hj (huj.symm.trans (congrArg Ticket.key (h.eq_of_number hu ht hn)))
  have hb := fun j => h.balance j
  simp only [hwait, count_append_cons] at hb
  rw [Debouncer.begin, herase]
  split
  · rename_i hsome
    refine ⟨hnodup, hlt, fun j n hj => ?_, fun j => ?_⟩
    · by_cases hjt : j = t.key
      · simp [hjt] at hj
      · simp only [Function.update_of_ne hjt] at hj
        exact hothers j n hjt hj
    · have hj := hb j
      by_cases hjt : j = t.key
      · subst hjt
        simp only [hsome, if_true, Function.update_self, Option.isSome_none, Bool.false_eq_true,
          if_false] at hj ⊢
        omega
      · rw [if_neg (Ne.symm hjt), Nat.add_zero] at hj
        simp only [Function.update_of_ne hjt]
        exact hj
  · rename_i hnone
    refine ⟨hnodup, hlt, fun j n hj => ?_, fun j => ?_⟩
    · refine hothers j n (fun hjt => hnone ?_) hj
      rw [← hjt, hj]
      rfl
    · have hj := hb j
      rw [List.count_append]
      by_cases hjt : j = t.key
      · subst hjt
        simp only [hnone, if_true, Bool.false_eq_true, if_false, List.count_singleton_self] at hj ⊢
        omega
      · rw [List.count_singleton, beq_false_of_ne (Ne.symm hjt)]
        rw [if_neg (Ne.symm hjt), Nat.add_zero] at hj
        exact hj

theorem Sound.step (h : d.Sound) (key : α → Option κ) (e : Step α) : (d.step key e).Sound := by
  cases e with
  | call c =>
    rw [Debouncer.step]
    split
    · exact h.place _ c
    · exact h
  | expire n => exact h.expire n
  | run n =>
    rw [Debouncer.step]
    split
    · rename_i t ht
      exact h.begin (mem_of_find? ht)
    · exact h

theorem Sound.stored_eq_none (h : d.Sound) (hrest : d.waiting = []) (k : κ) :
    d.stored k = none := by
  cases hk : d.stored k with
  | none => rfl
  | some n =>
    obtain ⟨t, ht, -⟩ := h.exists_of_stored k n hk
    rw [hrest] at ht
    cases ht

/-- **Whenever nothing waits, of each key exactly as many runs have failed as calls have overtaken
an expired timer.** -/
theorem Sound.failed_eq_overtaken (h : d.Sound) (hrest : d.waiting = []) (k : κ) :
    d.failed.count k = d.overtaken.count k := by
  have hb := h.balance k
  rw [hrest, h.stored_eq_none hrest k] at hb
  simpa [count] using hb

/-! ## What holds as long as no call overtakes -/

/-- No call has overtaken. What waits for a key is its last call, and otherwise the last call was
executed last. -/
structure UpToDate (d : Debouncer κ α) : Prop extends d.Sound where
  overtaken : d.overtaken = []
  call_of_stored : ∀ t ∈ d.waiting, lastOf t.key d.called = some t.call
  lastOf_executed : ∀ k, d.stored k = none → lastOf k d.executed = lastOf k d.called

theorem upToDate_empty : ({} : Debouncer κ α).UpToDate :=
  ⟨sound_empty, rfl, by simp, fun _ _ => rfl⟩

theorem UpToDate.balance' (h : d.UpToDate) (k : κ) :
    count k d.waiting + d.failed.count k = if (d.stored k).isSome then 1 else 0 := by
  rw [h.balance k, h.overtaken]
  rfl

theorem UpToDate.failed_eq_nil (h : d.UpToDate) : d.failed = [] := by
  refine List.eq_nil_iff_forall_not_mem.2 fun k hk => ?_
  have hpos := List.count_pos_iff.2 hk
  have hb := h.balance' k
  cases hst : d.stored k with
  | none =>
    rw [hst] at hb
    simp only [Option.isSome_none, Bool.false_eq_true, if_false] at hb
    omega
  | some n =>
    -- a timer that is stored waits, so that the balance has no room for a failure
    obtain ⟨t, ht, -, htk⟩ := h.exists_of_stored k n hst
    have hcount : 0 < count k d.waiting := List.countP_pos_iff.2 ⟨t, ht, by simp [htk]⟩
    rw [hst] at hb
    simp only [Option.isSome_some, if_true] at hb
    omega

theorem UpToDate.count_eq (h : d.UpToDate) (k : κ) :
    count k d.waiting = if (d.stored k).isSome then 1 else 0 := by
  have hb := h.balance' k
  rwa [h.failed_eq_nil, List.count_nil, Nat.add_zero] at hb

theorem UpToDate.stored_of_mem (h : d.UpToDate) (ht : t ∈ d.waiting) :
    d.stored t.key = some t.number := by
  have hpos : 0 < count t.key d.waiting := List.countP_pos_iff.2 ⟨t, ht, by simp⟩
  have hcount := h.count_eq t.key
  cases hst : d.stored t.key with
  | none => simp [hst] at hcount; omega
  | some n =>
    obtain ⟨u, hu, hun, huk⟩ := h.exists_of_stored t.key n hst
    have hle : count t.key d.waiting ≤ 1 := by rw [hcount]; split <;> omega
    rw [← hun, eq_of_count_le_one hle hu ht huk rfl]

theorem UpToDate.place (h : d.UpToDate) {k : κ} (hk : ¬ d.IsLate k) (c : α) :
    (d.place k c).UpToDate := by
  refine ⟨h.toSound.place k c, ?_, fun t ht => ?_, fun j hj => ?_⟩
  · rw [Debouncer.place, if_neg hk]
    exact h.overtaken
  · simp only [Debouncer.place, lastOf_append]
    rcases List.mem_append.1 ht with ht | ht
    · have hwait := mem_of_mem_cancelled ht
      -- the timer of the key, if there was one, was cancelled
      have hne : k ≠ t.key := by
        rintro rfl
        have hst := h.stored_of_mem hwait
        rcases h.toSound.cancelled_cases t.key with
          ⟨u, pre, post, hu, -, -, hts, hcan, -⟩ | ⟨-, hlate | hnone⟩
        · rw [hst, Option.some_inj] at hu
          have hnodup := h.nodup
          rw [hts, List.map_append, List.map_cons, List.nodup_middle, List.nodup_cons] at hnodup
          refine hnodup.1 ?_
          rw [← hu, ← List.map_append, ← hcan]
          exact List.mem_map.2 ⟨t, ht, rfl⟩
        · exact hk hlate
        · rw [hnone] at hst
          cases hst
      rw [if_neg hne]
      exact h.call_of_stored t hwait
    · rw [List.mem_singleton.1 ht, if_pos rfl]
  · by_cases hjk : j = k
    · simp [Debouncer.place, hjk] at hj
    · simp only [Debouncer.place, Function.update_of_ne hjk] at hj
      simp only [Debouncer.place, lastOf_append, if_neg (Ne.symm hjk)]
      exact h.lastOf_executed j hj

theorem UpToDate.expire (h : d.UpToDate) (n : Nat) : (d.expire n).UpToDate := by
  refine ⟨h.toSound.expire n, h.overtaken, fun t ht => ?_, h.lastOf_executed⟩
  obtain ⟨u, hu, rfl⟩ := List.mem_map.1 ht
  have hcall := h.call_of_stored u hu
  split <;> exact hcall

theorem UpToDate.begin (h : d.UpToDate) (ht : t ∈ d.waiting) :
    (d.begin t).UpToDate ∧ (d.begin t).executed = d.executed ++ [(t.key, t.call)] := by
  have hst := h.stored_of_mem ht
  have hsome : (d.stored t.key).isSome = true := by rw [hst]; rfl
  have hsound := h.toSound.begin ht
  rw [Debouncer.begin, if_pos hsome] at hsound ⊢
  refine ⟨⟨hsound, h.overtaken, fun u hu => ?_, fun k hk => ?_⟩, rfl⟩
  · exact h.call_of_stored u (List.mem_of_mem_eraseP hu)
  · rw [lastOf_append]
    by_cases hkt : t.key = k
    · rw [if_pos hkt, ← hkt]
      exact (h.call_of_stored t ht).symm
    · rw [if_neg hkt]
      simp only [Function.update_of_ne (Ne.symm hkt)] at hk
      exact h.lastOf_executed k hk

theorem UpToDate.expire_run (h : d.UpToDate) (key : α → Option κ) {pre post : List (Ticket κ α)}
    (hwait : d.waiting = pre ++ t :: post) :
    let d' := [Step.expire t.number, Step.run t.number].foldl (Debouncer.step key) d
    d'.waiting = pre ++ post ∧ d'.called = d.called ∧
      d'.executed = d.executed ++ [(t.key, t.call)] := by
  have hnodup := h.nodup
  rw [hwait, List.map_append, List.map_cons, List.nodup_middle, List.nodup_cons,
    ← List.map_append] at hnodup
  have hothers : ∀ u ∈ pre ++ post, u.number ≠ t.number := fun u hu hn =>
    hnodup.1 (List.mem_map.2 ⟨u, hu, hn⟩)
  have hexpired : (d.expire t.number).waiting = pre ++ { t with expired := true } :: post := by
    have hkeep : ∀ us : List (Ticket κ α), (∀ u ∈ us, u.number ≠ t.number) →
        us.map (fun u => if u.number = t.number then { u with expired := true } else u) = us := by
      intro us hus
      exact (List.map_congr_left fun u hu => if_neg (hus u hu)).trans (List.map_id us)
    rw [Debouncer.expire, hwait, List.map_append, List.map_cons, if_pos rfl,
      hkeep pre fun u hu => hothers u (List.mem_append_left _ hu),
      hkeep post fun u hu => hothers u (List.mem_append_right _ hu)]
  have hpre : ∀ u ∈ pre, ¬ (u.number == t.number) = true := by
    intro u hu
    simpa using hothers u (List.mem_append_left _ hu)
  have hfind : (d.expire t.number).waiting.find? (fun u => u.number == t.number && u.expired) =
      some { t with expired := true } := by
    rw [hexpired, List.find?_append, List.find?_eq_none.2, Option.none_or,
      List.find?_cons_of_pos (by simp)]
    intro u hu
    simp [hpre u hu]
  have hmem : { t with expired := true } ∈ (d.expire t.number).waiting := by
    rw [hexpired]
    simp
  obtain ⟨-, hexecuted⟩ := (h.expire t.number).begin hmem
  simp only [List.foldl_cons, List.foldl_nil, Debouncer.step, hfind]
  refine ⟨?_, ?_, hexecuted⟩
  · have herase : (d.expire t.number).waiting.eraseP (fun u => u.number == t.number) =
        pre ++ post := by
      rw [hexpired, List.eraseP_append_right _ hpre, List.eraseP_cons_of_pos (by simp)]
    rw [Debouncer.begin]
    split <;> exact herase
  · rw [Debouncer.begin]
    split <;> rfl

/-- **One step** that does not overtake keeps the function up to date. -/
theorem UpToDate.step (h : d.UpToDate) {key : α → Option κ} {e : Step α}
    (he : ¬ d.Overtakes key e) : (d.step key e).UpToDate := by
  cases e with
  | call c =>
    rw [Debouncer.step]
    split
    · rename_i k hk
      exact h.place (fun hlate => he ⟨k, hk, hlate⟩) c
    · exact h
  | expire n => exact h.expire n
  | run n =>
    rw [Debouncer.step]
    split
    · rename_i t ht
      exact (h.begin (mem_of_find? ht)).1
    · exact h

theorem overtaken_step (key : α → Option κ) (d : Debouncer κ α) (e : Step α) :
    ∃ more, (d.step key e).overtaken = d.overtaken ++ more ∧ (d.Overtakes key e → more ≠ []) := by
  cases e with
  | call c =>
    rw [step]
    split
    · rename_i k hk
      rw [place]
      by_cases hlate : d.IsLate k
      · exact ⟨[k], by rw [if_pos hlate], fun _ => List.cons_ne_nil _ _⟩
      · refine ⟨[], by rw [if_neg hlate, List.append_nil], ?_⟩
        rintro ⟨j, hj, hjlate⟩
        rw [hk] at hj
        exact absurd (Option.some_inj.1 hj ▸ hjlate) hlate
    · rename_i hnone
      refine ⟨[], (List.append_nil _).symm, ?_⟩
      rintro ⟨j, hj, -⟩
      rw [hnone] at hj
      cases hj
  | expire n => exact ⟨[], (List.append_nil _).symm, fun h => h.elim⟩
  | run n =>
    refine ⟨[], ?_, fun h => h.elim⟩
    rw [List.append_nil, step]
    split
    · rw [begin]
      split <;> rfl
    · rfl

end Debouncer
end LangServer
