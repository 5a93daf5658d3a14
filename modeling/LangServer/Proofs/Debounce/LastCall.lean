import LangServer.Proofs.Debounce.Races
import LangServer.Proofs.Session.Runs

/-!
# Does the last call run?

Whether a debounced function runs the last call of every key, at all times at which nothing waits.
For every order of calls, expiries and runs it does so exactly if no call leaves out the argument
that gives the key, and no call overtakes a timer that has expired for its key and has not begun its
run.

`Debounced.exists_steps` is about the clock (`Timers`), which lets a timer run as soon as it is due.
What happens there is one of these orders, and no call of it overtakes.
-/

namespace LangServer

open Debouncer (Step lastOf)

/-! ## Timers and keys -/

theorem Timers.takeEarliest_eq_some {α : Type} {ws : List (Timer α)} {w : Timer α}
    {rest : List (Timer α)} (h : takeEarliest ws = some (w, rest)) :
    ∃ pre post, ws = pre ++ w :: post ∧ rest = pre ++ post := by
  induction ws generalizing w rest with
  | nil => simp [takeEarliest] at h
  | cons v vs ih =>
    rw [takeEarliest] at h
    split at h
    · cases h
      exact ⟨[], vs, rfl, rfl⟩
    · rename_i e others he
      split at h
      · cases h
        obtain ⟨pre, post, hvs, hothers⟩ := ih he
        exact ⟨v :: pre, post, by rw [hvs]; rfl, by rw [hothers]; rfl⟩
      · cases h
        exact ⟨[], vs, rfl, rfl⟩

namespace Debounced

variable {f : Debounced} {c : Invocation}

/-- The key that a call has, if it has one. -/
def key? (f : Debounced) (c : Invocation) : Option Value :=
  (f.key c).toOption.map Value.asKey

/-- The function can be called so. -/
def Accepts (f : Debounced) (c : Invocation) : Prop :=
  ∃ bound, f.parameters.bind c.args c.named = .ok bound

/-- The function can be called so, but the argument that gives the key is left out, or cannot be a
key. -/
def LeavesKeyOut (f : Debounced) (c : Invocation) : Prop :=
  ∃ name bound, f.keyedBy = some name ∧ name ≠ "" ∧
    f.parameters.bind c.args c.named = .ok bound ∧
    ∀ v, Value.lookup name bound = some v → v.isHashable = false

theorem LeavesKeyOut.accepts (h : f.LeavesKeyOut c) : f.Accepts c := by
  obtain ⟨-, bound, -, -, hbound, -⟩ := h
  exact ⟨bound, hbound⟩

theorem Accepts.key?_eq_none_iff (h : f.Accepts c) : f.key? c = none ↔ f.LeavesKeyOut c := by
  obtain ⟨bound, hbound⟩ := h
  have hkey : f.key? c = (debounceKey f.keyedBy bound).toOption.map Value.asKey := by
    rw [key?, key, hbound]
    rfl
  rw [hkey, Option.map_eq_none_iff]
  constructor
  · intro hnone
    unfold debounceKey at hnone
    split at hnone
    · cases hnone
    · cases hnone
    · rename_i name hname hkeyed
      refine ⟨name, bound, hkeyed, hname, hbound, ?_⟩
      intro v hv
      rw [hv] at hnone
      cases hhash : v.isHashable with
      | false => rfl
      | true => simp [hhash, Except.toOption] at hnone
  · rintro ⟨name, bound', hkeyed, hname, hbound', hout⟩
    obtain rfl : bound = bound' := Except.ok.inj (hbound.symm.trans hbound')
    unfold debounceKey
    split
    · rename_i hnone
      rw [hkeyed] at hnone
      cases hnone
    · rename_i hempty
      rw [hkeyed] at hempty
      exact absurd (Option.some_inj.1 hempty) hname
    · rename_i name' hname' hkeyed'
      obtain rfl : name = name' := Option.some_inj.1 (hkeyed.symm.trans hkeyed')
      cases hv : Value.lookup name bound with
      | none => rfl
      | some v => simp [hout v hv, Except.toOption]

/-! ## When the last call runs -/

/-- A step at which the function is as it should be: it takes the call, no run has failed, and when
nothing waits the last call of every key is the one that was executed last. -/
structure Serves (f : Debounced) (d : Debouncer Value Invocation) (e : Step Invocation) : Prop where
  takes : ∀ c, e = .call c → f.Accepts c →
    ∃ k ∈ f.key? c, (d.step f.key? e).called = d.called ++ [(k, c)]
  failed : (d.step f.key? e).failed = []
  last : (d.step f.key? e).waiting = [] →
    ∀ k, lastOf k (d.step f.key? e).executed = lastOf k (d.step f.key? e).called

/-- A step at which a call slips through: it leaves out its key, or it comes between the expiry of
the timer that is stored for its key and the run of that timer. -/
def Slips (f : Debounced) (d : Debouncer Value Invocation) (e : Step Invocation) : Prop :=
  (∃ c, e = .call c ∧ f.LeavesKeyOut c) ∨ d.Overtakes f.key? e

theorem serves_of_upToDate {d : Debouncer Value Invocation} {e : Step Invocation} (h : d.UpToDate)
    (he : ¬ f.Slips d e) : f.Serves d e := by
  have hstep : (d.step f.key? e).UpToDate := h.step fun hlate => he (Or.inr hlate)
  refine ⟨?_, hstep.failed_eq_nil, fun hrest k => hstep.lastOf_executed k ?_⟩
  · rintro c rfl hc
    cases hk : f.key? c with
    | none => exact absurd (Or.inl ⟨c, rfl, hc.key?_eq_none_iff.1 hk⟩) he
    | some k =>
      refine ⟨k, rfl, ?_⟩
      rw [Debouncer.step, hk]
      rfl
  · exact hstep.stored_eq_none hrest k

theorem not_leavesKeyOut_of_serves {d : Debouncer Value Invocation} {e : Step Invocation}
    (h : f.Serves d e) {c : Invocation} (he : e = .call c) : ¬ f.LeavesKeyOut c := by
  intro hout
  obtain ⟨k, hk, -⟩ := h.takes c he hout.accepts
  rw [hout.accepts.key?_eq_none_iff.2 hout] at hk
  cases hk

/-! ## Runs -/

variable {d : Debouncer Value Invocation} {es : List (Step Invocation)}

theorem upToDate_foldl (h : d.UpToDate)
    (hes : Always (Debouncer.step f.key?) (fun d e => ¬ d.Overtakes f.key? e) d es) :
    (es.foldl (Debouncer.step f.key?) d).UpToDate := by
  induction es generalizing d with
  | nil => exact h
  | cons e es ih => exact ih (h.step hes.1) hes.2

theorem sound_foldl (h : d.Sound) : (es.foldl (Debouncer.step f.key?) d).Sound := by
  induction es generalizing d with
  | nil => exact h
  | cons e es ih => exact ih (h.step f.key? e)

theorem overtaken_prefix_foldl (d : Debouncer Value Invocation) (es : List (Step Invocation)) :
    ∃ more, (es.foldl (Debouncer.step f.key?) d).overtaken = d.overtaken ++ more := by
  induction es generalizing d with
  | nil => exact ⟨[], (List.append_nil _).symm⟩
  | cons e es ih =>
    obtain ⟨later, hlater⟩ := ih (d.step f.key? e)
    obtain ⟨now, hnow, -⟩ := Debouncer.overtaken_step f.key? d e
    exact ⟨now ++ later, by rw [List.foldl_cons, hlater, hnow, List.append_assoc]⟩

theorem never_overtakes (h : (es.foldl (Debouncer.step f.key?) d).overtaken = []) :
    Always (Debouncer.step f.key?) (fun d e => ¬ d.Overtakes f.key? e) d es := by
  induction es generalizing d with
  | nil => trivial
  | cons e es ih =>
    refine ⟨fun hover => ?_, ih h⟩
    obtain ⟨now, hnow, hne⟩ := Debouncer.overtaken_step f.key? d e
    obtain ⟨later, hlater⟩ := overtaken_prefix_foldl (f := f) (d.step f.key? e) es
    rw [List.foldl_cons, hlater, hnow, List.append_assoc] at h
    exact hne hover (List.append_eq_nil_iff.1 (List.append_eq_nil_iff.1 h).2).1

theorem never_overtakes_of_failed_eq_nil (h : d.Sound)
    (hrest : (es.foldl (Debouncer.step f.key?) d).waiting = [])
    (hfailed : (es.foldl (Debouncer.step f.key?) d).failed = []) :
    Always (Debouncer.step f.key?) (fun d e => ¬ d.Overtakes f.key? e) d es := by
  refine never_overtakes (List.eq_nil_iff_forall_not_mem.2 fun k hk => ?_)
  have hsound : (es.foldl (Debouncer.step f.key?) d).Sound := sound_foldl h
  have hcount := hsound.failed_eq_overtaken hrest k
  rw [hfailed, List.count_nil] at hcount
  exact Nat.ne_of_gt (List.count_pos_iff.2 hk) hcount.symm

/-! ## The clock -/

/-- What happens to a debounced function that is run by a clock. -/
inductive Tick where
  | call (c : Invocation)
  /-- Time passes. -/
  | pass (time : Int)

/-- A clock, with the calls that were taken and those that ran, under their keys. -/
structure Clocked where
  timers : Timers (Value × Invocation) := {}
  called : List (Value × Invocation) := []
  ran : List (Value × Invocation) := []

/-- What happens at a tick. A call without a key is refused. -/
def tick (f : Debounced) (pause : Int) (s : Clocked) : Tick → Clocked
  | .call c =>
    match f.key c, f.invoke pause c s.timers with
    | .ok k, .ok timers => { s with timers, called := s.called ++ [(k, c)] }
    | _, _ => s
  | .pass time =>
    { s with timers := (s.timers.advance time).2, ran := s.ran ++ (s.timers.advance time).1 }

/-- A call under the key that stands for its key. -/
def keyed (w : Value × Invocation) : Value × Invocation := (w.1.asKey, w.2)

/-- The clock and the steps have taken and run the same calls, and the same calls wait. On the
clock no timer has expired and not run. -/
structure Follows (s : Clocked) (d : Debouncer Value Invocation) : Prop where
  waiting : d.waiting.map (fun t => (t.key, t.call)) = s.timers.waiting.map (keyed ·.call)
  called : d.called = s.called.map keyed
  executed : d.executed = s.ran.map keyed
  expired : ∀ t ∈ d.waiting, t.expired = false

theorem cancelled_eq_filter (h : d.UpToDate) (hexp : ∀ t ∈ d.waiting, t.expired = false)
    (k : Value) : d.cancelled k = d.waiting.filter fun t => decide (t.key ≠ k) := by
  have hcount := h.count_eq k
  rcases h.toSound.cancelled_cases k with
    ⟨t, pre, post, hst, htk, -, hwait, hcan, -⟩ | ⟨hcan, ⟨t, ht, -, hlate⟩ | hnone⟩
  · rw [hst, hwait, Debouncer.count_append_cons, if_pos htk] at hcount
    have hzero : Debouncer.count k (pre ++ post) = 0 := by simpa using hcount
    have hothers : ∀ u ∈ pre ++ post, ¬ u.key = k := fun u hu =>
      of_decide_eq_false (Bool.not_eq_true _ ▸ List.countP_eq_zero.1 hzero u hu)
    rw [hcan, hwait, List.filter_append, List.filter_cons_of_neg (by simp [htk]),
      ← List.filter_append]
    exact (List.filter_eq_self.2 fun u hu => decide_eq_true (hothers u hu)).symm
  · rw [hexp t ht] at hlate
    cases hlate
  · rw [hnone] at hcount
    have hothers : ∀ u ∈ d.waiting, ¬ u.key = k := by
      simpa [Debouncer.count, List.countP_eq_zero] using hcount
    rw [hcan]
    exact (List.filter_eq_self.2 fun u hu => decide_eq_true (hothers u hu)).symm

/-- **A call on the clock** is a call that does not overtake. -/
theorem Follows.call {s : Clocked} (h : Follows s d) (hd : d.UpToDate) (pause : Int)
    (c : Invocation) (k : Value) :
    Follows { s with
      timers := s.timers.debounce pause (fun w => w.1.alike k) (k, c)
      called := s.called ++ [(k, c)] } (d.place k.asKey c) := by
  refine ⟨?_, ?_, h.executed, fun t ht => ?_⟩
  · have hsame : ∀ w : Timer (Value × Invocation),
        (!w.call.1.alike k) = decide ((keyed w.call).1 ≠ k.asKey) := by
      intro w
      rw [Bool.eq_iff_iff, decide_eq_true_iff, Bool.not_eq_true', ← Bool.not_eq_true,
        Value.alike_iff]
      rfl
    have hfilter : (d.cancelled k.asKey).map (fun t => (t.key, t.call)) =
        (s.timers.waiting.filter fun w => !w.call.1.alike k).map (keyed ·.call) := by
      calc (d.cancelled k.asKey).map (fun t => (t.key, t.call))
          = (d.waiting.map fun t => (t.key, t.call)).filter (fun w => decide (w.1 ≠ k.asKey)) := by
            rw [cancelled_eq_filter hd h.expired, List.filter_map]
            rfl
        _ = (s.timers.waiting.filter fun w => !w.call.1.alike k).map (keyed ·.call) := by
            rw [h.waiting, List.filter_map]
            exact congrArg _ (List.filter_congr fun w _ => (hsame w).symm)
    simp only [Debouncer.place, Timers.debounce, Timers.start, Timers.cancel, List.map_append,
      hfilter]
    rfl
  · simp only [Debouncer.place, List.map_append, h.called]
    rfl
  · rcases List.mem_append.1 ht with ht | ht
    · exact h.expired t (Debouncer.mem_of_mem_cancelled ht)
    · rw [List.mem_singleton.1 ht]

theorem Follows.not_isLate {s : Clocked} (h : Follows s d) (k : Value) : ¬ d.IsLate k := by
  rintro ⟨t, ht, -, hlate⟩
  rw [h.expired t ht] at hlate
  cases hlate

/-- **A timer that is due on the clock** expires and runs. -/
theorem Follows.run {s : Clocked} (h : Follows s d) (hd : d.UpToDate)
    {w : Timer (Value × Invocation)} {rest : List (Timer (Value × Invocation))}
    (hw : Timers.takeEarliest s.timers.waiting = some (w, rest)) :
    ∃ n, Follows { s with
        timers := { now := w.due, waiting := rest }
        ran := s.ran ++ [w.call] }
      ([Step.expire n, Step.run n].foldl (Debouncer.step f.key?) d) := by
  obtain ⟨pre, post, hwait, rfl⟩ := Timers.takeEarliest_eq_some hw
  have hmap := h.waiting
  rw [hwait, List.map_append, List.map_cons, List.map_eq_append_iff] at hmap
  obtain ⟨pre', rest', hd', hpre, hrest⟩ := hmap
  obtain ⟨t, post', rfl, ht, hpost⟩ := List.map_eq_cons_iff.1 hrest
  obtain ⟨hwaiting, hcalled, hexecuted⟩ := hd.expire_run f.key? hd'
  refine ⟨t.number, ?_, ?_, ?_, ?_⟩
  · rw [hwaiting, List.map_append, List.map_append, hpre, hpost]
  · rw [hcalled, h.called]
  · rw [hexecuted, h.executed, List.map_append, ht]
    rfl
  · rw [hwaiting]
    intro u hu
    refine h.expired u ?_
    rw [hd', List.mem_append, List.mem_cons]
    exact (List.mem_append.1 hu).imp_right Or.inr

theorem exists_steps_advance (t : Timers (Value × Invocation)) (time : Int) {s : Clocked}
    (hs : s.timers = t) (h : Follows s d) (hd : d.UpToDate) :
    ∃ es, Always (Debouncer.step f.key?) (fun d e => ¬ d.Overtakes f.key? e) d es ∧
      Follows { s with timers := (t.advance time).2, ran := s.ran ++ (t.advance time).1 }
        (es.foldl (Debouncer.step f.key?) d) := by
  induction t, time using Timers.advance.induct generalizing s d with
  | case1 t time w rest hw hdue ran later hran ih =>
    -- the earliest timer is due: it runs first, and then the clock goes on from its time
    subst hs
    obtain ⟨n, hrun⟩ := h.run (f := f) hd hw
    have hnever : Always (Debouncer.step f.key?) (fun d e => ¬ d.Overtakes f.key? e) d
        [.expire n, .run n] := ⟨fun h => h, fun h => h, trivial⟩
    obtain ⟨es, hes, hfollows⟩ := ih rfl hrun (upToDate_foldl hd hnever)
    refine ⟨[.expire n, .run n] ++ es, hnever.append hes, ?_⟩
    rw [List.foldl_append, Timers.advance, hw]
    simpa only [hdue, if_true, List.append_assoc, List.singleton_append] using hfollows
  | case2 t time w rest hw hdue =>
    subst hs
    refine ⟨[], trivial, ?_⟩
    rw [Timers.advance, hw]
    simp only [hdue, if_false, List.append_nil]
    exact ⟨h.waiting, h.called, h.executed, h.expired⟩
  | case3 t time hw =>
    subst hs
    refine ⟨[], trivial, ?_⟩
    rw [Timers.advance, hw, List.append_nil]
    exact ⟨h.waiting, h.called, h.executed, h.expired⟩

/-- **One tick** of the clock is some steps, none of which overtakes. -/
theorem Follows.tick {s : Clocked} (h : Follows s d) (hd : d.UpToDate) (pause : Int) (t : Tick) :
    ∃ es, Always (Debouncer.step f.key?) (fun d e => ¬ d.Overtakes f.key? e) d es ∧
      Follows (f.tick pause s t) (es.foldl (Debouncer.step f.key?) d) := by
  cases t with
  | pass time => exact exists_steps_advance s.timers time rfl h hd
  | call c =>
    cases hk : f.key c with
    | error e =>
      refine ⟨[], trivial, ?_⟩
      rw [Debounced.tick, hk]
      exact h
    | ok k =>
      have hkey : f.key? c = some k.asKey := by
        rw [key?, hk]
        rfl
      refine ⟨[.call c], ⟨?_, trivial⟩, ?_⟩
      · rintro ⟨j, -, hlate⟩
        exact h.not_isLate j hlate
      · have hinvoke : f.invoke pause c s.timers =
            .ok (s.timers.debounce pause (fun w => w.1.alike k) (k, c)) := by
          rw [invoke, hk]
          rfl
        rw [Debounced.tick, hk, hinvoke, List.foldl_cons, List.foldl_nil, Debouncer.step, hkey]
        exact h.call hd pause c k

/-- **What happens on the clock is a run in which no call overtakes.** -/
theorem exists_steps (f : Debounced) (pause : Int) (ticks : List Tick) {s : Clocked}
    (h : Follows s d) (hd : d.UpToDate) :
    ∃ es, Always (Debouncer.step f.key?) (fun d e => ¬ d.Overtakes f.key? e) d es ∧
      Follows (ticks.foldl (f.tick pause) s) (es.foldl (Debouncer.step f.key?) d) := by
  induction ticks generalizing s d with
  | nil => exact ⟨[], trivial, h⟩
  | cons t ticks ih =>
    obtain ⟨now, hnow, hfollows⟩ := h.tick (f := f) hd pause t
    obtain ⟨later, hlater, hend⟩ := ih hfollows (upToDate_foldl hd hnow)
    exact ⟨now ++ later, hnow.append hlater, by rwa [List.foldl_append]⟩

theorem follows_empty : Follows {} {} := ⟨rfl, rfl, rfl, by simp⟩

/-- A clock on which nothing waits has run the last call of every key last. -/
theorem lastOf_ran (f : Debounced) (pause : Int) (ticks : List Tick)
    (hrest : (ticks.foldl (f.tick pause) {}).timers.waiting = []) (k : Value) :
    lastOf k ((ticks.foldl (f.tick pause) {}).ran.map keyed) =
      lastOf k ((ticks.foldl (f.tick pause) {}).called.map keyed) := by
  obtain ⟨es, hes, hfollows⟩ := exists_steps f pause ticks follows_empty Debouncer.upToDate_empty
  have hd := upToDate_foldl Debouncer.upToDate_empty hes
  have hwait := hfollows.waiting
  rw [hrest, List.map_nil, List.map_eq_nil_iff] at hwait
  rw [← hfollows.executed, ← hfollows.called]
  exact hd.lastOf_executed k (hd.stored_eq_none hwait k)

/-! ## The exact condition -/

/-- **When the last call is never lost.** Take any order of calls, expiries and runs at the end of
which nothing waits. At every step the function takes the calls that it accepts, no run has failed,
and whenever nothing waits the last call of every key was executed last, just if no call leaves out
its key and none comes between the expiry of the timer stored for its key and the run of that timer.
Of each key as many runs fail as calls do the latter. On a clock that lets each timer run as soon
as it is due none does, so that there the last call is lost only if it has no key. -/
theorem serves_iff_never_slips (f : Debounced) :
    (∀ es : List (Step Invocation),
      let d := es.foldl (Debouncer.step f.key?) {}
      d.waiting = [] →
        (Always (Debouncer.step f.key?) f.Serves {} es ↔
          Always (Debouncer.step f.key?) (fun d e => ¬ f.Slips d e) {} es) ∧
        ∀ k, d.failed.count k = d.overtaken.count k) ∧
    ∀ (pause : Int) (ticks : List Tick),
      let s := ticks.foldl (f.tick pause) {}
      (∃ es, Always (Debouncer.step f.key?) (fun d e => ¬ d.Overtakes f.key? e) {} es ∧
        Follows s (es.foldl (Debouncer.step f.key?) {})) ∧
      (s.timers.waiting = [] →
        ∀ k, lastOf k (s.ran.map keyed) = lastOf k (s.called.map keyed)) := by
  refine ⟨fun es => ?_, fun pause ticks => ⟨?_, lastOf_ran f pause ticks⟩⟩
  · intro d hrest
    refine ⟨⟨fun hserves => ?_, fun hnever => ?_⟩, fun k => ?_⟩
    · have hfailed : d.failed = [] :=
        Always.foldl (I := fun d => d.failed = []) rfl (hserves.mono fun _ _ h => h.failed)
      have hovertakes := never_overtakes_of_failed_eq_nil Debouncer.sound_empty hrest hfailed
      refine (hserves.and hovertakes).mono ?_
      rintro d e ⟨hs, hover⟩ (⟨c, he, hout⟩ | hlate)
      · exact not_leavesKeyOut_of_serves hs he hout
      · exact hover hlate
    · exact Always.of_inv (I := Debouncer.UpToDate)
        (fun d e hd _ he => hd.step fun h => he (Or.inr h))
        (fun d e hd he => serves_of_upToDate hd he) Debouncer.upToDate_empty hnever hnever
    · exact (sound_foldl Debouncer.sound_empty).failed_eq_overtaken hrest k
  · exact exists_steps f pause ticks follows_empty Debouncer.upToDate_empty

/-- A function of a text and a flag, which may be left out. -/
def flagged (keyedBy : String) : Debounced := ⟨[("uri", false), ("flag", true)], some keyedBy⟩

/-- A call, its timer expires, a second call with the same key: the run of the first timer takes out
the second, whose own run then fails. -/
def race : List (Step Invocation) :=
  [.call ⟨[.str "a"], []⟩, .expire 0, .call ⟨[.str "a", .bool true], []⟩, .run 0, .expire 1, .run 1]

/-- The second call of the race is lost, though nothing waits in the end. A call that leaves out
the flag is lost as well where the flag gives the key. -/
theorem race_loses_last_call :
    let d := race.foldl (Debouncer.step (flagged "uri").key?) {}
    (d.waiting.length = 0 ∧ d.failed = [.str "a"] ∧
      lastOf (.str "a") d.executed = some ⟨[.str "a"], []⟩ ∧
      lastOf (.str "a") d.called = some ⟨[.str "a", .bool true], []⟩ ∧
      ¬ Always (Debouncer.step (flagged "uri").key?) (flagged "uri").Serves {} race) ∧
    ¬ Always (Debouncer.step (flagged "flag").key?) (flagged "flag").Serves {}
      [.call ⟨[.str "a"], []⟩] := by
  refine ⟨⟨by decide +kernel, by decide +kernel, by decide +kernel, by decide +kernel, ?_⟩, ?_⟩
  · have hrest : (race.foldl (Debouncer.step (flagged "uri").key?) {}).waiting = [] :=
      List.length_eq_zero_iff.1 (by decide +kernel)
    rw [(((serves_iff_never_slips (flagged "uri")).1 race) hrest).1]
    rintro ⟨-, -, hthird, -⟩
    exact hthird (Or.inr (by decide +kernel))
  · rw [(((serves_iff_never_slips (flagged "flag")).1 [.call ⟨[.str "a"], []⟩]) rfl).1]
    rintro ⟨hfirst, -⟩
    exact hfirst (Or.inl ⟨_, rfl, "flag", [("uri", .str "a")], rfl, by decide, rfl,
      by decide +kernel⟩)

end Debounced
end LangServer
