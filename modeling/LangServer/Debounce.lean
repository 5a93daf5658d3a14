import LangServer.Fault

/-!
# Timers and debouncing

A debounced call does not run at once but after a pause. A new call with the same key restarts the
pause and takes the place of the call that waits, so that of many calls in a row only the last one
runs.
-/

namespace LangServer

/-- A call that waits for its time. -/
structure Timer (α : Type) where
  due : Int
  call : α
  deriving DecidableEq, Repr, Inhabited

/-- A clock with the calls that wait for it, in the order in which they were started. -/
structure Timers (α : Type) where
  now : Int := 0
  waiting : List (Timer α) := []
  deriving DecidableEq, Repr, Inhabited

namespace Timers

variable {α : Type}

/-- Starts a call that runs after a pause. -/
def start (t : Timers α) (pause : Int) (call : α) : Timers α :=
  { t with waiting := t.waiting ++ [⟨t.now + pause, call⟩] }

/-- Gives up the waiting calls that are `same`. -/
def cancel (t : Timers α) (same : α → Bool) : Timers α :=
  { t with waiting := t.waiting.filter fun w => !same w.call }

/-- Starts a call in place of those that are the `same`. -/
def debounce (t : Timers α) (pause : Int) (same : α → Bool) (call : α) : Timers α :=
  (t.cancel same).start pause call

/-- Takes the earliest timer out; of two with the same time the first. -/
def takeEarliest : List (Timer α) → Option (Timer α × List (Timer α))
  | [] => none
  | w :: rest =>
    match takeEarliest rest with
    | none => some (w, rest)
    | some (e, others) => if e.due < w.due then some (e, w :: others) else some (w, rest)

/-- The next call that is due up to a time, with the clock set to its time. -/
def next? (t : Timers α) (limit : Int) : Option (α × Timers α) :=
  match takeEarliest t.waiting with
  | some (w, rest) =>
    if w.due ≤ limit then some (w.call, { now := w.due, waiting := rest }) else none
  | none => none

theorem takeEarliest_length {ws : List (Timer α)} {w : Timer α} {rest : List (Timer α)}
    (h : takeEarliest ws = some (w, rest)) : rest.length < ws.length := by
  induction ws generalizing w rest with
  | nil => simp [takeEarliest] at h
  | cons v vs ih =>
    rw [takeEarliest] at h
    split at h
    · cases h; simp
    · rename_i e others he
      split at h
      · cases h; simpa using ih he
      · cases h; simp

/-- Sets the clock forward. The calls that are due run in order; they start no others. -/
def advance (t : Timers α) (time : Int) : List α × Timers α :=
  match _found : takeEarliest t.waiting with
  | some (w, rest) =>
    if w.due ≤ t.now + time then
      let (ran, later) := advance { now := w.due, waiting := rest } (t.now + time - w.due)
      (w.call :: ran, later)
    else ([], { t with now := t.now + time })
  | none => ([], { t with now := t.now + time })
termination_by t.waiting.length
decreasing_by exact takeEarliest_length _found

end Timers

/-! ## Debounced functions -/

/-- The parameters of a function: names, and whether one may be left out. -/
abbrev Parameters := List (String × Bool)

/-- Binds arguments to parameters by position and by name. Only what was given is bound. -/
def Parameters.bind (ps : Parameters) (args : List Value) (named : List (String × Value)) :
    Except Fault (List (String × Value)) :=
  let byPosition := (ps.map (·.1)).zip args
  let bound := byPosition ++ named
  let fits := decide (args.length ≤ ps.length) &&
    named.all (fun (k, _) => ps.any (·.1 == k) && !byPosition.any (·.1 == k)) &&
    ps.all fun (name, optional) => optional || bound.any (·.1 == name)
  if fits then
    .ok (ps.filterMap fun (name, _) => (Value.lookup name bound).map fun v => (name, v))
  else .error .mismatch

/-- The key of a call: the argument with a name, or null if no name is given. -/
def debounceKey (keyedBy : Option String) (bound : List (String × Value)) : Except Fault Value :=
  match keyedBy with
  | none | some "" => .ok .null
  | some name =>
    match Value.lookup name bound with
    | some v => if v.isHashable then .ok v else .error .mismatch
    | none => .error (.missingKey (.str name))

/-- The arguments of a call, by position and by name. -/
structure Invocation where
  args : List Value := []
  named : List (String × Value) := []
  deriving DecidableEq, Repr, Inhabited

/-- A debounced function: its parameters, and the parameter that gives the key. -/
structure Debounced where
  parameters : Parameters
  keyedBy : Option String := none
  deriving Repr, Inhabited

namespace Debounced

/-- The key of a call, which fails if the function cannot be called so. -/
def key (f : Debounced) (c : Invocation) : Except Fault Value := do
  debounceKey f.keyedBy (← f.parameters.bind c.args c.named)

/-- Calls the function: the call waits, in place of the one with the same key that waited. -/
def invoke (f : Debounced) (pause : Int) (c : Invocation) (t : Timers (Value × Invocation)) :
    Except Fault (Timers (Value × Invocation)) := do
  let key ← f.key c
  return t.debounce pause (fun w => w.1.alike key) (key, c)

end Debounced
end LangServer
