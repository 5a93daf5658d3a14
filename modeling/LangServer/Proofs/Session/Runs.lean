import LangServer.Proofs.Session.Folders

/-!
# Runs of the server

A run is a list of events: messages of the client, and changes of the file system in between. What
a message has done when it fails stays done, and the run goes on.

What is said about a run is said about each of its steps (`Always`). `Always.iff` is the one
induction over runs: two conditions that agree on every step from a state with an invariant, as long
as the first keeps the invariant, agree on every run.
-/

namespace LangServer

open Session (Params)

/-- What happens to a server. -/
inductive Event where
  | start (ps : Params)
  | didOpen (ps : Params)
  | didChange (ps : Params)
  | didClose (ps : Params)
  | didChangeWorkspaceFolders (ps : Params)
  /-- The file system changes. -/
  | files (files : Files)

/-- What the server does. -/
def Event.act : Event → Serve Value
  | start ps => Session.handle ps .start
  | didOpen ps => Session.handle ps .didOpen
  | didChange ps => Session.handle ps .didChange
  | didClose ps => Session.handle ps .didClose
  | didChangeWorkspaceFolders ps => Session.handle ps .didChangeWorkspaceFolders
  | files fs => do
    modify fun s =>
      { s with host := { s.host with machine := { s.host.machine with files := fs } } }
    return .null

/-- The server before anything has happened. -/
def Session.fresh (machine : Machine) (engines : Engines) (checksParent : Bool) : Session :=
  { host := { machine, engines }, checksParent }

theorem Session.sound_fresh (machine : Machine) (engines : Engines) (checksParent : Bool) :
    (fresh machine engines checksParent).Sound := by
  refine ⟨?_, rfl, fun _ => rfl⟩
  rintro n (hn | ⟨folder, hn⟩) <;> cases hn

theorem Session.documentAt_fresh (machine : Machine) (engines : Engines) (checksParent : Bool)
    (n : Nat) (uri : String) :
    (fresh machine engines checksParent).host.documentAt n uri = none := rfl

/-- The parameters with which a client starts the server, for a root and further folders. -/
def Session.starting (root : String) (folders : List String) : Params :=
  [("rootUri", .str root),
    ("workspaceFolders", .list (folders.map fun uri => .object [("uri", .str uri)]))]

/-- The parameters with which a client tells that folders come and go. -/
def Session.regrouping (added removed : List String) : Params :=
  [("event", .object [
    ("added", .list (added.map fun uri => .object [("uri", .str uri)])),
    ("removed", .list (removed.map fun uri => .object [("uri", .str uri)]))])]

/-! ## Conditions on every step -/

variable {σ ε : Type}

/-- The condition holds at every step of the run. -/
def Always (step : σ → ε → σ) (P : σ → ε → Prop) : σ → List ε → Prop
  | _, [] => True
  | s, e :: es => P s e ∧ Always step P (step s e) es

namespace Always

variable {step : σ → ε → σ} {A P Q : σ → ε → Prop} {s : σ} {es : List ε}

instance decidable [∀ s e, Decidable (P s e)] : (s : σ) → (es : List ε) →
    Decidable (Always step P s es)
  | _, [] => .isTrue trivial
  | s, e :: es =>
    have := decidable (step s e) es
    inferInstanceAs (Decidable (P s e ∧ Always step P (step s e) es))

theorem of_forall (h : ∀ s e, P s e) : Always step P s es := by
  induction es generalizing s with
  | nil => trivial
  | cons e es ih => exact ⟨h s e, ih⟩

theorem of_mem (h : ∀ e ∈ es, ∀ s, P s e) : Always step P s es := by
  induction es generalizing s with
  | nil => trivial
  | cons e es ih =>
    obtain ⟨he, hes⟩ := List.forall_mem_cons.1 h
    exact ⟨he s, ih hes⟩

theorem mono (h : ∀ s e, P s e → Q s e) (hP : Always step P s es) : Always step Q s es := by
  induction es generalizing s with
  | nil => trivial
  | cons e es ih => exact ⟨h s e hP.1, ih hP.2⟩

/-- **Two conditions that agree on every step agree on every run**, where the run is allowed and an
invariant is kept as long as the first condition holds. -/
theorem iff {I : σ → Prop}
    (hstep : ∀ s e, I s → A s e → (P s e ↔ Q s e) ∧ (P s e → I (step s e)))
    (hs : I s) (hA : Always step A s es) : Always step P s es ↔ Always step Q s es := by
  induction es generalizing s with
  | nil => exact Iff.rfl
  | cons e es ih =>
    obtain ⟨hiff, hkeep⟩ := hstep s e hs hA.1
    constructor
    · rintro ⟨hP, hrest⟩
      exact ⟨hiff.1 hP, (ih (hkeep hP) hA.2).1 hrest⟩
    · rintro ⟨hQ, hrest⟩
      have hP := hiff.2 hQ
      exact ⟨hP, (ih (hkeep hP) hA.2).2 hrest⟩

/-- What an invariant gives at every step holds along a run that keeps the invariant. -/
theorem of_inv {I : σ → Prop} (hkeep : ∀ s e, I s → A s e → P s e → I (step s e))
    (hgive : ∀ s e, I s → A s e → Q s e) (hs : I s) (hA : Always step A s es)
    (hP : Always step P s es) : Always step Q s es := by
  induction es generalizing s with
  | nil => trivial
  | cons e es ih =>
    exact ⟨hgive s e hs hA.1, ih (hkeep s e hs hA.1 hP.1) hA.2 hP.2⟩

theorem and (hP : Always step P s es) (hQ : Always step Q s es) :
    Always step (fun s e => P s e ∧ Q s e) s es := by
  induction es generalizing s with
  | nil => trivial
  | cons e es ih => exact ⟨⟨hP.1, hQ.1⟩, ih hP.2 hQ.2⟩

theorem append {xs ys : List ε} (hxs : Always step P s xs)
    (hys : Always step P (xs.foldl step s) ys) : Always step P s (xs ++ ys) := by
  induction xs generalizing s with
  | nil => exact hys
  | cons e xs ih => exact ⟨hxs.1, ih hxs.2 hys⟩

theorem inv {I : σ → Prop} (hkeep : ∀ s e, I s → A s e → I (step s e)) (hs : I s)
    (hA : Always step A s es) : I (es.foldl step s) := by
  induction es generalizing s with
  | nil => exact hs
  | cons e es ih => exact ih (hkeep s e hs hA.1) hA.2

theorem foldl {I : σ → Prop} (hs : I s) (h : Always step (fun s e => I (step s e)) s es) :
    I (es.foldl step s) := by
  induction es generalizing s with
  | nil => exact hs
  | cons e es ih => exact ih h.1 h.2

end Always
end LangServer
