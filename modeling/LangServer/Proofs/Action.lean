import LangServer.Server.Session

/-!
# What an action ensures

The server's work is written as actions that may fail half-way, and what they have done so far stays
done. `Ensures x s good bad` says what holds when the action `x` is run in the state `s`: `good` of
the answer and the new state if it succeeds, `bad` of the fault and the state it leaves if it fails.

The lemmas that are tagged for `simp` compute what a sequence of steps ensures from what each step
does, so that a handler is followed through step by step. An action that has a lemma of its own is
passed over by `Ensures.mono`, and a loop by an invariant of the items that are left
(`ensures_forIn`).
-/

namespace LangServer

variable {ε σ α β : Type}

/-- What holds after an action. -/
def Ensures (x : EStateM ε σ α) (s : σ) (good : α → σ → Prop) (bad : ε → σ → Prop) : Prop :=
  match x s with
  | .ok a t => good a t
  | .error e t => bad e t

namespace Ensures

variable {x : EStateM ε σ α} {s : σ} {good good' : α → σ → Prop} {bad bad' : ε → σ → Prop}

theorem mono (h : Ensures x s good bad) (hgood : ∀ a t, good a t → good' a t)
    (hbad : ∀ e t, bad e t → bad' e t) : Ensures x s good' bad' := by
  rw [Ensures] at h ⊢
  cases hx : x s with
  | ok a t =>
    rw [hx] at h
    exact hgood a t h
  | error e t =>
    rw [hx] at h
    exact hbad e t h

theorem imp (h : Ensures x s good bad) (hgood : ∀ a t, good a t → good' a t) :
    Ensures x s good' bad :=
  h.mono hgood fun _ _ hbad => hbad

theorem ok (h : Ensures x s good bad) {a : α} {t : σ} (hx : x s = .ok a t) : good a t := by
  rwa [Ensures, hx] at h

theorem error (h : Ensures x s good bad) {e : ε} {t : σ} (hx : x s = .error e t) : bad e t := by
  rwa [Ensures, hx] at h

theorem exists_ok (h : Ensures x s good fun _ _ => False) : ∃ a t, x s = .ok a t ∧ good a t := by
  cases hx : x s with
  | ok a t => exact ⟨a, t, rfl, h.ok hx⟩
  | error e t => exact (h.error hx).elim

theorem of_forall (hgood : ∀ a t, good a t) (hbad : ∀ e t, bad e t) : Ensures x s good bad := by
  rw [Ensures]
  cases x s with
  | ok a t => exact hgood a t
  | error e t => exact hbad e t

theorem self (x : EStateM ε σ α) (s : σ) :
    Ensures x s (fun a t => x s = .ok a t) fun e t => x s = .error e t := by
  rw [Ensures]
  split
  · assumption
  · assumption

theorem and (h : Ensures x s good bad) (h' : Ensures x s good' bad') :
    Ensures x s (fun a t => good a t ∧ good' a t) fun e t => bad e t ∧ bad' e t := by
  rw [Ensures] at *
  cases hx : x s with
  | ok a t =>
    rw [hx] at h h'
    exact ⟨h, h'⟩
  | error e t =>
    rw [hx] at h h'
    exact ⟨h, h'⟩

/-- What an action ensures can be found out by running it. -/
instance decidable [∀ a t, Decidable (good a t)] [∀ e t, Decidable (bad e t)] :
    Decidable (Ensures x s good bad) :=
  match hx : x s with
  | .ok a t => decidable_of_iff (good a t) (by rw [Ensures, hx])
  | .error e t => decidable_of_iff (bad e t) (by rw [Ensures, hx])

end Ensures

theorem exists_of_bind_eq_ok {x : Except ε α} {f : α → Except ε β} {b : β}
    (h : x >>= f = .ok b) : ∃ a, x = .ok a ∧ f a = .ok b := by
  cases x with
  | error e => cases h
  | ok a => exact ⟨a, rfl, h⟩

theorem of_bind_eq_error {x : Except ε α} {f : α → Except ε β} {e : ε}
    (h : x >>= f = .error e) : x = .error e ∨ ∃ a, x = .ok a ∧ f a = .error e := by
  cases x with
  | error e' => exact .inl (congrArg Except.error (Except.error.inj h))
  | ok a => exact .inr ⟨a, rfl, h⟩

theorem ok_bind (a : α) (f : α → Except ε β) : (Except.ok a >>= f) = f a := rfl

theorem eq_ok_of_toOption {x : Except ε α} {a : α} (h : x.toOption = some a) : x = .ok a := by
  cases x with
  | error e => cases h
  | ok b => exact congrArg _ (Option.some_inj.1 h)

theorem exists_of_isOk {x : Except ε α} (h : x.isOk = true) : ∃ a, x = .ok a := by
  cases x with
  | error e => cases h
  | ok a => exact ⟨a, rfl⟩

theorem isOk_of_eq {x : Except ε α} {a : α} (h : x = .ok a) : x.isOk = true := by
  rw [h]
  rfl

/-! ## Single steps -/

@[simp] theorem ensures_bind (x : EStateM ε σ α) (f : α → EStateM ε σ β) (s : σ)
    (good : β → σ → Prop) (bad : ε → σ → Prop) :
    Ensures (x >>= f) s good bad ↔ Ensures x s (fun a t => Ensures (f a) t good bad) bad := by
  show Ensures (EStateM.bind x f) s good bad ↔ _
  rw [Ensures, Ensures, EStateM.bind]
  cases x s <;> exact Iff.rfl

theorem Ensures.bind {x : EStateM ε σ α} {f : α → EStateM ε σ β} {s : σ} {good : β → σ → Prop}
    {bad bad' : ε → σ → Prop} {good' : α → σ → Prop} (h : Ensures x s good' bad')
    (hf : ∀ a t, good' a t → Ensures (f a) t good bad) (hbad : ∀ e t, bad' e t → bad e t) :
    Ensures (x >>= f) s good bad :=
  (ensures_bind x f s good bad).2 (h.mono hf hbad)

@[simp] theorem ensures_pure (a : α) (s : σ) (good : α → σ → Prop) (bad : ε → σ → Prop) :
    Ensures (pure a) s good bad ↔ good a s := Iff.rfl

@[simp] theorem ensures_get (s : σ) (good : σ → σ → Prop) (bad : ε → σ → Prop) :
    Ensures get s good bad ↔ good s s := Iff.rfl

@[simp] theorem ensures_set (t s : σ) (good : PUnit → σ → Prop) (bad : ε → σ → Prop) :
    Ensures (set t) s good bad ↔ good ⟨⟩ t := Iff.rfl

@[simp] theorem ensures_modify (f : σ → σ) (s : σ) (good : PUnit → σ → Prop)
    (bad : ε → σ → Prop) : Ensures (modify f) s good bad ↔ good ⟨⟩ (f s) := Iff.rfl

@[simp] theorem ensures_throw (e : ε) (s : σ) (good : α → σ → Prop) (bad : ε → σ → Prop) :
    Ensures (throw e) s good bad ↔ bad e s := Iff.rfl

theorem ensures_liftExcept (x : Except ε α) (s : σ) (good : α → σ → Prop) (bad : ε → σ → Prop) :
    Ensures (liftExcept x) s good bad ↔
      (∀ a, x = .ok a → good a s) ∧ ∀ e, x = .error e → bad e s := by
  cases x with
  | ok a =>
    show good a s ↔ _
    simp
  | error e =>
    show bad e s ↔ _
    simp

@[simp] theorem ensures_liftExcept_ok (a : α) (s : σ) (good : α → σ → Prop) (bad : ε → σ → Prop) :
    Ensures (liftExcept (.ok a : Except ε α)) s good bad ↔ good a s := Iff.rfl

/-- An action on the host, run by the server. -/
@[simp] theorem ensures_liftAct (x : Act α) (s : Session) (good : α → Session → Prop)
    (bad : Fault → Session → Prop) :
    Ensures (liftM x : Serve α) s good bad ↔
      Ensures x s.host (fun a h => good a { s with host := h })
        (fun f h => bad f { s with host := h }) := by
  show Ensures (Act.toServe x) s good bad ↔ _
  rw [Ensures, Ensures, Act.toServe]
  cases x s.host <;> exact Iff.rfl

/-- An action on the host, run by a plugin. -/
@[simp] theorem ensures_liftJob (x : Act α) (desk : Desk) (good : α → Desk → Prop)
    (bad : Fault → Desk → Prop) :
    Ensures (liftM x : Job α) desk good bad ↔
      Ensures x desk.host (fun a h => good a { desk with host := h })
        (fun f h => bad f { desk with host := h }) := by
  show Ensures (Act.toJob x) desk good bad ↔ _
  rw [Ensures, Ensures, Act.toJob]
  cases x desk.host <;> exact Iff.rfl

theorem ensures_require (o : Option α) (s : Session) (good : α → Session → Prop)
    (bad : Fault → Session → Prop) :
    Ensures (Session.require o) s good bad ↔
      (∀ a, o = some a → good a s) ∧ (o = none → bad .noMember s) := by
  cases o with
  | some a =>
    show good a s ↔ _
    simp
  | none =>
    show bad .noMember s ↔ _
    simp

@[simp] theorem ensures_require_some (a : α) (s : Session) (good : α → Session → Prop)
    (bad : Fault → Session → Prop) :
    Ensures (Session.require (some a)) s good bad ↔ good a s := Iff.rfl

/-- A fault that is caught is handled in the state that the failed action leaves. -/
theorem ensures_tryCatch {x : EStateM ε σ α} {handle : ε → EStateM ε σ α} {s : σ}
    {good : α → σ → Prop} {bad : ε → σ → Prop}
    (hx : Ensures x s good fun e t => Ensures (handle e) t good bad) :
    Ensures (tryCatch x handle) s good bad := by
  show Ensures (EStateM.tryCatch x handle) s good bad
  rw [Ensures] at hx ⊢
  delta EStateM.tryCatch
  cases hs : x s with
  | ok a t =>
    rw [hs] at hx
    exact hx
  | error e t =>
    rw [hs] at hx
    exact hx

theorem ensures_ite_bind {c : Prop} [Decidable c] {x : EStateM ε σ PUnit} {rest : EStateM ε σ β}
    {s : σ} {good : β → σ → Prop} {bad : ε → σ → Prop} (P : σ → Prop)
    (hx : Ensures x s (fun _ t => P t) bad) (hs : P s)
    (hrest : ∀ t, P t → Ensures rest t good bad) :
    Ensures (if c then x >>= fun _ => rest else rest) s good bad := by
  split
  · exact hx.bind (fun _ t ht => hrest t ht) fun _ _ h => h
  · exact hrest s hs

/-! ## Loops -/

/-- A loop keeps an invariant of the items that are left. -/
theorem ensures_forIn {xs : List α} {body : α → PUnit → EStateM ε σ (ForInStep PUnit)}
    {motive : List α → σ → Prop} {bad : ε → σ → Prop}
    (hstep : ∀ a rest t, motive (a :: rest) t →
      Ensures (body a ⟨⟩) t (fun r t => r = .yield ⟨⟩ ∧ motive rest t) bad)
    {s : σ} (h : motive xs s) : Ensures (forIn xs ⟨⟩ body) s (fun _ t => motive [] t) bad := by
  induction xs generalizing s with
  | nil => exact h
  | cons a rest ih =>
    rw [List.forIn_cons]
    refine (hstep a rest s h).bind ?_ fun _ _ hbad => hbad
    rintro r t ⟨rfl, ht⟩
    exact ih ht

end LangServer
