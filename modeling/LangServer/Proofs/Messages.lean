import LangServer.Json.Reader
import LangServer.Proofs.Members
import LangServer.Proofs.Numerals
import LangServer.Proofs.Trimming
import LangServer.Value.Access

/-!
# What messages hold

A value that was read from a message keeps to the limits of messages, so that it can be sent again
(`isWritable_of_parse?`). A blank text is no message (`trim_ne_nil_of_parse?`); many of the blanks
are not blanks of JSON.
-/

namespace LangServer.Json

/-! ## Limits of values -/

theorem itemsFit_iff {room : Nat} {items : List Value} :
    itemsFit room items = true ↔ ∀ v ∈ items, 0 < room ∧ fits (room - 1) v = true := by
  induction items with
  | nil => exact iff_of_true rfl fun v hv => absurd hv List.not_mem_nil
  | cons v rest ih =>
    rw [itemsFit, Bool.and_eq_true, Bool.and_eq_true, decide_eq_true_iff, ih, List.forall_mem_cons]

theorem membersFit_iff {room : Nat} {members : List (String × Value)} :
    membersFit room members = true ↔ ∀ m ∈ members, 0 < room ∧ fits (room - 1) m.2 = true := by
  induction members with
  | nil => exact iff_of_true rfl fun m hm => absurd hm List.not_mem_nil
  | cons m rest ih =>
    rw [membersFit, Bool.and_eq_true, Bool.and_eq_true, decide_eq_true_iff, ih,
      List.forall_mem_cons]

theorem isWordSized_iff {n : Int} :
    isWordSized n = true ↔ -0x8000000000000000 ≤ n ∧ n < 0x10000000000000000 := by
  rw [isWordSized, Bool.and_eq_true, decide_eq_true_iff, decide_eq_true_iff]

theorem isWordSized_of_item {room : Nat} {v : Value} {key : String} {n : Int}
    (h : fits room v = true) (hitem : v.item key = .ok (.int n)) : isWordSized n = true := by
  cases v with
  | object members =>
    rw [Value.item] at hitem
    split at hitem
    · next w hw =>
      obtain rfl := Except.ok.inj hitem
      rw [fits, membersFit_iff] at h
      exact (h _ (Value.mem_of_lookup hw)).2
    · cases hitem
  | _ => cases hitem

/-! ## Numbers -/

theorem of_word64? {neg : Bool} {ds : List Char} {n : Nat} (h : word64? neg ds = some n) :
    n < 0x10000000000000000 ∧ (neg = true → n ≤ 0x8000000000000000) := by
  -- both bounds hold of the number that is gathered, after each digit
  suffices hfold : ∀ size : Nat,
      size < 0x10000000000000000 ∧ (neg = true → size ≤ 0x8000000000000000) →
      ds.foldlM (fun n c =>
        let next := (10 * n + (c.toNat - 48)) % 0x10000000000000000
        if if neg then decide (0x8000000000000000 < next) else decide (next < n) then none
        else some next) size = some n →
      n < 0x10000000000000000 ∧ (neg = true → n ≤ 0x8000000000000000) from
    hfold 0 ⟨by decide, fun _ => by decide⟩ h
  clear h
  intro size hsize h
  induction ds generalizing size with
  | nil =>
    obtain rfl := Option.some_inj.1 h
    exact hsize
  | cons c rest ih =>
    rw [List.foldlM_cons] at h
    obtain ⟨next, hnext, h⟩ := Option.bind_eq_some_iff.1 h
    refine ih next ?_ h
    obtain ⟨hkept, hnext⟩ := Option.ite_none_left_eq_some.1 hnext
    obtain rfl := Option.some_inj.1 hnext
    refine ⟨Nat.mod_lt _ (by decide), fun hneg => ?_⟩
    rw [hneg, if_pos rfl, decide_eq_true_iff] at hkept
    exact Nat.le_of_not_lt hkept

theorem fits_looseNumber? {neg : Bool} {s rest : List Char} {v : Value}
    (h : looseNumber? neg s = some (v, rest)) (room : Nat) : fits room v = true := by
  rw [looseNumber?] at h
  dsimp only at h
  split at h
  · cases h
  · split at h
    · cases h
    · -- a fraction
      split at h
      · cases h
      · obtain ⟨rfl, -⟩ := Prod.mk.inj (Option.some_inj.1 h)
        rfl
    · next size hsize _ =>
      split at h
      · split at h
        · cases h
        · obtain ⟨rfl, -⟩ := Prod.mk.inj (Option.some_inj.1 h)
          rfl
      · obtain ⟨rfl, -⟩ := Prod.mk.inj (Option.some_inj.1 h)
        obtain ⟨hword, hneg⟩ := of_word64? hsize
        rw [fits, isWordSized_iff]
        split
        · next hminus =>
          have := hneg hminus
          omega
        · omega

theorem fits_number? {neg : Bool} {s rest : List Char} {v : Value}
    (h : number? .message neg s = some (v, rest)) (room : Nat) : fits room v = true := by
  rw [number?] at h
  exact fits_looseNumber? h room

/-! ## Values -/

/-- What is read in a number of steps keeps to the limits, if what was read before does. -/
structure KeepsLimits (fuel : Nat) : Prop where
  value : ∀ {room s v rest}, value? .message fuel room s = some (v, rest) → fits room v = true
  items : ∀ {room acc s v rest}, (∀ w ∈ acc, fits room w = true) →
    items? .message fuel room acc s = some (v, rest) → fits (room + 1) v = true
  members : ∀ {room acc s v rest}, (∀ m ∈ acc, fits room m.2 = true) →
    members? .message fuel room acc s = some (v, rest) → fits (room + 1) v = true

section

variable {fuel room : Nat} {s rest : List Char} {v : Value}

theorem KeepsLimits.items_succ (h : KeepsLimits fuel) {acc : List Value}
    (hacc : ∀ w ∈ acc, fits room w = true)
    (hread : items? .message (fuel + 1) room acc s = some (v, rest)) :
    fits (room + 1) v = true := by
  rw [items?] at hread
  split at hread
  · cases hread
  · next w after hw =>
    have hcons : ∀ w' ∈ w :: acc, fits room w' = true :=
      List.forall_mem_cons.2 ⟨h.value hw, hacc⟩
    split at hread
    · exact h.items hcons hread
    · obtain ⟨rfl, -⟩ := Prod.mk.inj (Option.some_inj.1 hread)
      rw [fits, itemsFit_iff]
      exact fun w' hw' => ⟨room.succ_pos, hcons w' (List.mem_reverse.1 hw')⟩
    · cases hread

theorem KeepsLimits.members_succ (h : KeepsLimits fuel) {acc : List (String × Value)}
    (hacc : ∀ m ∈ acc, fits room m.2 = true)
    (hread : members? .message (fuel + 1) room acc s = some (v, rest)) :
    fits (room + 1) v = true := by
  rw [members?.eq_def] at hread
  dsimp only at hread
  split at hread
  · split at hread
    · cases hread
    · next key afterKey hkey =>
      split at hread
      · split at hread
        · cases hread
        · next w after hw =>
          have hinsert : ∀ m ∈ Value.insert key w acc, fits room m.2 = true := by
            intro m hm
            rcases Value.mem_of_mem_insert hm with rfl | hm
            · exact h.value hw
            · exact hacc m hm
          split at hread
          · exact h.members hinsert hread
          · obtain ⟨rfl, -⟩ := Prod.mk.inj (Option.some_inj.1 hread)
            rw [fits, membersFit_iff]
            exact fun m hm => ⟨room.succ_pos, hinsert m hm⟩
          · cases hread
      · cases hread
  · cases hread

theorem KeepsLimits.value_succ (h : KeepsLimits fuel)
    (hread : value? .message (fuel + 1) room s = some (v, rest)) : fits room v = true := by
  cases s with
  | nil => cases hread
  | cons c more =>
    have hlevel : room ≠ 0 → room - 1 + 1 = room := Nat.succ_pred
    rw [value?] at hread
    split at hread
    · obtain ⟨_, -, hread⟩ := Option.map_eq_some_iff.1 hread
      obtain ⟨rfl, -⟩ := Prod.mk.inj hread
      rfl
    split at hread
    · -- a list has one level less
      obtain ⟨hroom, hread⟩ := Option.ite_none_left_eq_some.1 hread
      split at hread
      · obtain ⟨rfl, -⟩ := Prod.mk.inj (Option.some_inj.1 hread)
        rfl
      · exact hlevel hroom ▸ h.items (fun w hw => absurd hw List.not_mem_nil) hread
    split at hread
    · -- and so has an object
      obtain ⟨hroom, hread⟩ := Option.ite_none_left_eq_some.1 hread
      split at hread
      · obtain ⟨rfl, -⟩ := Prod.mk.inj (Option.some_inj.1 hread)
        rfl
      · exact hlevel hroom ▸ h.members (fun m hm => absurd hm List.not_mem_nil) hread
    iterate 5
      split at hread
      · obtain ⟨_, -, hread⟩ := Option.map_eq_some_iff.1 hread
        obtain ⟨rfl, -⟩ := Prod.mk.inj hread
        rfl
    split at hread
    · split at hread
      · obtain ⟨rfl, -⟩ := Prod.mk.inj (Option.some_inj.1 hread)
        rfl
      · exact fits_number? hread room
    · exact fits_number? hread room

theorem keepsLimits (fuel : Nat) : KeepsLimits fuel := by
  induction fuel with
  | zero => exact ⟨fun h => (nomatch h), fun _ h => (nomatch h), fun _ h => (nomatch h)⟩
  | succ fuel ih => exact ⟨ih.value_succ, ih.items_succ, ih.members_succ⟩

/-- **What is read from a message can be sent.** -/
theorem isWritable_of_parse? (h : parse? .message s = some v) : isWritable v = true := by
  rw [parse?] at h
  split at h
  · next w rest hread =>
    obtain ⟨-, h⟩ := Option.ite_none_right_eq_some.1 h
    obtain rfl := Option.some_inj.1 h
    exact (keepsLimits _).value hread
  · cases h

end

/-! ## Blank texts -/

/-- **A blank text is no message.** -/
theorem trim_ne_nil_of_parse? {s : List Char} {v : Value} (h : parse? .message s = some v) :
    Text.trim s ≠ [] := by
  intro hblank
  have hskip : ∀ c ∈ skipSpace s, Text.isBlank c = true := fun c hc =>
    Text.trim_eq_nil_iff.1 hblank c (List.dropWhile_subset _ hc)
  rw [parse?] at h
  cases hs : skipSpace s with
  | nil =>
    rw [hs] at h
    cases h
  | cons c rest =>
    have hc : Text.isBlank c = true := hskip c (hs ▸ List.mem_cons_self)
    have hne : ∀ d : Char, Text.isBlank d = false → c ≠ d := by
      rintro d hd rfl
      cases hc.symm.trans hd
    have hdigit : ¬ c.isDigit = true := fun hdigit =>
      Bool.false_ne_true ((Text.isBlank_of_ascii hdigit).symm.trans hc)
    have hnumber : number? .message false (c :: rest) = none := by
      rw [number?, looseNumber?, List.takeWhile_cons_of_neg hdigit]
      rfl
    -- none of the characters that a value begins with is blank
    rw [hs, value?] at h
    iterate 9 rw [if_neg (hne _ (by decide))] at h
    rw [hnumber] at h
    cases h

end LangServer.Json
