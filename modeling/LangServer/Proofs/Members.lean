import LangServer.Value.Basic

/-!
# Members in order

Tables of all kinds are lists of pairs here: the members of an object, the documents of a workspace,
the folders of a session. They are read by `lookup` only, so setting and taking out a key are
described by what `lookup` finds afterwards.

Values that count as the same element of a set are those with the same `asKey`.
-/

namespace LangServer.Value

variable {α : Type} {key : String}

theorem lookup_insert (key other : String) (v : α) (ms : List (String × α)) :
    lookup other (insert key v ms) = if other = key then some v else lookup other ms := by
  by_cases h : other = key
  · rw [if_pos h, h, lookup_insert_self]
  · rw [if_neg h, lookup_insert_of_ne h]

theorem lookup_erase (key other : String) (ms : List (String × α)) :
    lookup other (erase key ms) = if other = key then none else lookup other ms := by
  induction ms with
  | nil => simp [erase, lookup]
  | cons m rest ih =>
    obtain ⟨k, w⟩ := m
    rw [erase] at ih ⊢
    by_cases hk : k = key
    · rw [List.filter_cons_of_neg (by simp [hk]), ih, lookup]
      by_cases ho : other = key
      · rw [if_pos ho, if_pos ho]
      · rw [if_neg ho, if_neg ho, if_neg fun h : k = other => ho (h.symm.trans hk)]
    · rw [List.filter_cons_of_pos (by simp [hk]), lookup, lookup, ih]
      by_cases ho : other = key
      · rw [if_pos ho, if_neg fun h : k = other => hk (h.trans ho), if_pos ho]
      · rw [if_neg ho, if_neg ho]

variable {ms : List (String × α)}

theorem mem_of_lookup {v : α} (h : lookup key ms = some v) : (key, v) ∈ ms := by
  fun_induction lookup key ms with
  | case1 => simp at h
  | case2 w rest =>
    rw [Option.some_inj] at h
    simp [h]
  | case3 k w rest hk ih => exact List.mem_cons_of_mem _ (ih h)

theorem lookup_eq_none_iff : lookup key ms = none ↔ key ∉ ms.map (·.1) := by
  fun_induction lookup key ms with
  | case1 => simp
  | case2 w rest => simp
  | case3 k w rest hk ih =>
    rw [ih, List.map_cons, List.mem_cons, not_or]
    exact ⟨fun h => ⟨fun he => hk he.symm, h⟩, fun h => h.2⟩

theorem lookup_map {β : Type} (f : α → β) (key : String) (ms : List (String × α)) :
    lookup key (ms.map fun m => (m.1, f m.2)) = (lookup key ms).map f := by
  fun_induction lookup key ms with
  | case1 => rfl
  | case2 w rest => rw [List.map_cons, lookup, if_pos rfl, Option.map_some]
  | case3 k w rest hk ih => rw [List.map_cons, lookup, if_neg hk, ih]

theorem mem_of_mem_insert {v : α} {m : String × α}
    (h : m ∈ insert key v ms) : m = (key, v) ∨ m ∈ ms := by
  fun_induction insert key v ms with
  | case1 => exact .inl (List.mem_singleton.1 h)
  | case2 w rest =>
    rcases List.mem_cons.1 h with h | h
    · exact .inl h
    · exact .inr (List.mem_cons_of_mem _ h)
  | case3 k w rest hk ih =>
    rcases List.mem_cons.1 h with h | h
    · exact .inr (h ▸ List.mem_cons_self)
    · exact (ih h).imp id (List.mem_cons_of_mem _)

theorem mem_of_mem_erase {m : String × α} (h : m ∈ erase key ms) : m ∈ ms := (List.mem_filter.1 h).1

theorem insert_of_lookup {v : α} (h : lookup key ms = some v) : insert key v ms = ms := by
  induction ms with
  | nil => cases h
  | cons m ms ih =>
    obtain ⟨k, w⟩ := m
    rw [lookup] at h
    rw [insert]
    split
    · rename_i hk
      rw [if_pos hk] at h
      rw [Option.some_inj.1 h, hk]
    · rename_i hk
      rw [if_neg hk] at h
      rw [ih h]

theorem insert_insert (key : String) (v w : α) (ms : List (String × α)) :
    insert key v (insert key w ms) = insert key v ms := by
  induction ms with
  | nil => simp [insert]
  | cons m ms ih =>
    obtain ⟨k, u⟩ := m
    by_cases hk : k = key
    · simp [insert, hk]
    · simp [insert, hk, ih]

/-! ## Elements of sets -/

/-- The value that stands for all that are alike to it. -/
def asKey (v : Value) : Value :=
  match v.whole? with
  | some n => .int n
  | none => v

theorem alike_iff (a b : Value) : a.alike b = true ↔ a.asKey = b.asKey := by
  rw [alike, asKey, asKey]
  cases ha : a.whole? with
  | some m =>
    cases hb : b.whole? with
    | some n => simp
    | none =>
      constructor
      · intro h
        rw [of_decide_eq_true h, hb] at ha
        cases ha
      · rintro rfl
        cases hb
  | none =>
    cases hb : b.whole? with
    | some n =>
      constructor
      · intro h
        rw [of_decide_eq_true h, hb] at ha
        cases ha
      · rintro rfl
        cases ha
    | none => exact decide_eq_true_iff

end LangServer.Value
