import LangServer.Text.Blank
import Mathlib.Data.List.DropRight

/-!
# Trimmed texts

Trimming takes away the blanks around a text, and nothing else.
-/

namespace LangServer.Text

variable {a b s t : List Char}

/-- The text neither begins nor ends with a blank. -/
structure IsTrim (s : List Char) : Prop where
  head : ∀ c ∈ s.head?, isBlank c = false
  last : ∀ c ∈ s.getLast?, isBlank c = false

theorem isTrim_of_forall (h : ∀ c ∈ s, isBlank c = false) : IsTrim s where
  head c hc := h c (List.mem_of_head? hc)
  last c hc := h c (List.mem_of_getLast? hc)

theorem trim_eq_nil_iff : trim s = [] ↔ ∀ c ∈ s, isBlank c = true := by
  rw [trim, trimEnd, dropEndWhile, List.reverse_eq_nil_iff, List.dropWhile_eq_nil_iff, trimStart]
  constructor
  · intro h c hc
    rw [← List.takeWhile_append_dropWhile (p := isBlank) (l := s)] at hc
    rcases List.mem_append.1 hc with hc | hc
    · exact List.all_eq_true.1 List.all_takeWhile c hc
    · exact h c (List.mem_reverse.2 hc)
  · exact fun h c hc => h c (List.dropWhile_subset _ (List.mem_reverse.1 hc))

theorem trimStart_append (ha : ∀ c ∈ a, isBlank c = true) : trimStart (a ++ s) = trimStart s :=
  List.dropWhile_append_of_pos ha

theorem trimEnd_append (hb : ∀ c ∈ b, isBlank c = true) : trimEnd (s ++ b) = trimEnd s := by
  rw [trimEnd, dropEndWhile, List.reverse_append,
    List.dropWhile_append_of_pos fun c hc => hb c (List.mem_reverse.1 hc)]
  rfl

theorem trimStart_of_head (h : ∀ c ∈ s.head?, isBlank c = false) : trimStart s = s := by
  cases s with
  | nil => rfl
  | cons c s => exact List.dropWhile_cons_of_neg (by rw [h c rfl]; exact Bool.false_ne_true)

theorem trimEnd_of_last (h : ∀ c ∈ s.getLast?, isBlank c = false) : trimEnd s = s := by
  have hreverse : ∀ c ∈ s.reverse.head?, isBlank c = false := by rwa [List.head?_reverse]
  have hkept : s.reverse.dropWhile isBlank = s.reverse := trimStart_of_head hreverse
  rw [trimEnd, dropEndWhile, hkept, List.reverse_reverse]

theorem trimEnd_append_of_last (h : ∀ c ∈ s.getLast?, isBlank c = false) :
    trimEnd (s ++ t) = s ++ trimEnd t := by
  have hlast : ∀ c ∈ s.reverse.head?, isBlank c = false := by rwa [List.head?_reverse]
  have hkept : s.reverse.dropWhile isBlank = s.reverse := trimStart_of_head hlast
  rw [trimEnd, dropEndWhile, List.reverse_append, List.dropWhile_append]
  split
  · next hempty =>
    have hnil : trimEnd t = [] := List.reverse_eq_nil_iff.2 (List.isEmpty_iff.1 hempty)
    rw [hkept, List.reverse_reverse, hnil, List.append_nil]
  · rw [List.reverse_append, List.reverse_reverse]
    rfl

/-- **Blanks around a text** are taken away, and the text is left. -/
theorem trim_append_append (ha : ∀ c ∈ a, isBlank c = true) (hb : ∀ c ∈ b, isBlank c = true)
    (hs : IsTrim s) : trim (a ++ s ++ b) = s := by
  rw [List.append_assoc, trim, trimStart_append ha]
  cases s with
  | nil =>
    have hblank : trimStart b = [] := List.dropWhile_eq_nil_iff.2 hb
    rw [List.nil_append, hblank]
    rfl
  | cons c s =>
    rw [trimStart_of_head (s := c :: s ++ b) hs.head, trimEnd_append hb, trimEnd_of_last hs.last]

theorem trim_trimEnd (s : List Char) : trim (trimEnd s) = trim s := by
  obtain ⟨b, hb, hs⟩ : ∃ b, (∀ c ∈ b, isBlank c = true) ∧ s = trimEnd s ++ b := by
    refine ⟨(s.reverse.takeWhile isBlank).reverse, fun c hc => ?_, ?_⟩
    · exact List.all_eq_true.1 List.all_takeWhile c (List.mem_reverse.1 hc)
    · rw [trimEnd, dropEndWhile, ← List.reverse_append, List.takeWhile_append_dropWhile,
        List.reverse_reverse]
  generalize trimEnd s = w at hs
  rw [hs, trim, trim, trimStart, trimStart, List.dropWhile_append]
  split
  · next hempty =>
    rw [List.isEmpty_iff.1 hempty, List.dropWhile_eq_nil_iff.2 hb]
  · rw [trimEnd_append hb]

/-! ## Joined texts -/

theorem intercalate_concat {xs : List (List Char)} (h : xs ≠ []) (x : List Char) :
    a.intercalate (xs ++ [x]) = a.intercalate xs ++ (a ++ x) := by
  induction xs with
  | nil => exact absurd rfl h
  | cons y xs ih =>
    cases xs with
    | nil => simp [List.intercalate_cons_cons, List.intercalate_singleton]
    | cons z xs =>
      rw [List.cons_append, List.cons_append, List.intercalate_cons_cons, ← List.cons_append,
        ih (List.cons_ne_nil _ _), List.intercalate_cons_cons, List.append_assoc _ _ (a ++ x)]

theorem exists_intercalate_eq {xs : List (List Char)} (h : xs ≠ []) :
    ∃ front, a.intercalate xs = front ++ xs.getLast h := by
  induction xs with
  | nil => exact absurd rfl h
  | cons y xs ih =>
    cases xs with
    | nil => exact ⟨[], by simp⟩
    | cons z xs =>
      obtain ⟨front, hfront⟩ := ih (List.cons_ne_nil _ _)
      refine ⟨y ++ a ++ front, ?_⟩
      rw [List.intercalate_cons_cons, hfront, List.append_assoc (y ++ a),
        List.getLast_cons (List.cons_ne_nil _ _)]

theorem mem_intercalate {c sep : Char} (hc : c ≠ sep) {xs : List (List Char)} :
    c ∈ [sep].intercalate xs ↔ ∃ x ∈ xs, c ∈ x := by
  induction xs with
  | nil => simp
  | cons x xs ih =>
    cases xs with
    | nil => simp
    | cons y xs =>
      rw [List.intercalate_cons_cons, List.mem_append, List.mem_append, ih]
      simp [hc]

theorem trimEnd_intercalate_append (ha : ∀ c ∈ a, isBlank c = true) {xs ys : List (List Char)}
    (hxs : xs ≠ []) (hys : ∀ y ∈ ys, y = []) :
    trimEnd (a.intercalate (xs ++ ys)) = trimEnd (a.intercalate xs) := by
  induction ys generalizing xs with
  | nil => rw [List.append_nil]
  | cons y ys ih =>
    obtain ⟨rfl, hrest⟩ := List.forall_mem_cons.1 hys
    rw [List.append_cons, ih (List.append_ne_nil_of_left_ne_nil hxs [[]]) hrest,
      intercalate_concat hxs, List.append_nil, trimEnd_append ha]

theorem trimEnd_trimEnd (s : List Char) : trimEnd (trimEnd s) = trimEnd s :=
  List.rdropWhile_idempotent isBlank s

end LangServer.Text
