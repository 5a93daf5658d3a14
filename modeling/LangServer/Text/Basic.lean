import LangServer.Text.Blank

/-!
# Cutting, splitting and joining texts

Texts are lists of characters here, so every length and position counts code points. Positions may
be negative; they then count from the end of the text, and what lies outside is clipped.
-/

namespace LangServer.Text

/-! ## Characters of a text -/

/-- What holds of all characters of a text is decided along the text, and not by trying all
characters there are. -/
instance (priority := 1100) decidableForallMem {p : Char → Prop} [DecidablePred p]
    (s : List Char) : Decidable (∀ c ∈ s, p c) := List.decidableBAll p s

instance (priority := 1100) decidableForallMemOption {p : Char → Prop} [DecidablePred p]
    (c? : Option Char) : Decidable (∀ c ∈ c?, p c) := Option.decidableForallMem c?

/-! ## Signed positions -/

/-- The place that a signed position means in a sequence of length `n`, clipped to it. -/
def clip (n : Nat) (i : Int) : Nat :=
  if i < 0 then (i + n).toNat else min i.toNat n

/-- Everything before a signed position. -/
def before {α : Type} (s : List α) (i : Int) : List α := s.take (clip s.length i)

/-- Everything from a signed position on. -/
def after {α : Type} (s : List α) (i : Int) : List α := s.drop (clip s.length i)

/-- The element at a signed position, if there is one. -/
def at? {α : Type} (s : List α) (i : Int) : Option α :=
  if i < 0 then if i + s.length < 0 then none else s[(i + s.length).toNat]? else s[i.toNat]?

theorem before_natCast {α : Type} (s : List α) (k : Nat) : before s (k : Int) = s.take k := by
  simp only [before, clip, if_neg (Int.not_lt.mpr (Int.natCast_nonneg k)), Int.toNat_natCast]
  rw [← List.take_take, List.take_length]

theorem after_natCast {α : Type} (s : List α) (k : Nat) : after s (k : Int) = s.drop k := by
  simp only [after, clip, if_neg (Int.not_lt.mpr (Int.natCast_nonneg k)), Int.toNat_natCast]
  rcases Nat.le_total k s.length with h | h
  · rw [Nat.min_eq_left h]
  · rw [Nat.min_eq_right h, List.drop_length, List.drop_of_length_le h]

theorem at?_natCast {α : Type} (s : List α) (k : Nat) : at? s (k : Int) = s[k]? := by
  simp [at?, Int.not_lt.mpr (Int.natCast_nonneg k)]

/-! ## Splitting and joining -/

/-- The fields of a text between the separators; there is always at least one field. -/
def splitOn (sep : Char) : List Char → List (List Char)
  | [] => [[]]
  | c :: rest =>
    if c = sep then [] :: splitOn sep rest
    else
      match splitOn sep rest with
      | [] => [[c]]
      | field :: fields => (c :: field) :: fields

/-- At most `n` cuts, from the left. -/
def splitOnAtMost (sep : Char) (n : Nat) (s : List Char) : List (List Char) :=
  let fields := splitOn sep s
  if fields.length ≤ n + 1 then fields
  else fields.take n ++ [List.intercalate [sep] (fields.drop n)]

/-- The text before the first separator and the text after it. -/
def cutFirst? {α : Type} [DecidableEq α] (sep : α) : List α → Option (List α × List α)
  | [] => none
  | c :: rest =>
    if c = sep then some ([], rest)
    else (cutFirst? sep rest).map fun (l, r) => (c :: l, r)

/-- The text before the last separator and the text after it. -/
def cutLast? (sep : Char) (s : List Char) : Option (List Char × List Char) :=
  (cutFirst? sep s.reverse).map fun (r, l) => (l.reverse, r.reverse)

/-- The rest of a text that begins with `head`. -/
def stripHead? (head : List Char) (s : List Char) : Option (List Char) :=
  if head.isPrefixOf s then some (s.drop head.length) else none

/-- Does `part` occur in the text? -/
def contains (part : List Char) : List Char → Bool
  | [] => part.isEmpty
  | c :: rest => part.isPrefixOf (c :: rest) || contains part rest

/-- Every occurrence of `old`, found from the left and without overlap, becomes `new`. The number
`skip` counts the characters of an occurrence that are still to be passed over. -/
def replaceFrom (old new : List Char) : Nat → List Char → List Char
  | _, [] => []
  | skip + 1, _ :: rest => replaceFrom old new skip rest
  | 0, c :: rest =>
    if old.isPrefixOf (c :: rest) then new ++ replaceFrom old new (old.length - 1) rest
    else c :: replaceFrom old new 0 rest

/-- Every occurrence of the nonempty text `old` becomes `new`. -/
def replace (old new : List Char) (s : List Char) : List Char := replaceFrom old new 0 s

/-- The fields of a text between occurrences of the nonempty text `sep`. -/
def splitOnText (sep : List Char) : Nat → List Char → List (List Char)
  | _, [] => [[]]
  | skip + 1, _ :: rest => splitOnText sep skip rest
  | 0, c :: rest =>
    if sep.isPrefixOf (c :: rest) then [] :: splitOnText sep (sep.length - 1) rest
    else
      match splitOnText sep 0 rest with
      | [] => [[c]]
      | field :: fields => (c :: field) :: fields

theorem splitOn_ne_nil (sep : Char) (s : List Char) : splitOn sep s ≠ [] := by
  induction s with
  | nil => simp [splitOn]
  | cons c rest ih =>
    rw [splitOn]
    split
    · simp
    · split <;> simp

theorem intercalate_splitOn (sep : Char) (s : List Char) :
    List.intercalate [sep] (splitOn sep s) = s := by
  induction s with
  | nil => rfl
  | cons c rest ih =>
    rw [splitOn]
    split
    · next h =>
      subst h
      match hs : splitOn c rest with
      | [] => exact absurd hs (splitOn_ne_nil c rest)
      | field :: fields =>
        rw [hs] at ih
        simp [List.intercalate, List.intersperse] at ih ⊢
        exact ih
    · match hs : splitOn sep rest with
      | [] => exact absurd hs (splitOn_ne_nil sep rest)
      | field :: [] =>
        rw [hs] at ih
        simp [List.intercalate, List.intersperse] at ih ⊢
        exact ih
      | field :: next :: fields =>
        rw [hs] at ih
        simp [List.intercalate, List.intersperse] at ih ⊢
        exact ih

theorem splitOn_eq_list (sep : Char) (s : List Char) : splitOn sep s = s.splitOn sep := by
  induction s with
  | nil => rfl
  | cons c rest ih =>
    rw [splitOn, List.splitOn_cons_eq_if_modifyHead, ih]
    by_cases h : c = sep
    · simp [h]
    · obtain ⟨field, fields, hs⟩ := List.exists_cons_of_ne_nil (ih ▸ splitOn_ne_nil sep rest)
      simp [h, hs]

theorem splitOn_append_cons (sep : Char) (a b : List Char) :
    splitOn sep (a ++ sep :: b) = splitOn sep a ++ splitOn sep b := by
  simp only [splitOn_eq_list]
  exact List.splitOnP_append_cons a b (beq_self_eq_true sep)

theorem splitOn_of_notMem {sep : Char} {s : List Char} (h : sep ∉ s) : splitOn sep s = [s] := by
  rw [splitOn_eq_list, List.splitOn_eq_singleton h]

theorem splitOn_intercalate {sep : Char} {fields : List (List Char)}
    (h : ∀ field ∈ fields, sep ∉ field) (hne : fields ≠ []) :
    splitOn sep (List.intercalate [sep] fields) = fields := by
  rw [splitOn_eq_list, List.splitOn_intercalate sep h hne]

theorem notMem_of_mem_splitOn {sep : Char} {s field : List Char} (h : field ∈ splitOn sep s) :
    sep ∉ field := by
  induction s generalizing field with
  | nil => simp_all [splitOn]
  | cons c rest ih =>
    rw [splitOn] at h
    split at h
    · rcases List.mem_cons.mp h with rfl | h
      · simp
      · exact ih h
    · next hc =>
      obtain ⟨first, fields, hs⟩ := List.exists_cons_of_ne_nil (splitOn_ne_nil sep rest)
      simp only [hs, List.mem_cons] at h ih
      rcases h with rfl | h
      · simp [Ne.symm hc, ih (.inl rfl)]
      · exact ih (.inr h)

end LangServer.Text
