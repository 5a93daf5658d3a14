import LangServer.Text.Digit
import Mathlib.Data.List.TakeWhile

/-!
# Numbers that are printed and read back

Numbers are printed with the digits of the ASCII range, and `readInt` reads the digits of all
scripts, with signs and blanks around them and underscores between them. A printed number is read
back, unless it has more digits than are read (`readInt_toDigits`).
-/

namespace LangServer.Text

/-! ## ASCII digits -/

section

variable {c d : Char}

theorem digitValue?_of_ascii (h : c.isDigit = true) : digitValue? c = some (c.toNat - 48) := by
  rw [Char.isDigit, Bool.and_eq_true, decide_eq_true_iff, decide_eq_true_iff] at h
  have hrange : '0' ≤ c ∧ c ≤ '9' := h
  rw [digitValue?, if_pos hrange]

theorem isDigit_of_ascii (h : c.isDigit = true) : isDigit c = true := by
  rw [isDigit, digitValue?_of_ascii h]
  rfl

theorem isBlank_of_ascii (h : c.isDigit = true) : isBlank c = false := by
  have hrange : 48 ≤ c.toNat ∧ c.toNat ≤ 57 := Char.isDigit_iff_toNat.1 h
  simp only [isBlank, Bool.or_eq_false_iff, Bool.and_eq_false_iff, decide_eq_false_iff_not,
    beq_eq_false_iff_ne]
  omega

theorem isNumberBlank_of_ascii (h : c.isDigit = true) : isNumberBlank c = false := by
  rw [isNumberBlank, isBlank_of_ascii h, Bool.false_and]

theorem ne_of_ascii (h : c.isDigit = true) (hd : d.isDigit = false) : c ≠ d := by
  rintro rfl
  cases h.symm.trans hd

end

/-! ## Decimal digits of a number -/

section

variable {s : List Char}

theorem ascii_of_mem_toDigits {n : Nat} {c : Char} (h : c ∈ Nat.toDigits 10 n) :
    c.isDigit = true :=
  Nat.isDigit_of_mem_toDigits (by decide) (by decide) h

theorem dropWhile_of_ascii (h : ∀ c ∈ s, c.isDigit = true) : s.dropWhile isNumberBlank = s := by
  cases s with
  | nil => rfl
  | cons c rest =>
    rw [List.dropWhile_cons_of_neg]
    rw [isNumberBlank_of_ascii (h c List.mem_cons_self)]
    exact Bool.false_ne_true

theorem splitSign_of_ascii (h : ∀ c ∈ s, c.isDigit = true) : splitSign s = (false, s) := by
  have htrim : dropEndWhile isNumberBlank (s.dropWhile isNumberBlank) = s := by
    rw [dropWhile_of_ascii h, dropEndWhile, dropWhile_of_ascii (by simpa using h),
      List.reverse_reverse]
  rw [splitSign, htrim]
  split
  · exact absurd (h '-' List.mem_cons_self) (by decide)
  · exact absurd (h '+' List.mem_cons_self) (by decide)
  · rfl

theorem readDigits_of_ascii (h : ∀ c ∈ s, c.isDigit = true) (acc : Nat) :
    readDigits false acc s = some (Nat.ofDigitChars 10 s acc) := by
  induction s generalizing acc with
  | nil => rw [readDigits, if_neg Bool.false_ne_true, Nat.ofDigitChars_nil]
  | cons c rest ih =>
    rw [List.forall_mem_cons] at h
    rw [readDigits, if_neg (ne_of_ascii h.1 (by decide)), digitValue?_of_ascii h.1]
    dsimp only
    rw [ih h.2, Nat.ofDigitChars_cons]
    rfl

end

theorem readDigits_toDigits (n : Nat) : readDigits true 0 (Nat.toDigits 10 n) = some n := by
  have hdigits : ∀ c ∈ Nat.toDigits 10 n, c.isDigit = true := fun _ => ascii_of_mem_toDigits
  -- there is a first digit, after which it makes no difference that a digit had to come
  have hfresh : readDigits true 0 (Nat.toDigits 10 n) = readDigits false 0 (Nat.toDigits 10 n) := by
    obtain ⟨c, rest, hcons⟩ := List.exists_cons_of_ne_nil (Nat.toDigits_ne_nil (b := 10) (n := n))
    rw [hcons] at hdigits ⊢
    have hc : c ≠ '_' := ne_of_ascii (hdigits c List.mem_cons_self) (by decide)
    rw [readDigits, readDigits, if_neg hc, if_neg hc]
  rw [hfresh, readDigits_of_ascii hdigits, Nat.ofDigitChars_ten_toDigits]

theorem overlong?_toDigits (n : Nat) :
    (overlong? (Nat.toDigits 10 n)).isSome = decide (digitLimit < (Nat.toDigits 10 n).length) := by
  have hdigits : ∀ c ∈ Nat.toDigits 10 n, c.isDigit = true := fun _ => ascii_of_mem_toDigits
  have htake : (Nat.toDigits 10 n).takeWhile (fun c => isDigit c || c == '_') =
      Nat.toDigits 10 n := by
    rw [List.takeWhile_eq_self_iff]
    intro c hc
    rw [isDigit_of_ascii (hdigits c hc), Bool.true_or]
  have hfilter : (Nat.toDigits 10 n).filter (· != '_') = Nat.toDigits 10 n := by
    rw [List.filter_eq_self]
    intro c hc
    simpa using ne_of_ascii (hdigits c hc) (by decide)
  simp only [overlong?, splitSign_of_ascii hdigits, htake, hfilter, readDigits_toDigits]
  by_cases hlong : digitLimit < (Nat.toDigits 10 n).length <;> simp [hlong]

/-- **A number is read back from its digits**, unless they are too many. -/
theorem readInt_toDigits (n : Nat) :
    readInt (Nat.toDigits 10 n) =
      if (Nat.toDigits 10 n).length ≤ digitLimit then some (n : Int) else none := by
  rw [readInt, overlong?_toDigits, splitSign_of_ascii fun _ => ascii_of_mem_toDigits]
  by_cases hle : (Nat.toDigits 10 n).length ≤ digitLimit
  · rw [decide_eq_false (Nat.not_lt.2 hle), if_neg Bool.false_ne_true, if_pos hle]
    simp [readDigits_toDigits]
  · rw [decide_eq_true (Nat.lt_of_not_le hle), if_pos rfl, if_neg hle]

end LangServer.Text
