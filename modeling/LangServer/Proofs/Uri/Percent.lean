import LangServer.Uri.Percent

/-!
# Percent encoding loses nothing

`quoteChars` writes the bytes of a text as escapes, and `unquote` reads escapes and then the bytes.
Both halves are undone separately.

* `decode_encode`: the bytes of a text are read as that text. A character has between one and four
  bytes, and the decoder is followed through each of these cases (`run_encodeCode`).
* `Spells t s` says that `t` is an encoding of `s`, not necessarily the one that `quoteChars` gives:
  some characters may be left as they are. Encodings can be put together, and `unquote` undoes them
  all (`Spells.unquote_eq`).

So `unquote` undoes `quoteChars` (`unquote_quoteChars`), whatever the characters are.
-/

namespace LangServer

/-! ## UTF-8 -/

namespace Text

theorem toNat_lt_or (c : Char) : c.toNat < 0xD800 ∨ 0xDFFF < c.toNat ∧ c.toNat < 0x110000 :=
  c.valid

namespace Decoder

theorem run_cons (d : Decoder) (b : Nat) (rest : List Nat) :
    d.run (b :: rest) = (d.next b).2 ++ (d.next b).1.run rest := by
  cases d <;> rfl

theorem run_start_of_lt {b : Nat} (h : b < 0x80) (rest : List Nat) :
    start.run (b :: rest) = Char.ofNat b :: start.run rest := by
  rw [run_cons, next, begin, if_pos h]
  rfl

theorem run_start_of_opening? {b code low high owed : Nat}
    (h : opening? b = some (code, low, high, owed)) (rest : List Nat) :
    start.run (b :: rest) = (inside code low high owed).run rest := by
  have hb : ¬ b < 0x80 := by
    intro hlt
    rw [opening?] at h
    repeat rw [if_neg (by omega)] at h
    cases h
  rw [run_cons, next, begin, if_neg hb, h]
  rfl

/-- The last byte that is owed completes the character. -/
theorem run_inside_one {code low high b : Nat} (hlow : low ≤ b) (hhigh : b ≤ high)
    (rest : List Nat) :
    (inside code low high 1).run (b :: rest) =
      Char.ofNat (code * 0x40 + (b - 0x80)) :: start.run rest := by
  rw [run_cons, next, if_pos ⟨hlow, hhigh⟩]
  rfl

theorem run_inside_succ {code low high owed b : Nat} (hlow : low ≤ b) (hhigh : b ≤ high)
    (rest : List Nat) :
    (inside code low high (owed + 2)).run (b :: rest) =
      (inside (code * 0x40 + (b - 0x80)) 0x80 0xBF (owed + 1)).run rest := by
  rw [run_cons, next, if_pos ⟨hlow, hhigh⟩]
  rfl

end Decoder

theorem opening?_two {n : Nat} (hlow : 0x80 ≤ n) (hhigh : n < 0x800) :
    opening? (0xC0 + n / 0x40) = some (n / 0x40, 0x80, 0xBF, 1) := by
  rw [opening?, if_pos (by omega)]
  simp

/-- The second byte of three is in the bounds that the first one sets: they shut out code points
that need fewer bytes, and the surrogates. -/
theorem opening?_three {n : Nat} (hlow : 0x800 ≤ n) (hhigh : n < 0x10000)
    (hn : n < 0xD800 ∨ 0xDFFF < n) :
    ∃ low high, opening? (0xE0 + n / 0x1000) = some (n / 0x1000, low, high, 2) ∧
      low ≤ 0x80 + n / 0x40 % 0x40 ∧ 0x80 + n / 0x40 % 0x40 ≤ high := by
  rw [opening?, if_neg (by omega)]
  by_cases h0 : n / 0x1000 = 0
  · exact ⟨0xA0, 0xBF, by simp [h0], by omega, by omega⟩
  · rw [if_neg (by omega)]
    by_cases hD : n / 0x1000 = 0xD
    · exact ⟨0x80, 0x9F, by simp [hD], by omega, by omega⟩
    · rw [if_neg (by omega), if_pos (by omega)]
      exact ⟨0x80, 0xBF, by simp, by omega, by omega⟩

theorem opening?_four {n : Nat} (hlow : 0x10000 ≤ n) (hhigh : n < 0x110000) :
    ∃ low high, opening? (0xF0 + n / 0x40000) = some (n / 0x40000, low, high, 3) ∧
      low ≤ 0x80 + n / 0x1000 % 0x40 ∧ 0x80 + n / 0x1000 % 0x40 ≤ high := by
  rw [opening?, if_neg (by omega), if_neg (by omega), if_neg (by omega), if_neg (by omega)]
  by_cases h0 : n / 0x40000 = 0
  · exact ⟨0x90, 0xBF, by simp [h0], by omega, by omega⟩
  · rw [if_neg (by omega)]
    by_cases h4 : n / 0x40000 = 4
    · exact ⟨0x80, 0x8F, by simp [h4], by omega, by omega⟩
    · rw [if_pos (by omega)]
      exact ⟨0x80, 0xBF, by simp, by omega, by omega⟩

/-- **The bytes of a character are read as that character.** -/
theorem run_encodeCode (c : Char) (rest : List Nat) :
    Decoder.start.run (encodeCode c.toNat ++ rest) = c :: Decoder.start.run rest := by
  have hvalid := toNat_lt_or c
  rw [encodeCode]
  -- one, two, three or four bytes
  split
  · rw [List.singleton_append, Decoder.run_start_of_lt (by assumption), Char.ofNat_toNat]
  · split
    · rw [List.cons_append, List.singleton_append,
        Decoder.run_start_of_opening? (opening?_two (by omega) (by omega)),
        Decoder.run_inside_one (by omega) (by omega),
        show c.toNat / 0x40 * 0x40 + (0x80 + c.toNat % 0x40 - 0x80) = c.toNat by omega,
        Char.ofNat_toNat]
    · split
      · obtain ⟨low, high, hopening, hlow, hhigh⟩ :=
          opening?_three (n := c.toNat) (by omega) (by omega) (by omega)
        simp only [List.cons_append, List.nil_append]
        rw [Decoder.run_start_of_opening? hopening, Decoder.run_inside_succ hlow hhigh,
          Decoder.run_inside_one (by omega) (by omega),
          show (c.toNat / 0x1000 * 0x40 + (0x80 + c.toNat / 0x40 % 0x40 - 0x80)) * 0x40 +
            (0x80 + c.toNat % 0x40 - 0x80) = c.toNat by omega, Char.ofNat_toNat]
      · obtain ⟨low, high, hopening, hlow, hhigh⟩ :=
          opening?_four (n := c.toNat) (by omega) (by omega)
        simp only [List.cons_append, List.nil_append]
        rw [Decoder.run_start_of_opening? hopening, Decoder.run_inside_succ hlow hhigh,
          Decoder.run_inside_succ (by omega) (by omega),
          Decoder.run_inside_one (by omega) (by omega),
          show ((c.toNat / 0x40000 * 0x40 + (0x80 + c.toNat / 0x1000 % 0x40 - 0x80)) * 0x40 +
            (0x80 + c.toNat / 0x40 % 0x40 - 0x80)) * 0x40 + (0x80 + c.toNat % 0x40 - 0x80) =
              c.toNat by omega, Char.ofNat_toNat]

theorem decode_encode (s : List Char) : decode (encode s) = s := by
  induction s with
  | nil => rfl
  | cons c s ih =>
    rw [decode, encode] at ih ⊢
    rw [List.flatMap_cons, run_encodeCode, ih]

theorem encode_append (s t : List Char) : encode (s ++ t) = encode s ++ encode t := by
  rw [encode, encode, encode, List.flatMap_append]

theorem encode_singleton (c : Char) : encode [c] = encodeCode c.toNat := by
  rw [encode, List.flatMap_cons, List.flatMap_nil, List.append_nil]

theorem encodeCode_of_lt {n : Nat} (h : n < 0x80) : encodeCode n = [n] := by
  rw [encodeCode, if_pos h]

theorem lt_of_mem_encodeCode {c : Char} {b : Nat} (h : b ∈ encodeCode c.toNat) : b < 0x100 := by
  have hvalid := toNat_lt_or c
  rw [encodeCode] at h
  split at h
  · rw [List.mem_singleton] at h
    omega
  · split at h
    · simp only [List.mem_cons, List.not_mem_nil, or_false] at h
      omega
    · split at h
      · simp only [List.mem_cons, List.not_mem_nil, or_false] at h
        omega
      · simp only [List.mem_cons, List.not_mem_nil, or_false] at h
        omega

end Text

namespace Uri

/-! ## Escapes -/

theorem toNat_lt_of_isPlain {c : Char} (h : isPlain c = true) : c.toNat < 128 := by
  delta isPlain Char.isAlphanum Char.isAlpha Char.isUpper Char.isLower Char.isDigit at h
  simp only [Bool.or_eq_true, Bool.and_eq_true, decide_eq_true_eq, beq_iff_eq, ge_iff_le,
    UInt32.le_iff_toNat_le] at h
  rcases h with (((((((h | h) | h) | h) | h) | h) | h) | h)
  · exact Nat.lt_of_le_of_lt h.2 (by decide)
  · exact Nat.lt_of_le_of_lt h.2 (by decide)
  · exact Nat.lt_of_le_of_lt h.2 (by decide)
  all_goals
    subst h
    decide

theorem ne_percent_of_isPlain {c : Char} (h : isPlain c = true) : c ≠ '%' := by
  rintro rfl
  cases h

theorem hexValue?_hexDigit : ∀ n, n < 16 → hexValue? (hexDigit n) = some n := by decide

theorem isPlain_hexDigit : ∀ n, n < 16 → isPlain (hexDigit n) = true ∧ hexDigit n ≠ '/' := by decide

theorem unescape_cons_of_ne {c : Char} (h : c ≠ '%') (rest : List Char) :
    unescape (c :: rest) = c.toNat :: unescape rest := by
  rw [unescape.eq_def]
  split
  · cases ‹_ = _›
  · rename_i heq
    obtain ⟨rfl, rfl⟩ := List.cons.inj heq
    split
    · exact absurd rfl h
    · rfl

theorem unescape_escape {b : Nat} (h : b < 0x100) (rest : List Char) :
    unescape (escape b ++ rest) = b :: unescape rest := by
  have hfirst := hexValue?_hexDigit (b / 16) (by omega)
  have hsecond := hexValue?_hexDigit (b % 16) (by omega)
  rw [escape, List.cons_append, List.cons_append, List.singleton_append, unescape.eq_def]
  simp only [hfirst, hsecond]
  rw [show 16 * (b / 16) + b % 16 = b by omega]

/-! ## Encodings of a text -/

/-- The text `t` is an encoding of `s`: it is ASCII, and its escapes resolve to the bytes of `s`. -/
structure Spells (t s : List Char) : Prop where
  ascii : ∀ c ∈ t, c.toNat < 128
  unescape_append : ∀ rest, unescape (t ++ rest) = Text.encode s ++ unescape rest

namespace Spells

variable {t s t' s' : List Char}

theorem nil : Spells [] [] := ⟨by simp, fun _ => rfl⟩

theorem append (h : Spells t s) (h' : Spells t' s') : Spells (t ++ t') (s ++ s') := by
  refine ⟨fun c hc => ?_, fun rest => ?_⟩
  · exact (List.mem_append.1 hc).elim (h.ascii c) (h'.ascii c)
  · rw [List.append_assoc, h.unescape_append, h'.unescape_append, Text.encode_append,
      List.append_assoc]

theorem singleton {c : Char} (hlt : c.toNat < 128) (hne : c ≠ '%') : Spells [c] [c] := by
  refine ⟨by simpa using hlt, fun rest => ?_⟩
  rw [List.singleton_append, unescape_cons_of_ne hne, Text.encode_singleton,
    Text.encodeCode_of_lt hlt, List.singleton_append]

theorem unquoteFrom_of_ascii {run : List Char} (h : ∀ c ∈ t, c.toNat < 128) :
    unquoteFrom run t = Text.decode (unescape (run.reverse ++ t)) := by
  induction t generalizing run with
  | nil => rw [unquoteFrom, List.append_nil]
  | cons c t ih =>
    rw [unquoteFrom, if_pos (h c List.mem_cons_self),
      ih fun d hd => h d (List.mem_cons_of_mem _ hd), List.reverse_cons, List.append_assoc,
      List.singleton_append]

/-- **Every encoding is undone.** -/
theorem unquote_eq (h : Spells t s) : unquote t = s := by
  have hbytes := h.unescape_append []
  rw [List.append_nil, unescape, List.append_nil] at hbytes
  rw [unquote, unquoteFrom_of_ascii h.ascii, List.reverse_nil, List.nil_append, hbytes,
    Text.decode_encode]

end Spells

/-! ## Quoting -/

/-- What stands for one character of a text that is quoted. -/
def quoteChar (c : Char) : List Char :=
  if isPlain c then [c] else (Text.encodeCode c.toNat).flatMap escape

theorem quoteChars_eq_flatMap (s : List Char) : quoteChars s = s.flatMap quoteChar := rfl

theorem quoteChars_cons (c : Char) (s : List Char) :
    quoteChars (c :: s) = quoteChar c ++ quoteChars s := by
  rw [quoteChars_eq_flatMap, List.flatMap_cons]
  rfl

theorem quoteChars_append (s t : List Char) :
    quoteChars (s ++ t) = quoteChars s ++ quoteChars t := by
  rw [quoteChars_eq_flatMap, List.flatMap_append]
  rfl

theorem quoteChars_of_isPlain {s : List Char} (h : ∀ c ∈ s, isPlain c = true) :
    quoteChars s = s := by
  induction s with
  | nil => rfl
  | cons c s ih =>
    rw [quoteChars_cons, quoteChar, if_pos (h c List.mem_cons_self),
      ih fun d hd => h d (List.mem_cons_of_mem _ hd), List.singleton_append]

theorem of_mem_quoteChar {c d : Char} (h : d ∈ quoteChar c) :
    (isPlain d = true ∨ d = '%') ∧ (d = '/' → c = '/') := by
  rw [quoteChar] at h
  split at h
  · rename_i hplain
    rw [List.mem_singleton] at h
    subst h
    exact ⟨.inl hplain, id⟩
  · obtain ⟨b, hb, hd⟩ := List.mem_flatMap.1 h
    have hlt := Text.lt_of_mem_encodeCode hb
    obtain ⟨hfirst, hfirst'⟩ := isPlain_hexDigit (b / 16) (by omega)
    obtain ⟨hsecond, hsecond'⟩ := isPlain_hexDigit (b % 16) (by omega)
    simp only [escape, List.mem_cons, List.not_mem_nil, or_false] at hd
    rcases hd with rfl | rfl | rfl
    · exact ⟨.inr rfl, fun hslash => by cases hslash⟩
    · exact ⟨.inl hfirst, fun hslash => absurd hslash hfirst'⟩
    · exact ⟨.inl hsecond, fun hslash => absurd hslash hsecond'⟩

theorem of_mem_quoteChars {s : List Char} {d : Char} (h : d ∈ quoteChars s) :
    (isPlain d = true ∨ d = '%') ∧ (d = '/' → '/' ∈ s) := by
  obtain ⟨c, hc, hd⟩ := List.mem_flatMap.1 h
  obtain ⟨hchar, hslash⟩ := of_mem_quoteChar hd
  exact ⟨hchar, fun heq => hslash heq ▸ hc⟩

theorem quoteChar_ne_nil (c : Char) : quoteChar c ≠ [] := by
  rw [quoteChar]
  split
  · simp
  · rw [Text.encodeCode]
    repeat' split
    all_goals simp [escape]

theorem quoteChars_eq_nil_iff {s : List Char} : quoteChars s = [] ↔ s = [] := by
  cases s with
  | nil => simp [quoteChars]
  | cons c s => simp [quoteChars_cons, quoteChar_ne_nil]

theorem spells_quoteChar (c : Char) : Spells (quoteChar c) [c] := by
  rw [quoteChar]
  split
  · rename_i hplain
    exact .singleton (toNat_lt_of_isPlain hplain) (ne_percent_of_isPlain hplain)
  · rename_i hplain
    have hescapes : ∀ bytes : List Nat, (∀ b ∈ bytes, b < 0x100) → ∀ rest,
        unescape (bytes.flatMap escape ++ rest) = bytes ++ unescape rest := by
      intro bytes
      induction bytes with
      | nil => exact fun _ _ => rfl
      | cons b bytes ih =>
        intro hlt rest
        rw [List.flatMap_cons, List.append_assoc, unescape_escape (hlt b List.mem_cons_self),
          ih fun d hd => hlt d (List.mem_cons_of_mem _ hd), List.cons_append]
    refine ⟨fun d hd => ?_, fun rest => ?_⟩
    · have hmem : d ∈ quoteChar c := by
        rw [quoteChar, if_neg hplain]
        exact hd
      rcases (of_mem_quoteChar hmem).1 with h | rfl
      · exact toNat_lt_of_isPlain h
      · decide
    · rw [hescapes _ fun b hb => Text.lt_of_mem_encodeCode hb, Text.encode_singleton]

theorem spells_quoteChars (s : List Char) : Spells (quoteChars s) s := by
  induction s with
  | nil => exact .nil
  | cons c s ih =>
    rw [quoteChars_cons]
    exact (spells_quoteChar c).append ih

/-- **Quoting loses nothing**, whatever the text holds. -/
theorem unquote_quoteChars (s : List Char) : unquote (quoteChars s) = s :=
  (spells_quoteChars s).unquote_eq

end Uri
end LangServer
