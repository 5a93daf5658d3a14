import LangServer.Proofs.Action
import LangServer.Proofs.Uri.Percent

/-!
# Paths survive the way through a URI

The URI of a path is taken apart again where it was put together, although the path and the host may
hold any of the characters that divide a URI.  The reason is that both are quoted, so that none of
these characters is left (`IsUriChar`), and what marks the parts is only what was put in
(`split_file`).

From this follows that decoded parts come back from their URI (`parse_fileUri`), and that a path of
characters does: with slashes every path that begins with one slash or names a host, and with
backslashes every path that begins with a drive or names a host, up to the case of the drive. A path
with a lone surrogate has no URI (`toPath_ofPath`).
-/

namespace LangServer

namespace Text

/-! ## Characters and code points -/

section

variable {p : List Point} {s : List Char} {position : Nat}

theorem characters_points (s : List Char) (position : Nat) :
    characters position (points s) = .ok s := by
  induction s generalizing position with
  | nil => rfl
  | cons c s ih =>
    rw [points_cons, characters, ih]
    rfl

theorem eq_points_of_characters (h : characters position p = .ok s) : p = points s := by
  induction p generalizing s position with
  | nil =>
    obtain rfl := Except.ok.inj h
    rfl
  | cons x p ih =>
    cases x with
    | lone n => cases h
    | char c =>
      obtain ⟨t, hrest, h⟩ := exists_of_bind_eq_ok h
      obtain rfl := Except.ok.inj h
      rw [ih hrest]
      rfl

theorem label_of_characters {f : Fault} (h : characters position p = .error f) :
    f.label = "UnicodeEncodeError" := by
  induction p generalizing position with
  | nil => cases h
  | cons x p ih =>
    cases x with
    | lone n =>
      obtain rfl := Except.error.inj h
      rfl
    | char c =>
      rcases of_bind_eq_error h with h | ⟨t, -, h⟩
      · exact ih h
      · cases h

end

/-! ## Cutting at a mark -/

variable {α : Type} [DecidableEq α] {sep : α} {s : List α}

theorem cutFirst?_append (h : sep ∉ s) (rest : List α) :
    cutFirst? sep (s ++ sep :: rest) = some (s, rest) := by
  induction s with
  | nil => rw [List.nil_append, cutFirst?, if_pos rfl]
  | cons c s ih =>
    rw [List.mem_cons, not_or] at h
    rw [List.cons_append, cutFirst?, if_neg (Ne.symm h.1), ih h.2]
    rfl

theorem cutFirst?_eq_none (h : sep ∉ s) : cutFirst? sep s = none := by
  induction s with
  | nil => rfl
  | cons c s ih =>
    rw [List.mem_cons, not_or] at h
    rw [cutFirst?, if_neg (Ne.symm h.1), ih h.2]
    rfl

theorem of_cutFirst?_eq_some {first rest : List α} (h : cutFirst? sep s = some (first, rest)) :
    s = first ++ sep :: rest := by
  induction s generalizing first with
  | nil => cases h
  | cons c s ih =>
    rw [cutFirst?] at h
    split at h
    · rename_i hc
      obtain ⟨rfl, rfl⟩ := Prod.mk.inj (Option.some_inj.1 h)
      rw [hc, List.nil_append]
    · obtain ⟨⟨l, r⟩, hcut, heq⟩ := Option.map_eq_some_iff.1 h
      obtain ⟨rfl, rfl⟩ := Prod.mk.inj heq
      rw [ih hcut, List.cons_append]

omit [DecidableEq α] in
theorem suffix_of_suffix_append_cons {name rest : List α} (hsep : sep ∉ name)
    (h : name <:+ s ++ sep :: rest) : name <:+ rest := by
  rcases List.suffix_or_suffix_of_suffix h (List.suffix_append s (sep :: rest)) with h | h
  · rcases List.suffix_cons_iff.1 h with rfl | h
    · exact absurd List.mem_cons_self hsep
    · exact h
  · exact absurd (h.subset List.mem_cons_self) hsep

theorem suffix_of_points {name s : List Char} (h : points name <:+ points s) : name <:+ s := by
  obtain ⟨dir, heq⟩ := h
  obtain ⟨front, back, rfl, -, hback⟩ := List.map_eq_append_iff.1 heq.symm
  rw [← points_injective hback]
  exact List.suffix_append _ _

end Text

namespace Uri

open Text (Point points points_cons points_append)

/-! ## Taking a file's URI apart -/

/-- The characters that the host and the path of a URI are written with: those of a quoted text, and
the colon of a drive. -/
def IsUriChar (c : Char) : Prop := isPlain c = true ∨ c = '%' ∨ c = ':'

instance (c : Char) : Decidable (IsUriChar c) :=
  inferInstanceAs (Decidable (isPlain c = true ∨ c = '%' ∨ c = ':'))

theorem IsUriChar.ordinary {c : Char} (h : IsUriChar c) :
    32 < c.toNat ∧ c.toNat < 128 ∧ c ∉ ['\t', '\r', '\n', '?', '#', '[', ']'] := by
  have hlt : c.toNat < 128 := by
    rcases h with h | rfl | rfl
    · exact toNat_lt_of_isPlain h
    · decide
    · decide
  have hall : ∀ n, n < 128 → IsUriChar (Char.ofNat n) →
      32 < n ∧ Char.ofNat n ∉ ['\t', '\r', '\n', '?', '#', '[', ']'] := by decide
  have hc := hall c.toNat hlt
  rw [Char.ofNat_toNat] at hc
  exact ⟨(hc h).1, hlt, (hc h).2⟩

theorem IsUriChar.ne {c d : Char} (h : IsUriChar c)
    (hd : d ∈ ['\t', '\r', '\n', '?', '#', '[', ']']) : c ≠ d :=
  fun heq => h.ordinary.2.2 (heq ▸ hd)

theorem isUriChar_of_mem_quoteChars {s : List Char} {c : Char} (h : c ∈ quoteChars s) :
    IsUriChar c :=
  (of_mem_quoteChars h).1.imp id Or.inl

theorem clean_of_isUriChar {s : List Char} (h : ∀ c ∈ s, IsUriChar c) : clean s = s := by
  have hdrop : s.dropWhile (fun c => decide (c.toNat ≤ 32)) = s := by
    cases s with
    | nil => rfl
    | cons c s =>
      have hc := (h c List.mem_cons_self).ordinary.1
      exact List.dropWhile_cons_of_neg (by simpa using hc)
  rw [clean, hdrop, List.filter_eq_self]
  intro c hc
  simp [(h c hc).ne (d := '\t') (by simp), (h c hc).ne (d := '\r') (by simp),
    (h c hc).ne (d := '\n') (by simp)]

theorem cutScheme_file (rest : List Char) :
    cutScheme ("file".toList ++ ':' :: rest) = ("file".toList, rest) := by
  rw [cutScheme, Text.cutFirst?_append (by decide)]
  rfl

theorem cutAt_of_not_mem {mark : Char} {s : List Char} (h : mark ∉ s) : cutAt mark s = (s, []) := by
  rw [cutAt, Text.cutFirst?_eq_none h]
  rfl

theorem cutAuthority_append {host path : List Char} (hhost : ∀ c ∈ host, IsUriChar c ∧ c ≠ '/') :
    cutAuthority (host ++ '/' :: path) = (host, '/' :: path) := by
  have htake : (host ++ '/' :: path).takeWhile (fun c => c != '/' && c != '?' && c != '#') =
      host := by
    rw [List.takeWhile_append_of_pos, List.takeWhile_cons_of_neg (by simp), List.append_nil]
    intro c hc
    obtain ⟨hchar, hslash⟩ := hhost c hc
    simp [hslash, hchar.ne (d := '?') (by simp), hchar.ne (d := '#') (by simp)]
  rw [cutAuthority, htake, List.drop_left]

theorem checkBrackets_of_isUriChar {host : List Char} (h : ∀ c ∈ host, IsUriChar c) :
    checkBrackets host = .ok () := by
  have hleft : '[' ∉ host := fun hmem => (h _ hmem).ne (by simp) rfl
  have hright : ']' ∉ host := fun hmem => (h _ hmem).ne (by simp) rfl
  rw [checkBrackets, if_neg (by simp [hleft, hright]), if_neg (by simpa using hleft)]

theorem checkAuthority_of_isUriChar {host : List Char} (h : ∀ c ∈ host, IsUriChar c) :
    checkAuthority host = .ok () := by
  have hnone : host.any hidesDelimiter = false := by
    rw [List.any_eq_false]
    intro c hc
    have hlt := (h c hc).ordinary.2.1
    rw [hidesDelimiter, List.contains_iff_mem]
    intro hmem
    have hbig : ∀ n ∈ ([0x2047, 0x2048, 0x2049, 0x2100, 0x2101, 0x2105, 0x2106, 0x2A74, 0xFE13,
        0xFE16, 0xFE55, 0xFE56, 0xFE5F, 0xFE6B, 0xFF03, 0xFF0F, 0xFF1A, 0xFF1F, 0xFF20] : List Nat),
        128 ≤ n := by decide
    exact absurd hlt (Nat.not_lt.2 (hbig _ hmem))
  rw [checkAuthority, if_neg (by simp [hnone])]

/-- **A file's URI comes apart where it was put together.** -/
theorem split_file {host path : List Char} (hhost : ∀ c ∈ host, IsUriChar c ∧ c ≠ '/')
    (hpath : ∀ c ∈ path, IsUriChar c) :
    split ("file".toList ++ ':' :: '/' :: '/' :: (host ++ '/' :: path)) =
      .ok { scheme := "file".toList, authority := host, path := '/' :: path, params := [],
            query := [], fragment := [] } := by
  have hslash : IsUriChar '/' := Or.inl rfl
  have hpath' : ∀ c ∈ '/' :: path, IsUriChar c := List.forall_mem_cons.2 ⟨hslash, hpath⟩
  have hbody : ∀ c ∈ host ++ '/' :: path, IsUriChar c := by
    intro c hc
    exact (List.mem_append.1 hc).elim (fun hc => (hhost c hc).1) (hpath' c)
  have hall : ∀ c ∈ "file".toList ++ ':' :: '/' :: '/' :: (host ++ '/' :: path), IsUriChar c := by
    have hscheme : ("file".toList ++ [':', '/', '/']).all (fun c => decide (IsUriChar c)) =
        true := by
      decide
    intro c hc
    rw [show "file".toList ++ ':' :: '/' :: '/' :: (host ++ '/' :: path) =
      ("file".toList ++ [':', '/', '/']) ++ (host ++ '/' :: path) by simp] at hc
    rcases List.mem_append.1 hc with hc | hc
    · exact of_decide_eq_true (List.all_eq_true.1 hscheme c hc)
    · exact hbody c hc
  have hquery : '?' ∉ '/' :: path := fun hmem => (hpath' _ hmem).ne (by simp) rfl
  have hfragment : '#' ∉ '/' :: path := fun hmem => (hpath' _ hmem).ne (by simp) rfl
  simp only [split, clean_of_isUriChar hall, cutScheme_file, cutAuthority_append hhost,
    checkBrackets_of_isUriChar fun c hc => (hhost c hc).1, bind, Except.bind, pure, Except.pure,
    cutAt_of_not_mem hfragment, cutAt_of_not_mem hquery,
    checkAuthority_of_isUriChar fun c hc => (hhost c hc).1]
  rfl

/-! ## Quoting code points -/

theorem quote_points (s : List Char) : quote (points s) = .ok (quoteChars s) := by
  rw [quote, Text.characters_points, ok_bind]
  rfl

theorem exists_of_quote {p : List Point} {t : List Char} (h : quote p = .ok t) :
    ∃ s, p = points s ∧ t = quoteChars s := by
  obtain ⟨s, hs, heq⟩ := exists_of_bind_eq_ok h
  exact ⟨s, Text.eq_points_of_characters hs, (Except.ok.inj heq).symm⟩

theorem label_of_quote {p : List Point} {f : Fault} (h : quote p = .error f) :
    f.label = "UnicodeEncodeError" := by
  rcases of_bind_eq_error h with h | ⟨s, -, h⟩
  · exact Text.label_of_characters h
  · cases h

/-! ## Drives -/

section

variable {p rest : List Point} {path : List Char} {letter : Char}

theorem cutDrive?_cons (h : letter.isAlpha = true) :
    cutDrive? (.char '/' :: .char letter :: .char ':' :: rest) = some (letter, rest) := by
  rw [cutDrive?, if_pos h]

theorem of_cutDrive?_eq_some (h : cutDrive? p = some (letter, rest)) :
    p = .char '/' :: .char letter :: .char ':' :: rest ∧ letter.isAlpha = true := by
  rw [cutDrive?.eq_def] at h
  split at h
  · split at h
    · rename_i hletter
      obtain ⟨rfl, rfl⟩ := Prod.mk.inj (Option.some_inj.1 h)
      exact ⟨rfl, hletter⟩
    · cases h
  · cases h

theorem hasDrive_cons {rest : List Char} (h : letter.isAlpha = true) :
    hasDrive ('/' :: letter :: ':' :: rest) = true := by
  rw [hasDrive, points_cons, points_cons, points_cons, cutDrive?_cons h]
  rfl

theorem cutDrive?_eq_none (h : hasDrive path = false) : cutDrive? (points path) = none := by
  rwa [hasDrive, Option.isSome_eq_false_iff, Option.isNone_iff_eq_none] at h

theorem exists_of_hasDrive (h : hasDrive path = true) :
    ∃ letter rest, path = '/' :: letter :: ':' :: rest ∧ letter.isAlpha = true := by
  obtain ⟨⟨letter, rest⟩, hcut⟩ := Option.isSome_iff_exists.1 h
  obtain ⟨heq, hletter⟩ := of_cutDrive?_eq_some hcut
  obtain ⟨_, _, rfl, hslash, heq⟩ := List.map_eq_cons_iff.1 heq
  obtain ⟨_, _, rfl, hchar, heq⟩ := List.map_eq_cons_iff.1 heq
  obtain ⟨_, more, rfl, hcolon, -⟩ := List.map_eq_cons_iff.1 heq
  cases hslash
  cases hchar
  cases hcolon
  exact ⟨letter, more, rfl, hletter⟩

end

/-! ## Parts of a file's URI -/

/-- The decoded parts of a file's URI. -/
def fileParts (host path : List Char) : Parts Char :=
  { scheme := "file".toList, authority := host, path, params := [], query := [], fragment := [] }

/-- The path as it is written in a URI. -/
def writtenPath (path : List Char) : List Char :=
  if hasDrive path then path.take 3 ++ quoteChars (path.drop 3) else quoteChars path

theorem quotePath_points (path : List Char) : quotePath (points path) = .ok (writtenPath path) := by
  rw [writtenPath]
  split
  · rename_i hdrive
    obtain ⟨letter, rest, rfl, hletter⟩ := exists_of_hasDrive hdrive
    have hcut : cutDrive? (points ('/' :: letter :: ':' :: rest)) = some (letter, points rest) :=
      cutDrive?_cons hletter
    rw [quotePath, hcut]
    show (quote (points rest) >>= fun t => pure ('/' :: letter :: ':' :: t)) = _
    rw [quote_points]
    rfl
  · rename_i hdrive
    rw [quotePath, cutDrive?_eq_none (Bool.not_eq_true _ ▸ hdrive)]
    exact quote_points path

theorem exists_of_quotePath {p : List Point} {t : List Char} (h : quotePath p = .ok t) :
    ∃ s, p = points s ∧ t = writtenPath s := by
  have hpoints : ∃ s, p = points s := by
    rw [quotePath] at h
    split at h
    · rename_i letter rest hcut
      obtain ⟨u, hu, -⟩ := exists_of_bind_eq_ok h
      obtain ⟨s, rfl, -⟩ := exists_of_quote hu
      exact ⟨'/' :: letter :: ':' :: s, (of_cutDrive?_eq_some hcut).1⟩
    · obtain ⟨s, rfl, -⟩ := exists_of_quote h
      exact ⟨s, rfl⟩
  obtain ⟨s, rfl⟩ := hpoints
  rw [quotePath_points] at h
  exact ⟨s, rfl, (Except.ok.inj h).symm⟩

theorem label_of_quotePath {p : List Point} {f : Fault} (h : quotePath p = .error f) :
    f.label = "UnicodeEncodeError" := by
  rw [quotePath] at h
  split at h
  · rcases of_bind_eq_error h with h | ⟨t, -, h⟩
    · exact label_of_quote h
    · cases h
  · exact label_of_quote h

theorem isPlain_of_isAlpha {c : Char} (h : c.isAlpha = true) : isPlain c = true := by
  rw [isPlain, Char.isAlphanum, h]
  rfl

theorem spells_writtenPath (path : List Char) : Spells (writtenPath path) path := by
  rw [writtenPath]
  split
  · rename_i hdrive
    obtain ⟨letter, rest, rfl, hletter⟩ := exists_of_hasDrive hdrive
    have hplain := isPlain_of_isAlpha hletter
    have hdrive : Spells ['/', letter, ':'] ['/', letter, ':'] :=
      (Spells.singleton (by decide) (by decide)).append <|
        (Spells.singleton (toNat_lt_of_isPlain hplain) (ne_percent_of_isPlain hplain)).append <|
          Spells.singleton (by decide) (by decide)
    exact hdrive.append (spells_quoteChars rest)
  · exact spells_quoteChars path

theorem isUriChar_of_mem_writtenPath {path : List Char} {c : Char} (h : c ∈ writtenPath path) :
    IsUriChar c := by
  rw [writtenPath] at h
  split at h
  · rename_i hdrive
    obtain ⟨letter, rest, rfl, hletter⟩ := exists_of_hasDrive hdrive
    simp only [List.take_succ_cons, List.take_zero, List.drop_succ_cons, List.drop_zero,
      List.mem_append, List.mem_cons, List.not_mem_nil, or_false] at h
    rcases h with (rfl | rfl | rfl) | h
    · exact .inl rfl
    · exact .inl (isPlain_of_isAlpha hletter)
    · exact .inr (Or.inr rfl)
    · exact isUriChar_of_mem_quoteChars h
  · exact isUriChar_of_mem_quoteChars h

theorem writtenPath_cons (path : List Char) :
    ∃ t, writtenPath ('/' :: path) = '/' :: t ∧ (t.head? = some '/' → path.head? = some '/') := by
  rw [writtenPath]
  split
  · rename_i hdrive
    obtain ⟨letter, rest, heq, -⟩ := exists_of_hasDrive hdrive
    obtain ⟨-, rfl⟩ := List.cons.inj heq
    exact ⟨letter :: ':' :: quoteChars rest, rfl, fun h => by simpa using h⟩
  · refine ⟨quoteChars path, quoteChars_cons '/' path, fun h => ?_⟩
    cases path with
    | nil => cases h
    | cons c path =>
      rw [quoteChars_cons] at h
      cases hquote : quoteChar c with
      | nil => exact absurd hquote (quoteChar_ne_nil c)
      | cons d t =>
        have hd : d ∈ quoteChar c := by
          rw [hquote]
          exact List.mem_cons_self
        rw [hquote, List.cons_append, List.head?_cons, Option.some_inj] at h
        rw [List.head?_cons, (of_mem_quoteChar hd).2 h]

/-- The URI of a file, from the host and the path in characters. -/
def fileUri (host path : List Char) : List Char :=
  unsplit (fileParts (quoteChars host) (writtenPath path))

theorem build_points (host path : List Char) :
    build (fileParts host path).points = .ok (fileUri host path) := by
  have hnil : quote [] = .ok [] := quote_points []
  simp only [build, Parts.points, fileParts, quotePath_points, quote_points, ok_bind]
  rfl

theorem unsplit_file {host path : List Char} (h : host ≠ [] ∨ path.head? ≠ some '/') :
    unsplit (fileParts host ('/' :: path)) =
      "file".toList ++ ':' :: '/' :: '/' :: (host ++ '/' :: path) := by
  have hauthority : (!host.isEmpty || (!("file".toList).isEmpty &&
      withAuthority.contains (String.ofList "file".toList) &&
        !(('/' :: path).take 2 == ['/', '/']))) = true := by
    rcases h with h | h
    · simp [h]
    · cases path with
      | nil => simp [withAuthority]
      | cons c path =>
        have hc : c ≠ '/' := fun heq => h (congrArg some heq)
        simp [withAuthority, hc]
  simp only [unsplit, fileParts, List.isEmpty_nil, if_true, hauthority]
  rfl

/-- **The parts of a file's URI are read back from it.** -/
theorem parse_fileUri {host path : List Char} (hhost : '/' ∉ host)
    (h : host ≠ [] ∨ path.head? ≠ some '/') :
    parse (fileUri host ('/' :: path)) = .ok (fileParts host ('/' :: path)) := by
  obtain ⟨t, ht, hhead⟩ := writtenPath_cons path
  have huri : fileUri host ('/' :: path) =
      "file".toList ++ ':' :: '/' :: '/' :: (quoteChars host ++ '/' :: t) := by
    rw [← unsplit_file (h.imp (mt quoteChars_eq_nil_iff.1) (mt hhead)), ← ht]
    rfl
  have hhost' : ∀ c ∈ quoteChars host, IsUriChar c ∧ c ≠ '/' := fun c hc =>
    ⟨isUriChar_of_mem_quoteChars hc, fun hslash => hhost ((of_mem_quoteChars hc).2 hslash)⟩
  have ht' : ∀ c ∈ t, IsUriChar c := by
    intro c hc
    have hmem : c ∈ writtenPath ('/' :: path) := ht ▸ List.mem_cons_of_mem _ hc
    exact isUriChar_of_mem_writtenPath hmem
  have hpath : unquote ('/' :: t) = '/' :: path :=
    ht ▸ (spells_writtenPath ('/' :: path)).unquote_eq
  rw [huri, parse, split_file hhost' ht']
  simp only [bind, Except.bind, pure, Except.pure, unquote_quoteChars, hpath]
  rfl

/-! ## From URIs to paths -/

/-- Every backslash as a slash. -/
def withSlashes (p : List Char) : List Char := p.map fun c => if c = '\\' then '/' else c

/-- Every slash as a backslash. -/
def withBackslashes (p : List Char) : List Char := p.map fun c => if c = '/' then '\\' else c

/-- A path with the separator of the machine. -/
def written (backslashes : Bool) (p : List Char) : List Char :=
  if backslashes then withBackslashes p else p

variable {backslashes : Bool} {uri host path rest : List Char} {letter : Char}

theorem toPath_of_host (hparse : parse uri = .ok (fileParts host ('/' :: path)))
    (hhost : host ≠ []) :
    toPath backslashes uri = .ok (written backslashes ('/' :: '/' :: (host ++ '/' :: path))) := by
  rw [toPath, hparse]
  cases host with
  | nil => exact absurd rfl hhost
  | cons c host => rfl

theorem toPath_of_drive (hparse : parse uri = .ok (fileParts [] ('/' :: letter :: ':' :: rest)))
    (hletter : letter.isAlpha = true) :
    toPath backslashes uri = .ok (written backslashes (letter.toLower :: ':' :: rest)) := by
  have hdrive : hasDrive ('/' :: letter :: ':' :: rest) = true := hasDrive_cons hletter
  rw [toPath, hparse]
  simp only [bind, Except.bind, pure, Except.pure, fileParts, hdrive]
  rfl

theorem toPath_of_rooted (hparse : parse uri = .ok (fileParts [] path))
    (hdrive : hasDrive path = false) : toPath backslashes uri = .ok (written backslashes path) := by
  rw [toPath, hparse]
  simp only [bind, Except.bind, pure, Except.pure, fileParts, hdrive]
  rfl

/-! ## From paths to URIs -/

theorem ofPath_of_normalizePath {p : List Point}
    (h : normalizePath backslashes p = .ok (points path, points host)) :
    ofPath backslashes p = .ok (fileUri host path) := by
  rw [ofPath, h]
  exact build_points host path

theorem withSlashes_points (p : List Char) :
    (points p).map (fun c => if c = .char '\\' then .char '/' else c) = points (withSlashes p) := by
  rw [points, points, withSlashes, List.map_map, List.map_map]
  refine List.map_congr_left fun c _ => ?_
  by_cases hc : c = '\\'
  · simp [hc]
  · simp [hc]

theorem normalizePath_true (p : List Char) :
    normalizePath true (points p) = normalizePath false (points (withSlashes p)) := by
  rw [← withSlashes_points]
  rfl

theorem normalizePath_of_rooted (hhead : path.head? ≠ some '/')
    (hdrive : hasDrive ('/' :: path) = false) :
    normalizePath false (points ('/' :: path)) = .ok (points ('/' :: path), points []) := by
  have hcut := cutDrive?_eq_none hdrive
  cases path with
  | nil => rfl
  | cons c path =>
    have hc : c ≠ '/' := fun heq => hhead (congrArg some heq)
    rw [points_cons, points_cons] at hcut ⊢
    rw [normalizePath]
    simp [hc, rootedPath, hcut, bind, Except.bind, pure, Except.pure]

theorem normalizePath_of_host (hhost : '/' ∉ host) (hdrive : hasDrive ('/' :: path) = false) :
    normalizePath false (points ('/' :: '/' :: (host ++ '/' :: path))) =
      .ok (points ('/' :: path), points host) := by
  have hcut := cutDrive?_eq_none hdrive
  have hmem : Point.char '/' ∉ points host := by
    intro hmem
    obtain ⟨c, hc, heq⟩ := List.mem_map.1 hmem
    exact hhost (Point.char.inj heq ▸ hc)
  rw [points_cons] at hcut
  rw [points_cons, points_cons, points_cons, points_append, points_cons, normalizePath]
  simp [Text.cutFirst?_append hmem, rootedPath, hcut, bind, Except.bind, pure, Except.pure]

theorem normalizePath_of_drive (hletter : letter.isAlpha = true) :
    normalizePath false (points (letter :: ':' :: path)) =
      .ok (points ('/' :: letter.toLower :: ':' :: path), points []) := by
  have hslash : letter ≠ '/' := by
    rintro rfl
    cases hletter
  have hcut : cutDrive? (.char '/' :: .char letter :: .char ':' :: points path) = _ :=
    cutDrive?_cons hletter
  rw [points_cons, points_cons, normalizePath]
  simp [hslash, rootedPath, hcut, bind, Except.bind, pure, Except.pure]

/-! ## The end of a URI -/

/-- A text that a URI has as it is: nothing in it is quoted, and nothing divides a path. -/
def IsPlainName (name : List Char) : Prop :=
  ∀ c ∈ name, isPlain c = true ∧ c ≠ '/'

instance (name : List Char) : Decidable (IsPlainName name) := List.decidableBAll _ name

variable {name p : List Char} {q dir : List Point}

theorem IsPlainName.not_mem {c : Char} (h : IsPlainName name) (hc : c ∈ ['/', '\\', ':']) :
    c ∉ name := by
  intro hmem
  obtain ⟨hplain, hslash⟩ := h c hmem
  simp only [List.mem_cons, List.not_mem_nil, or_false] at hc
  rcases hc with rfl | rfl | rfl
  · exact hslash rfl
  · cases hplain
  · cases hplain

theorem IsPlainName.not_mem_points {c : Char} (h : IsPlainName name) (hc : c ∈ ['/', '\\', ':']) :
    Point.char c ∉ points name := by
  intro hmem
  obtain ⟨d, hd, heq⟩ := List.mem_map.1 hmem
  exact h.not_mem hc (Point.char.inj heq ▸ hd)

theorem IsPlainName.suffix_withSlashes (h : IsPlainName name) (hp : name <:+ p) :
    name <:+ withSlashes p := by
  obtain ⟨dir, rfl⟩ := hp
  have hname : withSlashes name = name := by
    refine (List.map_congr_left fun c hc => if_neg ?_).trans (List.map_id name)
    rintro rfl
    exact h.not_mem (by simp) hc
  rw [withSlashes, List.map_append, ← withSlashes, ← withSlashes, hname]
  exact List.suffix_append _ _

/-- What changes at the beginning of a path is at most its drive. -/
theorem exists_lead_of_rootedPath (s : List Point) :
    ∃ lead tail, s = lead ++ tail ∧ tail <:+ rootedPath s ∧ (∀ n, .lone n ∉ lead) ∧
      (lead = [] ∨ ∃ front, lead = front ++ [.char ':']) := by
  unfold rootedPath
  dsimp only
  split
  · rename_i letter rest hcut
    have heq := (of_cutDrive?_eq_some hcut).1
    have hrest := List.suffix_append [Point.char '/', .char letter.toLower, .char ':'] rest
    split at heq
    · exact ⟨[.char '/', .char letter, .char ':'], rest, heq, hrest, by simp, .inr ⟨[_, _], rfl⟩⟩
    · obtain ⟨-, rfl⟩ := List.cons.inj heq
      exact ⟨[.char letter, .char ':'], rest, rfl, hrest, by simp, .inr ⟨[_], rfl⟩⟩
  · refine ⟨[], s, rfl, ?_, by simp, .inl rfl⟩
    split
    · exact List.suffix_rfl
    · exact List.suffix_cons _ _

theorem IsPlainName.suffix_rootedPath (h : IsPlainName name) (hq : points name <:+ q) :
    points name <:+ rootedPath q := by
  obtain ⟨lead, tail, rfl, htail, -, rfl | ⟨front, rfl⟩⟩ := exists_lead_of_rootedPath q
  · exact hq.trans htail
  · rw [List.append_assoc] at hq
    have hname := Text.suffix_of_suffix_append_cons (h.not_mem_points (c := ':') (by simp)) hq
    exact hname.trans htail

theorem exists_of_normalizePath {host : List Point} (h : normalizePath false q = .ok (dir, host)) :
    dir = rootedPath q ∨ ∃ more, q = .char '/' :: .char '/' :: (host ++ .char '/' :: more) ∧
      dir = rootedPath (.char '/' :: more) := by
  rw [normalizePath, if_neg Bool.false_ne_true] at h
  split at h
  · split at h
    · rename_i first more hcut
      obtain ⟨rfl, rfl⟩ := Prod.mk.inj (Except.ok.inj h)
      rw [Text.of_cutFirst?_eq_some hcut]
      exact .inr ⟨more, rfl, rfl⟩
    · cases h
  · exact .inl (Prod.mk.inj (Except.ok.inj h)).1.symm

theorem IsPlainName.suffix_of_normalizePath_false {host : List Point} (h : IsPlainName name)
    (hq : points name <:+ q) (hnorm : normalizePath false q = .ok (dir, host)) :
    points name <:+ dir := by
  rcases exists_of_normalizePath hnorm with rfl | ⟨more, rfl, rfl⟩
  · exact h.suffix_rootedPath hq
  · have hmore : points name <:+ more :=
      Text.suffix_of_suffix_append_cons (s := Point.char '/' :: .char '/' :: host)
        (h.not_mem_points (c := '/') (by simp)) hq
    exact h.suffix_rootedPath (hmore.trans (List.suffix_cons _ _))

theorem IsPlainName.suffix_of_normalizePath {host : List Point} (h : IsPlainName name)
    (hp : name <:+ p) (hnorm : normalizePath backslashes (points p) = .ok (dir, host)) :
    points name <:+ dir := by
  cases backslashes with
  | false => exact h.suffix_of_normalizePath_false (hp.map Point.char) hnorm
  | true =>
    rw [normalizePath_true] at hnorm
    exact h.suffix_of_normalizePath_false ((h.suffix_withSlashes hp).map Point.char) hnorm

theorem IsPlainName.suffix_writtenPath (h : IsPlainName name) (hpath : name <:+ path) :
    name <:+ writtenPath path := by
  have hquote : ∀ s, name <:+ s → name <:+ quoteChars s := by
    rintro s ⟨dir, rfl⟩
    rw [quoteChars_append, quoteChars_of_isPlain fun c hc => (h c hc).1]
    exact List.suffix_append _ _
  rw [writtenPath]
  split
  · rename_i hdrive
    obtain ⟨letter, rest, rfl, -⟩ := exists_of_hasDrive hdrive
    have hrest : name <:+ rest :=
      Text.suffix_of_suffix_append_cons (s := ['/', letter]) (h.not_mem (c := ':') (by simp)) hpath
    exact (hquote rest hrest).trans (List.suffix_append _ _)
  · exact hquote path hpath

theorem suffix_unsplit (host path : List Char) : path <:+ unsplit (fileParts host path) := by
  have hbody : ∀ hasAuthority : Bool, path <:+ if hasAuthority then '/' :: '/' :: (host ++
      if !path.isEmpty && path.head? != some '/' then '/' :: path else path) else path := by
    intro hasAuthority
    split
    · refine List.IsSuffix.trans ?_ (List.suffix_append ('/' :: '/' :: host) _)
      split
      · exact List.suffix_cons _ _
      · exact List.suffix_rfl
    · exact List.suffix_rfl
  exact (hbody _).trans (List.suffix_append ("file".toList ++ [':']) _)

theorem exists_of_ofPath {uri : List Char} (h : ofPath backslashes q = .ok uri) :
    ∃ path host, normalizePath backslashes q = .ok (points path, points host) ∧
      uri = fileUri host path := by
  obtain ⟨⟨dir, name⟩, hnorm, hbuild⟩ := exists_of_bind_eq_ok h
  obtain ⟨_, hpath, hrest⟩ := exists_of_bind_eq_ok hbuild
  obtain ⟨path, rfl, -⟩ := exists_of_quotePath hpath
  obtain ⟨_, -, hrest⟩ := exists_of_bind_eq_ok hrest
  obtain ⟨_, hhost, -⟩ := exists_of_bind_eq_ok hrest
  obtain ⟨host, rfl, -⟩ := exists_of_quote hhost
  rw [ofPath_of_normalizePath hnorm] at h
  exact ⟨path, host, hnorm, (Except.ok.inj h).symm⟩

/-- **The URI of a file ends in the name of the file.** -/
theorem IsPlainName.suffix_ofPath {uri : List Char} (h : IsPlainName name) (hp : name <:+ p)
    (huri : ofPath backslashes (points p) = .ok uri) : name <:+ uri := by
  obtain ⟨path, host, hnorm, rfl⟩ := exists_of_ofPath huri
  have hend := h.suffix_writtenPath (Text.suffix_of_points (h.suffix_of_normalizePath hp hnorm))
  exact hend.trans (suffix_unsplit (quoteChars host) _)

/-! ## Lone surrogates -/

section

variable {n : Fin 0x800} {host : List Point} {f : Fault}

theorem lone_mem_rootedPath (hmem : .lone n ∈ q) : .lone n ∈ rootedPath q := by
  obtain ⟨lead, tail, rfl, htail, hlead, -⟩ := exists_lead_of_rootedPath q
  exact htail.subset ((List.mem_append.1 hmem).resolve_left (hlead n))

theorem lone_mem_of_normalizePath (h : normalizePath backslashes q = .ok (dir, host))
    (hmem : .lone n ∈ q) : .lone n ∈ dir ∨ .lone n ∈ host := by
  have hfalse : ∀ {q : List Point}, normalizePath false q = .ok (dir, host) → .lone n ∈ q →
      .lone n ∈ dir ∨ .lone n ∈ host := by
    intro q h hmem
    rcases exists_of_normalizePath h with rfl | ⟨more, rfl, rfl⟩
    · exact .inl (lone_mem_rootedPath hmem)
    · have hparts : .lone n ∈ host ∨ .lone n ∈ more := by simpa using hmem
      exact hparts.symm.imp_left fun hmore => lone_mem_rootedPath (List.mem_cons_of_mem _ hmore)
  cases backslashes with
  | false => exact hfalse h hmem
  | true =>
    have hslashes : .lone n ∈ q.map fun c => if c = .char '\\' then .char '/' else c :=
      List.mem_map.2 ⟨_, hmem, if_neg (by simp)⟩
    exact hfalse h hslashes

theorem eq_of_normalizePath (h : normalizePath backslashes q = .error f) :
    f = .invalid "substring not found" := by
  rw [normalizePath] at h
  split at h
  · split at h
    · cases h
    · exact (Except.error.inj h).symm
  · cases h

theorem label_of_ofPath (h : ofPath backslashes q = .error f) :
    f.label = "UnicodeEncodeError" ∨ f = .invalid "substring not found" := by
  rcases of_bind_eq_error h with h | ⟨⟨dir, host⟩, -, h⟩
  · exact .inr (eq_of_normalizePath h)
  refine .inl ?_
  rcases of_bind_eq_error h with h | ⟨_, -, h⟩
  · exact label_of_quotePath h
  -- the other parts are quoted one after the other
  iterate 5
    rcases of_bind_eq_error h with h | ⟨_, -, h⟩
    · exact label_of_quote h
  cases h

/-- **A path with a lone surrogate has no URI.** -/
theorem exists_fault_of_lone (hmem : .lone n ∈ q) (backslashes : Bool) :
    ∃ f, ofPath backslashes q = .error f ∧
      (f.label = "UnicodeEncodeError" ∨ f = .invalid "substring not found") := by
  have hchars : ∀ s, .lone n ∉ points s := by
    intro s hs
    obtain ⟨c, -, heq⟩ := List.mem_map.1 hs
    cases heq
  cases huri : ofPath backslashes q with
  | error f => exact ⟨f, rfl, label_of_ofPath huri⟩
  | ok uri =>
    obtain ⟨path, host, hnorm, -⟩ := exists_of_ofPath huri
    exact absurd (lone_mem_of_normalizePath hnorm hmem) (not_or.2 ⟨hchars path, hchars host⟩)

end

/-! ## There and back -/

/-- The path begins with exactly one slash, and not with a drive after it. -/
def IsRooted (p : List Char) : Prop :=
  ∃ rest, p = '/' :: rest ∧ rest.head? ≠ some '/' ∧ hasDrive p = false

/-- The path begins with two slashes and the name of a host, and goes on with a slash, but not with
a drive. -/
def NamesHost (p : List Char) : Prop :=
  ∃ host rest, p = '/' :: '/' :: (host ++ '/' :: rest) ∧ host ≠ [] ∧ '/' ∉ host ∧
    hasDrive ('/' :: rest) = false

theorem withBackslashes_withSlashes (p : List Char) :
    withBackslashes (withSlashes p) = withBackslashes p := by
  rw [withBackslashes, withSlashes, List.map_map]
  refine List.map_congr_left fun c _ => ?_
  by_cases hc : c = '\\'
  · simp [hc]
  · simp [hc]

theorem toLower_of_isAlpha (h : letter.isAlpha = true) :
    letter.toLower.isAlpha = true ∧ letter.toLower.toLower = letter.toLower := by
  have hall : ∀ n, n < 128 → (Char.ofNat n).isAlpha = true →
      (Char.ofNat n).toLower.isAlpha = true ∧
        (Char.ofNat n).toLower.toLower = (Char.ofNat n).toLower := by
    decide
  have hletter := hall letter.toNat (toNat_lt_of_isPlain (isPlain_of_isAlpha h))
  rw [Char.ofNat_toNat] at hletter
  exact hletter h

theorem IsRooted.exists_uri {p : List Char} (h : IsRooted p) :
    ∃ uri, ofPath false (points p) = .ok uri ∧ toPath false uri = .ok p := by
  obtain ⟨rest, rfl, hhead, hdrive⟩ := h
  exact ⟨_, ofPath_of_normalizePath (normalizePath_of_rooted hhead hdrive),
    toPath_of_rooted (parse_fileUri (by simp) (Or.inr hhead)) hdrive⟩

theorem NamesHost.exists_uri {p : List Char} (h : NamesHost p) (backslashes : Bool) :
    ∃ uri, ofPath false (points p) = .ok uri ∧
      toPath backslashes uri = .ok (written backslashes p) := by
  obtain ⟨host, rest, rfl, hne, hhost, hdrive⟩ := h
  exact ⟨_, ofPath_of_normalizePath (normalizePath_of_host hhost hdrive),
    toPath_of_host (parse_fileUri hhost (Or.inl hne)) hne⟩

theorem exists_uri_of_drive (hletter : letter.isAlpha = true) (rest : List Char) :
    ∃ uri, ofPath false (points (letter :: ':' :: rest)) = .ok uri ∧
      toPath true uri = .ok (withBackslashes (letter.toLower :: ':' :: rest)) := by
  obtain ⟨hlower, hidem⟩ := toLower_of_isAlpha hletter
  have hhead : (letter.toLower :: ':' :: rest).head? ≠ some '/' := by
    intro h
    rw [Option.some_inj.1 h] at hlower
    cases hlower
  refine ⟨_, ofPath_of_normalizePath (normalizePath_of_drive hletter), ?_⟩
  rw [toPath_of_drive (parse_fileUri (by simp) (Or.inr hhead)) hlower, hidem]
  rfl

/-- **A path of characters survives the way through its URI**, whatever they are. With slashes that
goes for every path that begins with one slash or names a host. With backslashes it goes for every
path that begins with a drive or names a host, which comes back with backslashes only, and with the
drive in lower case. A path with a lone surrogate has no URI: the fault is that it has no UTF-8
form, or that no slash follows a host in it. -/
theorem toPath_ofPath :
    (∀ (p : List Char),
      (IsRooted p ∨ NamesHost p →
        ∃ uri, ofPath false (points p) = .ok uri ∧ toPath false uri = .ok p) ∧
      (∀ letter rest, p = letter :: ':' :: rest → letter.isAlpha = true →
        ∃ uri, ofPath true (points p) = .ok uri ∧
          toPath true uri = .ok (letter.toLower :: ':' :: withBackslashes rest)) ∧
      (NamesHost (withSlashes p) →
        ∃ uri, ofPath true (points p) = .ok uri ∧ toPath true uri = .ok (withBackslashes p))) ∧
    ∀ (p : List Point) (n : Fin 0x800), .lone n ∈ p → ∀ backslashes,
      ∃ f, ofPath backslashes p = .error f ∧
        (f.label = "UnicodeEncodeError" ∨ f = .invalid "substring not found") := by
  refine ⟨fun p => ⟨?_, ?_, fun hhost => ?_⟩, fun p n => exists_fault_of_lone⟩
  · rintro (hrooted | hhost)
    · exact hrooted.exists_uri
    · exact hhost.exists_uri false
  · rintro letter rest rfl hletter
    have hslash : letter ≠ '\\' := by
      rintro rfl
      cases hletter
    obtain ⟨uri, hof, hto⟩ := exists_uri_of_drive hletter (withSlashes rest)
    have hslashes : withSlashes (letter :: ':' :: rest) = letter :: ':' :: withSlashes rest := by
      simp [withSlashes, hslash]
    have hback : withBackslashes (letter.toLower :: ':' :: withSlashes rest) =
        letter.toLower :: ':' :: withBackslashes rest := by
      have hne : letter.toLower ≠ '/' := by
        intro h
        have hlower := (toLower_of_isAlpha hletter).1
        rw [h] at hlower
        cases hlower
      rw [← withBackslashes_withSlashes rest]
      simp [withBackslashes, hne]
    refine ⟨uri, ?_, hback ▸ hto⟩
    rwa [ofPath, normalizePath_true, hslashes]
  · obtain ⟨uri, hof, hto⟩ := hhost.exists_uri true
    refine ⟨uri, ?_, ?_⟩
    · rwa [ofPath, normalizePath_true]
    · rw [hto, written, if_pos rfl, withBackslashes_withSlashes]

/-- A path that holds the surrogate U+DCFF, which stands for a byte that is no UTF-8. -/
def undecodable : List Point := points "/w/".toList ++ .lone 0x4FF :: points ".py".toList

/-- That path begins with one slash and not with a drive, but it has no URI. -/
theorem undecodable_has_no_uri :
    (∃ rest, undecodable = .char '/' :: rest ∧ rest.head? ≠ some (.char '/')) ∧
    cutDrive? undecodable = none ∧
    ofPath false undecodable = .error (.reported "UnicodeEncodeError"
      "'utf-8' codec can't encode character '\\udcff' in position 3: surrogates not allowed") :=
  ⟨⟨_, rfl, by decide⟩, rfl, rfl⟩

/-- Delimiters, escapes, backslashes, line ends and letters of other scripts survive, in the path
and in the name of the host. A surrogate does not. -/
theorem toPath_ofPath_delimiters :
    (∃ uri, ofPath false (points "/a b%2F?#;:\\\r\n[é😀".toList) = .ok uri ∧
      toPath false uri = .ok "/a b%2F?#;:\\\r\n[é😀".toList) ∧
    (∃ uri, ofPath false (points "//u@h:1?#%[é//c:/x".toList) = .ok uri ∧
      toPath false uri = .ok "//u@h:1?#%[é//c:/x".toList) ∧
    (∃ uri, ofPath true (points "C:\\a b/c?#%:é".toList) = .ok uri ∧
      toPath true uri = .ok "c:\\a b\\c?#%:é".toList) ∧
    (∃ uri, ofPath true (points "\\/H%/a\\b?".toList) = .ok uri ∧
      toPath true uri = .ok "\\\\H%\\a\\b?".toList) ∧
    ∃ f, ofPath true undecodable = .error f ∧
      (f.label = "UnicodeEncodeError" ∨ f = .invalid "substring not found") := by
  obtain ⟨hchars, hlone⟩ := toPath_ofPath
  refine ⟨(hchars _).1 (Or.inl ⟨_, rfl, by decide, by decide⟩),
    (hchars _).1 (Or.inr ⟨"u@h:1?#%[é".toList, "/c:/x".toList, by decide, by decide,
      by decide, by decide⟩),
    (hchars "C:\\a b/c?#%:é".toList).2.1 'C' "\\a b/c?#%:é".toList (by decide) (by decide),
    (hchars _).2.2 ⟨"H%".toList, "a/b?".toList, by decide, by decide, by decide, by decide⟩,
    hlone undecodable 0x4FF (by decide) true⟩

end Uri
end LangServer
