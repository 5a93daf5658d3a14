import LangServer.Files
import Mathlib.Data.List.DropRight
import Mathlib.Logic.Function.Iterate

/-!
# The way a path describes

An absolute path describes a *way*, the names that are left when dots, double dots and empty parts
are resolved. `Path.rooted` writes such names out as a path with one slash at its beginning, and
every operation on paths is described by what it does to the way: `location_eq` and `steps_eq` read
it, `way_join_name` adds a name at its end and `dirname_rooted` takes one away.

Taking directories of any text, absolute or not, comes to rest: either `dirname` leaves a path as it
is or it makes it shorter (`dirname_eq_self_or_lt`), and where it comes to rest are the slashes that
the path begins with (`iterate_dirname_of_length_le`). On the way there it comes by the directories
that enclose the path (`encloses_iff_exists`).
-/

namespace LangServer
namespace Path

variable {p : List Char} {names : List (List Char)}

/-! ## Directories -/

theorem splitLast_fst (p : List Char) : (splitLast p).1 = p.rdropWhile (· != '/') := by
  have hp : p.rdropWhile (· != '/') ++ p.rtakeWhile (· != '/') = p :=
    List.rdropWhile_append_rtakeWhile
  have hlen := congrArg List.length hp
  rw [List.length_append] at hlen
  change p.take (p.length - (p.rtakeWhile (· != '/')).length) = _
  rw [← hlen, Nat.add_sub_cancel]
  nth_rewrite 2 [← hp]
  exact List.take_left

theorem dirname_of_notMem (h : '/' ∉ p) : dirname p = [] := by
  have hhead : p.rdropWhile (· != '/') = [] :=
    List.rdropWhile_eq_nil_iff.mpr fun c hc => bne_iff_ne.mpr fun heq => h (heq ▸ hc)
  simp [dirname, splitLast_fst, hhead]

theorem dirname_append_cons {a n : List Char} (h : '/' ∉ n) : dirname (a ++ '/' :: n) =
      if a.all (· == '/') then a ++ ['/'] else a.rdropWhile (· == '/') := by
  have hhead : (a ++ '/' :: n).rdropWhile (· != '/') = a ++ ['/'] := by
    induction n using List.reverseRecOn with
    | nil => exact List.rdropWhile_concat_neg _ _ _ (by simp)
    | append_singleton n c ih =>
      have hc : c ≠ '/' := fun hc => h (by simp [hc])
      rw [← List.cons_append, ← List.append_assoc,
        List.rdropWhile_concat_pos _ _ _ (by simpa using hc)]
      exact ih fun hmem => h (by simp [hmem])
  have hdrop : Text.dropEndWhile (· == '/') (a ++ ['/']) = a.rdropWhile (· == '/') :=
    List.rdropWhile_concat_pos _ _ _ (by simp)
  simp only [dirname, splitLast_fst, hhead, hdrop]
  simp

theorem exists_last_slash (h : '/' ∈ p) : ∃ a n, p = a ++ '/' :: n ∧ '/' ∉ n := by
  obtain ⟨n, a, hp, hn⟩ := List.eq_append_cons_of_mem (List.mem_reverse.mpr h)
  refine ⟨a.reverse, n.reverse, ?_, by simpa using hn⟩
  rw [← List.reverse_reverse p, hp]
  simp

theorem dirname_eq_self_or_lt (p : List Char) : dirname p = p ∨ (dirname p).length < p.length := by
  by_cases h : '/' ∈ p
  · obtain ⟨a, n, rfl, hn⟩ := exists_last_slash h
    rw [dirname_append_cons hn]
    split
    · cases n with
      | nil => exact .inl rfl
      | cons c n => exact .inr (by simp)
    · have := (List.rdropWhile_prefix (· == '/') (l := a)).length_le
      exact .inr (by rw [List.length_append, List.length_cons]; omega)
  · rw [dirname_of_notMem h]
    cases p with
    | nil => exact .inl rfl
    | cons c p => exact .inr (by simp)

theorem all_of_dirname_eq_self (h : dirname p = p) : p.all (· == '/') := by
  by_cases hp : '/' ∈ p
  · obtain ⟨a, n, rfl, hn⟩ := exists_last_slash hp
    rw [dirname_append_cons hn] at h
    split at h
    · next ha =>
      obtain rfl : n = [] := by simpa using h.symm
      simpa using ha
    · have hle := (List.rdropWhile_prefix (· == '/') (l := a)).length_le
      rw [h, List.length_append, List.length_cons] at hle
      omega
  · rw [dirname_of_notMem hp] at h
    rw [← h]
    rfl

/-- The slashes a path begins with: the outermost of its directories, and for a relative path the
empty one. -/
def outermost (p : List Char) : List Char := p.takeWhile (· == '/')

theorem outermost_of_notMem (h : '/' ∉ p) : outermost p = [] :=
  List.takeWhile_eq_nil_iff.mpr fun hpos => by
    simpa using fun hc : p[0] = '/' => h (hc ▸ List.getElem_mem hpos)

theorem outermost_dirname (p : List Char) : outermost (dirname p) = outermost p := by
  by_cases h : '/' ∈ p
  · obtain ⟨a, n, rfl, hn⟩ := exists_last_slash h
    rw [dirname_append_cons hn, outermost, outermost]
    split
    · next ha =>
      have ha' : ∀ c ∈ a, c = '/' := by simpa using ha
      have hn' : n.takeWhile (· == '/') = [] := outermost_of_notMem hn
      rw [List.takeWhile_append_of_pos (by simpa using ha'),
        List.takeWhile_append_of_pos (by simpa using ha')]
      simp [hn']
    · next ha =>
      obtain ⟨rest, hrest⟩ := List.rdropWhile_prefix (· == '/') (l := a)
      -- A character that is no slash stands in what is left of `a`, so nothing behind it counts.
      have hne : ((a.rdropWhile (· == '/')).takeWhile (· == '/')).length ≠
          (a.rdropWhile (· == '/')).length := by
        intro heq
        have hall := List.takeWhile_eq_self_iff.mp
          ((List.takeWhile_prefix (· == '/')).eq_of_length heq)
        refine ha (List.all_eq_true.mpr fun c hc => ?_)
        by_cases hnil : a.rdropWhile (· == '/') = []
        · exact List.rdropWhile_eq_nil_iff.mp hnil c hc
        · exact absurd (hall _ (List.getLast_mem hnil)) (List.rdropWhile_last_not _ _ hnil)
      nth_rewrite 2 [← hrest]
      rw [List.append_assoc, List.takeWhile_append, if_neg hne]
  · rw [dirname_of_notMem h, outermost_of_notMem h]
    rfl

theorem dirname_iterate_of_length_le {k : Nat} (h : p.length ≤ k) :
    dirname (dirname^[k] p) = dirname^[k] p := by
  induction k generalizing p with
  | zero =>
    obtain rfl : p = [] := List.length_eq_zero_iff.mp (by omega)
    rfl
  | succ k ih =>
    rcases dirname_eq_self_or_lt p with hp | hp
    · rw [Function.iterate_fixed hp, hp]
    · exact ih (by omega)

theorem iterate_dirname_of_length_le {k : Nat} (h : p.length ≤ k) :
    dirname^[k] p = outermost p := by
  have houter : ∀ k, outermost (dirname^[k] p) = outermost p := fun k => by
    induction k with
    | zero => rfl
    | succ k ih => rw [Function.iterate_succ_apply', outermost_dirname, ih]
  have hall := all_of_dirname_eq_self (dirname_iterate_of_length_le h)
  rw [← houter k, outermost, List.takeWhile_eq_self_iff.mpr (List.all_eq_true.mp hall)]

/-! ## Directories around a path -/

/-- A directory encloses a path: it is the outermost one, or the path goes on behind it with a
slash. Slashes at its end do not belong to a directory. -/
def Encloses (d p : List Char) : Prop :=
  d = outermost p ∨ d ≠ [] ∧ d.getLast? ≠ some '/' ∧ ∃ rest, p = d ++ '/' :: rest

theorem outermost_of_all (h : ∀ c ∈ p, c = '/') : outermost p = p :=
  List.takeWhile_eq_self_iff.mpr (by simpa using h)

section

variable {a d n q rest s t : List Char}

theorem exists_of_append_slash (hn : '/' ∉ n) (h : a ++ '/' :: n = d ++ '/' :: rest) :
    ∃ t, a = d ++ t ∧ (t = [] ∨ ∃ t', t = '/' :: t') := by
  rcases List.append_eq_append_iff.mp h with ⟨c, rfl, hc⟩ | ⟨c, rfl, hc⟩
  · cases c with
    | nil => exact ⟨[], by simp, .inl rfl⟩
    | cons x c =>
      rw [List.cons_append, List.cons.injEq] at hc
      exact absurd (hc.2 ▸ List.mem_append_right c List.mem_cons_self) hn
  · cases c with
    | nil => exact ⟨[], rfl, .inl rfl⟩
    | cons x c =>
      rw [List.cons_append, List.cons.injEq] at hc
      exact ⟨x :: c, rfl, .inr ⟨c, by rw [← hc.1]⟩⟩

theorem eq_or_exists_of_append (hlast : d.getLast? ≠ some '/')
    (hs : ∀ c ∈ s, c = '/') (h : q ++ s = d ++ t) (ht : t = [] ∨ ∃ t', t = '/' :: t') :
    d = q ∨ ∃ t', q = d ++ '/' :: t' := by
  rcases List.append_eq_append_iff.mp h with ⟨c, rfl, hc⟩ | ⟨c, rfl, hc⟩
  · cases c using List.reverseRecOn with
    | nil => exact .inl (List.append_nil q)
    | append_singleton c x =>
      have hx : x = '/' := hs x (by simp [hc])
      rw [hx, ← List.append_assoc, List.getLast?_concat] at hlast
      exact absurd rfl hlast
  · cases c with
    | nil => exact .inl (List.append_nil d).symm
    | cons x c =>
      rcases ht with rfl | ⟨t', rfl⟩
      · cases hc
      · rw [List.cons_append, List.cons.injEq] at hc
        exact .inr ⟨c, by rw [← hc.1]⟩

theorem not_all_of_getLast? (hd : d ≠ []) (hlast : d.getLast? ≠ some '/') : ¬∀ c ∈ d, c = '/' := by
  intro hall
  rw [List.getLast?_eq_getLast_of_ne_nil hd, hall _ (List.getLast_mem hd)] at hlast
  exact hlast rfl

theorem encloses_slashes_iff (ha : ∀ c ∈ a, c = '/') (hn : '/' ∉ n) :
    Encloses d (a ++ '/' :: n) ↔ d = a ++ ['/'] := by
  have hslashes : ∀ c ∈ a ++ ['/'], c = '/' := by
    rw [List.forall_mem_append]
    exact ⟨ha, by simp⟩
  rw [Encloses, ← outermost_dirname, dirname_append_cons hn, if_pos (by simpa using ha),
    outermost_of_all hslashes]
  refine or_iff_left ?_
  rintro ⟨hd, hlast, rest, hrest⟩
  obtain ⟨t, rfl, -⟩ := exists_of_append_slash hn hrest
  exact not_all_of_getLast? hd hlast fun c hc => ha c (List.mem_append_left t hc)

theorem exists_of_not_all (ha : ¬∀ c ∈ a, c = '/') :
    ∃ s, a = a.rdropWhile (· == '/') ++ s ∧ (∀ c ∈ s, c = '/') ∧ a.rdropWhile (· == '/') ≠ [] ∧
      (a.rdropWhile (· == '/')).getLast? ≠ some '/' := by
  have hne : a.rdropWhile (· == '/') ≠ [] := fun hnil =>
    ha fun c hc => beq_iff_eq.mp (List.rdropWhile_eq_nil_iff.mp hnil c hc)
  refine ⟨a.rtakeWhile (· == '/'), List.rdropWhile_append_rtakeWhile.symm, fun c hc => ?_, hne, ?_⟩
  · have hc' := List.mem_rtakeWhile_imp hc
    exact beq_iff_eq.mp hc'
  · rw [List.getLast?_eq_getLast_of_ne_nil hne, Ne, Option.some_inj]
    simpa using List.rdropWhile_last_not _ _ hne

end

/-- **The next directory around a path** is its own; the others are around that. -/
theorem encloses_iff {d p : List Char} : Encloses d p ↔ d = dirname p ∨ Encloses d (dirname p) := by
  by_cases h : '/' ∈ p
  · obtain ⟨a, n, rfl, hn⟩ := exists_last_slash h
    by_cases ha : ∀ c ∈ a, c = '/'
    · rw [dirname_append_cons hn, if_pos (by simpa using ha), encloses_slashes_iff ha hn,
        encloses_slashes_iff ha List.not_mem_nil, or_self]
    · have houter := outermost_dirname (a ++ '/' :: n)
      obtain ⟨s, hs, hslashes, hne, hlast⟩ := exists_of_not_all ha
      rw [Encloses, Encloses, houter, dirname_append_cons hn, if_neg (by simpa using ha)]
      generalize a.rdropWhile (· == '/') = q at hs hne hlast ⊢
      subst hs
      constructor
      · rintro (rfl | ⟨hd, hdlast, rest, hrest⟩)
        · exact .inr (.inl rfl)
        · obtain ⟨t, ht, hslash⟩ := exists_of_append_slash hn hrest
          rcases eq_or_exists_of_append hdlast hslashes ht hslash with rfl | hgoes
          · exact .inl rfl
          · exact .inr (.inr ⟨hd, hdlast, hgoes⟩)
      · rintro (rfl | rfl | ⟨hd, hdlast, rest, rfl⟩)
        · refine .inr ⟨hne, hlast, ?_⟩
          cases s with
          | nil => exact ⟨n, by simp⟩
          | cons c s =>
            rw [hslashes c List.mem_cons_self]
            exact ⟨s ++ '/' :: n, by simp⟩
        · exact .inl rfl
        · exact .inr ⟨hd, hdlast, rest ++ s ++ '/' :: n, by simp⟩
  · have hgoes : ∀ rest, p ≠ d ++ '/' :: rest := by
      rintro rest rfl
      exact h (by simp)
    rw [Encloses, Encloses, outermost_dirname, dirname_of_notMem h, outermost_of_notMem h]
    simp [hgoes]

/-- **The directories that enclose a path** are its own, and the directories of directories. -/
theorem encloses_iff_exists {d p : List Char} :
    Encloses d p ↔ ∃ k, d = dirname^[k] (dirname p) := by
  constructor
  · intro h
    induction hlen : p.length using Nat.strong_induction_on generalizing p with
    | _ len ih =>
      rcases encloses_iff.mp h with hd | hd
      · exact ⟨0, hd⟩
      rcases dirname_eq_self_or_lt p with hself | hlt
      · -- nothing but slashes: there is only the outermost directory
        have hall : ∀ c ∈ p, c = '/' := by simpa using all_of_dirname_eq_self hself
        refine ⟨0, ?_⟩
        rcases h with rfl | ⟨hne, hlast, rest, rfl⟩
        · rw [outermost_of_all hall, Function.iterate_zero, id_eq, hself]
        · exact absurd (fun c hc => hall c (List.mem_append_left _ hc))
            (not_all_of_getLast? hne hlast)
      · obtain ⟨k, hk⟩ := ih _ (hlen ▸ hlt) hd rfl
        exact ⟨k + 1, hk⟩
  · rintro ⟨k, rfl⟩
    induction k generalizing p with
    | zero => exact encloses_iff.mpr (.inl rfl)
    | succ k ih => exact encloses_iff.mpr (.inr ih)

/-! ## Names and rooted paths -/

/-- A plain file name: not empty, without slashes, and neither a dot nor two. -/
def IsName (n : List Char) : Prop := n ≠ [] ∧ '/' ∉ n ∧ n ≠ ['.'] ∧ n ≠ ['.', '.']

instance (n : List Char) : Decidable (IsName n) := by unfold IsName; infer_instance

/-- Names written out as a path from the root directory. -/
def rooted (names : List (List Char)) : List Char := '/' :: List.intercalate ['/'] names

theorem rooted_of_ne_nil (h : names ≠ []) : rooted names = names.flatMap ('/' :: ·) := by
  induction names with
  | nil => exact absurd rfl h
  | cons n rest ih =>
    cases rest with
    | nil => simp [rooted, List.intercalate_singleton]
    | cons m rest =>
      have := ih (by simp)
      rw [rooted] at this
      rw [rooted, List.intercalate_cons_cons, List.flatMap_cons, ← this]
      simp

theorem rooted_concat {n : List Char} (h : names ≠ []) :
    rooted (names ++ [n]) = rooted names ++ '/' :: n := by
  rw [rooted_of_ne_nil h, rooted_of_ne_nil (by simp)]
  simp

@[simp]
theorem rooted_singleton (n : List Char) : rooted [n] = '/' :: n := by
  simp [rooted, List.intercalate_singleton]

theorem getLast?_append_name (a : List Char) {n : List Char} (h : IsName n) :
    (a ++ n).getLast? ≠ some '/' := by
  rw [List.getLast?_append_of_ne_nil _ h.1]
  exact fun hlast => h.2.1 (List.mem_of_getLast? hlast)

theorem getLast?_rooted (h : ∀ n ∈ names, IsName n) (hne : names ≠ []) :
    (rooted names).getLast? ≠ some '/' := by
  rw [rooted_of_ne_nil hne, ← List.dropLast_append_getLast hne, List.flatMap_append,
    List.flatMap_singleton, ← List.singleton_append, ← List.append_assoc]
  exact getLast?_append_name _ (h _ (List.getLast_mem hne))

theorem dirname_rooted {n : List Char} (hnames : ∀ m ∈ names, IsName m) (hn : IsName n) :
    dirname (rooted (names ++ [n])) = rooted names := by
  rcases eq_or_ne names [] with rfl | hne
  · rw [List.nil_append, rooted_singleton, ← List.nil_append ('/' :: n), dirname_append_cons hn.2.1]
    rfl
  have hlast : (rooted names).getLast (by simp [rooted]) ≠ '/' := fun heq =>
    getLast?_rooted hnames hne (by rw [List.getLast?_eq_getLast_of_ne_nil (by simp [rooted]), heq])
  have hself : (rooted names).rdropWhile (· == '/') = rooted names :=
    List.rdropWhile_eq_self_iff.mpr fun _ hc => hlast (by simpa using hc)
  rw [rooted_concat hne, dirname_append_cons hn.2.1, hself, if_neg]
  exact fun hall => hlast (by simpa using List.all_eq_true.mp hall _ (List.getLast_mem _))

/-! ## The way of an absolute path -/

/-- The names left of an absolute path when its dots and double dots are resolved. -/
def way (p : List Char) : List (List Char) :=
  ((Text.splitOn '/' p).foldl (step true) []).reverse

theorem step_true_name (ps : List (List Char)) {n : List Char} (h : IsName n) :
    step true ps n = n :: ps := by
  simp [step, h.1, h.2.2.1, h.2.2.2]

theorem isName_of_mem_step {ps : List (List Char)} {part : List Char}
    (hps : ∀ n ∈ ps, IsName n) (hpart : '/' ∉ part) : ∀ n ∈ step true ps part, IsName n := by
  by_cases hdot : part.isEmpty || part == ['.']
  · simpa only [step, hdot, if_true] using hps
  by_cases hup : part = ['.', '.']
  · subst hup
    cases ps with
    | nil => simp [step]
    | cons last rest =>
      have hlast : last ≠ ['.', '.'] := (hps last (by simp)).2.2.2
      simpa [step, hlast] using fun n hn => hps n (by simp [hn])
  · have hname : IsName part := by simp_all [IsName]
    rw [step_true_name ps hname]
    simpa using ⟨hname, hps⟩

theorem isName_of_mem_way {p n : List Char} (h : n ∈ way p) : IsName n := by
  have key : ∀ (fields ps : List (List Char)), (∀ f ∈ fields, '/' ∉ f) → (∀ n ∈ ps, IsName n) →
      ∀ n ∈ fields.foldl (step true) ps, IsName n := by
    intro fields
    induction fields with
    | nil => exact fun ps _ hps => hps
    | cons f fields ih =>
      intro ps hf hps
      exact ih _ (fun g hg => hf g (by simp [hg])) (isName_of_mem_step hps (hf f (by simp)))
  exact key _ [] (fun f hf => Text.notMem_of_mem_splitOn hf) (by simp) n (List.mem_reverse.mp h)

theorem splitOn_rooted (h : ∀ n ∈ names, IsName n) (hne : names ≠ []) :
    Text.splitOn '/' (rooted names) = [] :: names := by
  rw [rooted, Text.splitOn, if_pos rfl, Text.splitOn_intercalate (fun n hn => (h n hn).2.1) hne]

/-- Writing names out and reading the way gives the names back. -/
@[simp]
theorem way_rooted (h : ∀ n ∈ names, IsName n) : way (rooted names) = names := by
  rcases eq_or_ne names [] with rfl | hne
  · rfl
  have key : ∀ (ns ps : List (List Char)), (∀ n ∈ ns, IsName n) →
      ns.foldl (step true) ps = ns.reverse ++ ps := by
    intro ns
    induction ns with
    | nil => exact fun ps _ => rfl
    | cons n ns ih =>
      intro ps hns
      rw [List.foldl_cons, step_true_name ps (hns n (by simp)),
        ih _ fun m hm => hns m (by simp [hm])]
      simp
  rw [way, splitOn_rooted h hne, List.foldl_cons, key names _ h]
  simp [step]

theorem rooted_injective {ms ns : List (List Char)} (hms : ∀ n ∈ ms, IsName n)
    (hns : ∀ n ∈ ns, IsName n) (h : rooted ms = rooted ns) : ms = ns := by
  rw [← way_rooted hms, h, way_rooted hns]

theorem lead_of_isAbsolute (h : isAbsolute p) : lead p = ['/'] ∨ lead p = ['/', '/'] := by
  unfold lead
  split <;> simp_all [isAbsolute]

theorem normalize_eq (h : isAbsolute p) :
    normalize p = lead p ++ List.intercalate ['/'] (way p) := by
  rcases lead_of_isAbsolute h with hl | hl <;> simp [normalize, way, hl]

theorem absolute_eq (h : isAbsolute p) : absolute p = normalize p := by
  rw [absolute, if_pos h]

theorem head?_intercalate (h : ∀ n ∈ names, IsName n) :
    (List.intercalate ['/'] names).head? ≠ some '/' := by
  cases names with
  | nil => simp
  | cons n rest =>
    have hn := h n (by simp)
    obtain ⟨c, n, rfl⟩ := List.exists_cons_of_ne_nil hn.1
    have hc : c ≠ '/' := fun hc => hn.2.1 (by simp [hc])
    cases rest with
    | nil => simpa [List.intercalate_singleton] using hc
    | cons m rest => simpa [List.intercalate_cons_cons] using hc

theorem location_eq (h : isAbsolute p) : location p = rooted (way p) := by
  have hhead := head?_intercalate (fun n hn => isName_of_mem_way (p := p) hn)
  rw [location, absolute_eq h, normalize_eq h]
  rcases lead_of_isAbsolute h with hl | hl <;> rw [hl]
  · simp only [List.cons_append, List.nil_append, rooted]
    split
    · simp_all
    · rfl
  · rfl

theorem steps_eq (h : isAbsolute p) : steps p = way p := by
  have hname : ∀ n ∈ way p, IsName n := fun n hn => isName_of_mem_way hn
  have hself : (way p).filter (!·.isEmpty) = way p :=
    List.filter_eq_self.mpr fun n hn => by simpa using (hname n hn).1
  rcases eq_or_ne (way p) [] with hnil | hne
  · rcases lead_of_isAbsolute h with hl | hl <;>
      rw [steps, absolute_eq h, normalize_eq h, hl, hnil] <;> rfl
  have hsplit := splitOn_rooted hname hne
  rw [rooted] at hsplit
  rcases lead_of_isAbsolute h with hl | hl <;> rw [steps, absolute_eq h, normalize_eq h, hl]
  · rw [List.singleton_append, hsplit]
    simpa using hself
  · rw [List.cons_append, List.singleton_append, Text.splitOn, if_pos rfl, hsplit]
    simpa using hself

/-! ## Joining -/

theorem exists_eq_cons_of_isAbsolute (h : isAbsolute p) : ∃ rest, p = '/' :: rest := by
  unfold isAbsolute at h
  split at h
  · exact ⟨_, rfl⟩
  · contradiction

theorem join_of_isAbsolute (a : List Char) {b : List Char} (h : isAbsolute b) : join a b = b :=
  if_pos h

theorem join_root (h : isAbsolute p = false) : join ['/'] p = ['/'] ++ p := by
  rw [join, h]
  rfl

theorem isAbsolute_join {a b : List Char} (h : isAbsolute a) : isAbsolute (join a b) := by
  unfold join
  split
  · assumption
  · obtain ⟨a, rfl⟩ := exists_eq_cons_of_isAbsolute h
    split <;> rfl

theorem not_isAbsolute_of_isName {n : List Char} (h : IsName n) : isAbsolute n = false := by
  obtain ⟨c, n, rfl⟩ := List.exists_cons_of_ne_nil h.1
  have hc : c ≠ '/' := fun hc => h.2.1 (by simp [hc])
  unfold isAbsolute
  split <;> simp_all

theorem way_join {a b : List Char} (ha : isAbsolute a) (hb : isAbsolute b = false) :
    way (join a b) = ((Text.splitOn '/' b).foldl (step true) (way a).reverse).reverse := by
  have hne : a ≠ [] := by rintro rfl; simp [isAbsolute] at ha
  rw [join, hb, if_neg (by simp), way, way, List.reverse_reverse]
  by_cases hlast : a.getLast? = some '/'
  · obtain ⟨front, rfl⟩ : ∃ front, a = front ++ ['/'] := by
      rw [List.getLast?_eq_some_iff] at hlast
      exact hlast
    -- The slash is the separator already: the field behind it is empty and changes nothing.
    rw [if_pos (by simp), List.append_assoc, List.singleton_append, Text.splitOn_append_cons,
      Text.splitOn_append_cons, List.foldl_append, List.foldl_append]
    simp [Text.splitOn, step]
  · rw [if_neg (by simp [hne, hlast]), Text.splitOn_append_cons, List.foldl_append]

theorem way_join_name {a n : List Char} (ha : isAbsolute a) (hn : IsName n) :
    way (join a n) = way a ++ [n] := by
  rw [way_join ha (not_isAbsolute_of_isName hn), Text.splitOn_of_notMem hn.2.1, List.foldl_cons,
    step_true_name _ hn]
  simp

theorem way_join_dot {a : List Char} (ha : isAbsolute a) : way (join a ['.']) = way a := by
  rw [way_join ha rfl, Text.splitOn_of_notMem (by decide)]
  simp [step]

theorem exists_join_name (a : List Char) {n : List Char} (hn : IsName n) :
    ∃ front, join a n = front ++ n := by
  rw [join, not_isAbsolute_of_isName hn, if_neg (by simp)]
  split
  · exact ⟨a, rfl⟩
  · exact ⟨a ++ ['/'], by simp⟩

theorem join_name_ne_nil (a : List Char) {n : List Char} (hn : IsName n) : join a n ≠ [] := by
  obtain ⟨front, hfront⟩ := exists_join_name a hn
  simp [hfront, hn.1]

theorem getLast?_join_name (a : List Char) {n : List Char} (hn : IsName n) :
    (join a n).getLast? ≠ some '/' := by
  obtain ⟨front, hfront⟩ := exists_join_name a hn
  exact hfront ▸ getLast?_append_name front hn

theorem lead_cons_of_head? {rest : List Char} (h : rest.head? ≠ some '/') :
    lead ('/' :: rest) = ['/'] := by
  unfold lead
  split <;> simp_all

theorem head?_of_not_isAbsolute {b : List Char} (h : isAbsolute b = false) :
    b.head? ≠ some '/' := by
  unfold isAbsolute at h
  split at h
  · contradiction
  · next hb => exact fun hhead => hb _ (List.eq_cons_of_mem_head? hhead)

theorem lead_join {a b : List Char} (ha : isAbsolute a) (hb : isAbsolute b = false) :
    lead (join a b) = lead a := by
  obtain ⟨a, rfl⟩ := exists_eq_cons_of_isAbsolute ha
  have hhead := head?_of_not_isAbsolute hb
  rw [join, hb, if_neg (by simp)]
  rcases a with _ | ⟨c, _ | ⟨d, rest⟩⟩
  · exact lead_cons_of_head? hhead
  · by_cases hc : c = '/'
    · subst hc
      cases b with
      | nil => rfl
      | cons d b => simp_all [lead]
    · rw [lead_cons_of_head? (by simpa using hc), if_neg (by simpa using hc)]
      exact lead_cons_of_head? (by simpa using hc)
  · -- Three characters are all that is looked at.
    have hmore (t : List Char) :
        lead ('/' :: c :: d :: rest ++ t) = lead ('/' :: c :: d :: rest) := by
      by_cases hc : c = '/' <;> by_cases hd : d = '/' <;> simp [lead, hc, hd]
    split <;> exact hmore _

theorem normalize_eq_location (h : lead p = ['/']) : normalize p = location p := by
  have habs : isAbsolute p := by
    unfold lead at h
    split at h <;> simp_all [isAbsolute]
  rw [normalize_eq habs, location_eq habs, h]
  rfl

theorem join_rooted {n : List Char} (hnames : ∀ m ∈ names, IsName m)
    (hn : IsName n) : join (rooted names) n = rooted (names ++ [n]) := by
  rw [join, not_isAbsolute_of_isName hn, if_neg (by simp)]
  rcases eq_or_ne names [] with rfl | hne
  · simp [rooted, List.intercalate_singleton]
  · have hlast := getLast?_rooted hnames hne
    have hnil : rooted names ≠ [] := by simp [rooted]
    rw [if_neg (by simp [hlast, hnil]), rooted_concat hne]

end Path

theorem Files.isThere_congr (fs : Files) {p q : List Char} (hp : p ≠ []) (hq : q ≠ [])
    (hlast : p.getLast? = some '/' ↔ q.getLast? = some '/')
    (hloc : Path.location p = Path.location q) : fs.isThere p = fs.isThere q := by
  have hp' : p.isEmpty = false := by simpa using hp
  have hq' : q.isEmpty = false := by simpa using hq
  have hlast' : (p.getLast? != some '/') = (q.getLast? != some '/') := by
    rw [Bool.eq_iff_iff, bne_iff_ne, bne_iff_ne, ne_eq, ne_eq, hlast]
  simp only [isThere, isFile, isDirectory, hp', hq', hlast', hloc]

end LangServer
