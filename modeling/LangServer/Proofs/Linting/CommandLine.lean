import LangServer.Proofs.Linting.Codes
import LangServer.Proofs.Trimming
import LangServer.Proofs.Uri.Paths

/-!
# The command line of flake8

Of the arguments that flake8 is started with, one at most gives it codes to ignore (`isIgnoring`),
and the others are up to the other settings (`exists_parts`). Before flake8 is started, remarks are
taken out of that argument; a semicolon makes a remark, so that the argument stays as it is just if
it has none in it, and else gets shorter.
-/

namespace LangServer

namespace Lint.Flake8

open Text

/-! ## Remarks -/

section

variable {s : List Char} {sep : Char}

theorem cutLast?_of_notMem (h : sep ∉ s) : cutLast? sep s = none := by
  rw [cutLast?, cutFirst?_eq_none fun hmem => h (List.mem_reverse.1 hmem), Option.map_none]

theorem notMem_of_cutLast? (h : cutLast? sep s = none) : sep ∉ s := by
  intro hmem
  obtain ⟨first, rest, hs, hfirst⟩ := List.eq_append_cons_of_mem (List.mem_reverse.2 hmem)
  rw [cutLast?, hs, cutFirst?_append hfirst] at h
  cases h

theorem length_afterRemark_le (s : List Char) : (afterRemark s).length ≤ s.length :=
  Nat.le_trans (List.dropWhile_suffix _).length_le (List.dropWhile_suffix _).length_le

theorem withoutRemarks_of_notMem (fuel : Nat) (h : ';' ∉ s) : withoutRemarks fuel s = s := by
  fun_induction withoutRemarks fuel s with
  | case1 s => rfl
  | case2 => rfl
  | case3 fuel c rest s hc lead front back hcut ih =>
    have hlead : ';' ∉ lead := fun hmem => h (List.takeWhile_subset _ hmem)
    rw [cutLast?_of_notMem hlead] at hcut
    cases hcut
  | case4 fuel c rest s hc lead hcut ih =>
    rw [ih fun hmem => h (List.dropWhile_subset _ hmem)]
    exact List.takeWhile_append_dropWhile
  | case5 fuel c rest hc ih => rw [ih fun hmem => h (List.mem_cons_of_mem c hmem)]

theorem length_withoutRemarks_le (fuel : Nat) (s : List Char) :
    (withoutRemarks fuel s).length ≤ s.length := by
  fun_induction withoutRemarks fuel s with
  | case1 s => exact Nat.le_refl _
  | case2 => exact Nat.le_refl _
  | case3 fuel c rest s hc lead front back hcut ih =>
    have hafter := length_afterRemark_le (s.drop (front.length + 1))
    rw [List.length_drop] at hafter
    exact Nat.le_trans ih (Nat.le_trans hafter (Nat.sub_le _ _))
  | case4 fuel c rest s hc lead hcut ih =>
    have hs : lead ++ s.dropWhile isForeign = c :: rest := List.takeWhile_append_dropWhile
    rw [← hs, List.length_append, List.length_append]
    exact Nat.add_le_add_left ih _
  | case5 fuel c rest hc ih => exact Nat.succ_le_succ ih

theorem length_withoutRemarks_lt {fuel : Nat} (hfuel : s.length ≤ fuel) (h : ';' ∈ s) :
    (withoutRemarks fuel s).length < s.length := by
  fun_induction withoutRemarks fuel s with
  | case1 s =>
    rw [List.length_eq_zero_iff.1 (Nat.le_zero.1 hfuel)] at h
    cases h
  | case2 => cases h
  | case3 fuel c rest s hc lead front back hcut ih =>
    have hle := length_withoutRemarks_le fuel (afterRemark (s.drop (front.length + 1)))
    have hafter := length_afterRemark_le (s.drop (front.length + 1))
    rw [List.length_drop] at hafter
    have hs : 0 < s.length := Nat.succ_pos _
    show _ < s.length
    omega
  | case4 fuel c rest s hc lead hcut ih =>
    have hs : lead ++ s.dropWhile isForeign = c :: rest := List.takeWhile_append_dropWhile
    have hrest : ';' ∈ s.dropWhile isForeign := by
      rw [← hs, List.mem_append] at h
      exact h.resolve_left (notMem_of_cutLast? hcut)
    have hshort : (s.dropWhile isForeign).length ≤ fuel := by
      have hdrop : s.dropWhile isForeign = rest.dropWhile isForeign :=
        List.dropWhile_cons_of_pos hc
      rw [hdrop]
      exact Nat.le_trans (List.dropWhile_suffix _).length_le (Nat.le_of_succ_le_succ hfuel)
    rw [← hs, List.length_append, List.length_append]
    exact Nat.add_lt_add_left (ih hshort hrest) _
  | case5 fuel c rest hc ih =>
    have hne : ';' ≠ c := by
      rintro rfl
      exact hc rfl
    have hrest : ';' ∈ rest := (List.mem_cons.1 h).resolve_left hne
    exact Nat.succ_lt_succ (ih (Nat.le_of_succ_le_succ hfuel) hrest)

end

/-! ## Lists of codes -/

section

variable {xs ys codes actual expected : List String}

/-- What a list of codes takes up on the command line. -/
def room : List String → Nat
  | [] => 0
  | code :: codes => code.length + 1 + room codes

theorem length_intercalate (h : codes ≠ []) :
    (String.intercalate "," codes).length + 1 = room codes := by
  induction codes with
  | nil => exact absurd rfl h
  | cons code codes ih =>
    cases codes with
    | nil => simp [room]
    | cons next codes =>
      have hcomma : ",".length = 1 := rfl
      have hrest := ih (List.cons_ne_nil _ _)
      rw [String.intercalate_cons_cons, String.length_append, String.length_append, room]
      omega

theorem eq_or_room_lt (h : xs.Sublist ys) : xs = ys ∨ room xs < room ys := by
  induction h with
  | slnil => exact .inl rfl
  | cons a _ ih =>
    rw [room]
    rcases ih with rfl | ih
    · exact .inr (by omega)
    · exact .inr (by omega)
  | cons_cons a _ ih =>
    rcases ih with rfl | ih
    · exact .inl rfl
    · rw [room, room]
      exact .inr (by omega)

/-- The argument with a list of codes. -/
def argument (codes : List String) : String := "--ignore=" ++ String.intercalate "," codes

theorem length_argument (h : codes ≠ []) :
    (argument codes).length + 1 = "--ignore=".length + room codes := by
  rw [argument, String.length_append, Nat.add_assoc, length_intercalate h]

theorem semicolon_mem_argument :
    ';' ∈ (argument codes).toList ↔ ∃ code ∈ codes, ';' ∈ code.toList := by
  have hjoined : ';' ∈ (String.intercalate "," codes).toList ↔
      ∃ code ∈ codes, ';' ∈ code.toList := by
    rw [String.toList_intercalate]
    exact (mem_intercalate (by decide)).trans (by simp)
  rw [argument, String.toList_append, List.mem_append, hjoined]
  exact or_iff_right (by decide)

theorem cleanArgument_argument (codes : List String) : cleanArgument (argument codes) =
    String.ofList (withoutRemarks ((argument codes).length + 1) (argument codes).toList) := by
  rw [cleanArgument, if_pos (by simp [argument])]

theorem length_cleanArgument_le (codes : List String) :
    (cleanArgument (argument codes)).length ≤ (argument codes).length := by
  rw [cleanArgument_argument, String.length_ofList]
  exact length_withoutRemarks_le _ _

theorem length_cleanArgument_lt (h : ';' ∈ (argument codes).toList) :
    (cleanArgument (argument codes)).length < (argument codes).length := by
  rw [cleanArgument_argument, String.length_ofList]
  exact length_withoutRemarks_lt (Nat.le_succ _) h

theorem cleanArgument_of_notMem (h : ';' ∉ (argument codes).toList) :
    cleanArgument (argument codes) = argument codes := by
  rw [cleanArgument_argument, withoutRemarks_of_notMem _ h, String.ofList_toList]

/-- The argument gets no longer, so that no code was left out. -/
theorem eq_of_cleanArgument (h : actual.Sublist expected) (hactual : actual ≠ [])
    (hexpected : expected ≠ []) (hclean : cleanArgument (argument actual) = argument expected) :
    actual = expected := by
  refine (eq_or_room_lt h).resolve_right fun hlt => ?_
  have hle := length_cleanArgument_le actual
  have hlength := length_argument hactual
  have hlength' := length_argument hexpected
  rw [hclean] at hle
  omega

/-! ## Arguments -/

/-- Does the argument give codes to ignore? -/
def isIgnoring : Value → Bool
  | .str s => "--ignore=".toList.isPrefixOf s.toList
  | _ => false

/-- The arguments that give these codes. -/
def ignoring (codes : List String) : List Value :=
  if codes = [] then [] else [.str (argument codes)]

/-- The argument without remarks. -/
def clean : Value → Value
  | .str s => .str (cleanArgument s)
  | v => v

theorem isIgnoring_argument (codes : List String) : isIgnoring (.str (argument codes)) = true := by
  simp [isIgnoring, argument]

theorem eq_of_ignoring_eq (h : actual.Sublist expected)
    (heq : ignoring actual = ignoring expected) : actual = expected := by
  by_cases hexpected : expected = []
  · subst hexpected
    exact List.sublist_nil.1 h
  by_cases hactual : actual = []
  · rw [hactual, ignoring, ignoring, if_pos rfl, if_neg hexpected] at heq
    cases heq
  rw [ignoring, ignoring, if_neg hactual, if_neg hexpected, List.singleton_inj,
    Value.str.injEq] at heq
  refine (eq_or_room_lt h).resolve_right fun hlt => ?_
  have hlength := length_argument hactual
  have hlength' := length_argument hexpected
  rw [heq] at hlength
  omega

/-- **Codes arrive as they are** just if none is left out and none has a semicolon in it. -/
theorem filter_ignoring_eq_iff (h : actual.Sublist expected) :
    ((ignoring actual).map clean).filter isIgnoring = ignoring expected ↔
      actual = expected ∧ ∀ code ∈ expected, ';' ∉ code.toList := by
  constructor
  · intro heq
    by_cases hexpected : expected = []
    · subst hexpected
      exact ⟨List.sublist_nil.1 h, List.forall_mem_nil _⟩
    by_cases hactual : actual = []
    · rw [hactual, ignoring, ignoring, if_pos rfl, if_neg hexpected] at heq
      cases heq
    rw [ignoring, ignoring, if_neg hactual, if_neg hexpected, List.map_singleton,
      List.filter_cons, List.filter_nil] at heq
    have hclean : cleanArgument (argument actual) = argument expected := by
      split at heq
      · exact Value.str.inj (List.singleton_inj.1 heq)
      · cases heq
    obtain rfl := eq_of_cleanArgument h hactual hexpected hclean
    refine ⟨rfl, fun code hcode hmem => ?_⟩
    have hlt := length_cleanArgument_lt (semicolon_mem_argument.2 ⟨code, hcode, hmem⟩)
    rw [hclean] at hlt
    exact Nat.lt_irrefl _ hlt
  · rintro ⟨rfl, hplain⟩
    by_cases hactual : actual = []
    · rw [ignoring, if_pos hactual]
      rfl
    have hnone : ';' ∉ (argument actual).toList := by
      rw [semicolon_mem_argument]
      rintro ⟨code, hcode, hmem⟩
      exact hplain code hcode hmem
    rw [ignoring, if_neg hactual, List.map_singleton, clean, cleanArgument_of_notMem hnone,
      List.filter_cons_of_pos (isIgnoring_argument _), List.filter_nil]

end

/-! ## Options -/

/-- What options become on the command line. -/
def optionTexts (opts : List (String × Value)) : Except Fault (List Value) :=
  (opts.filter fun (_, v) => !v.isNull).mapM fun (name, v) => option name v

theorem optionTexts_append (xs ys : List (String × Value)) :
    optionTexts (xs ++ ys) = (do
      let first ← optionTexts xs
      return first ++ (← optionTexts ys)) := by
  rw [optionTexts, List.filter_append, List.mapM_append]
  rfl

theorem options_append (before after : List (String × Value)) (o : String × Value) :
    options (before ++ o :: after) = (do
      let first ← optionTexts before
      let own ← optionTexts [o]
      let last ← optionTexts after
      return .str "-" :: (first ++ (own ++ last))) := by
  have hoptions : options (before ++ o :: after) = (do
      return .str "-" :: (← optionTexts (before ++ ([o] ++ after)))) := rfl
  rw [hoptions, optionTexts_append, optionTexts_append]
  simp only [bind_assoc, pure_bind]

/-- The options beside the codes. -/
def otherNames : List String :=
  ["config", "exclude", "filename", "hang-closing", "max-line-length", "indent-size", "select"]

theorem exists_options {settings given program : Value} {args : List Value}
    (h : commandLine settings given = .ok (program, args)) :
    ∃ before after : List (String × Value), (∀ o ∈ before ++ after, o.1 ∈ otherNames) ∧
      ∀ ignores, commandLine settings ignores = (do
        let args ← options (before ++
          ("ignore", if ignores.truthy then ignores else .null) :: after)
        return (program, args)) := by
  unfold commandLine at h ⊢
  obtain ⟨config, hconfig, h⟩ := exists_of_bind_eq_ok h
  obtain ⟨exclude, hexclude, h⟩ := exists_of_bind_eq_ok h
  obtain ⟨filename, hfilename, h⟩ := exists_of_bind_eq_ok h
  obtain ⟨hangClosing, hhangClosing, h⟩ := exists_of_bind_eq_ok h
  obtain ⟨maxLineLength, hmaxLineLength, h⟩ := exists_of_bind_eq_ok h
  obtain ⟨indentSize, hindentSize, h⟩ := exists_of_bind_eq_ok h
  obtain ⟨select, hselect, h⟩ := exists_of_bind_eq_ok h
  obtain ⟨absolute, habsolute, h⟩ := exists_of_bind_eq_ok h
  obtain ⟨executable, hexecutable, h⟩ := exists_of_bind_eq_ok h
  obtain ⟨args', -, h⟩ := exists_of_bind_eq_ok h
  obtain ⟨rfl, -⟩ := Prod.mk.inj (Except.ok.inj h)
  refine ⟨[("config", absolute), ("exclude", exclude), ("filename", filename),
    ("hang-closing", hangClosing)],
    [("max-line-length", maxLineLength), ("indent-size", indentSize), ("select", select)],
    by simp [otherNames], fun ignores => ?_⟩
  simp only [hconfig, hexclude, hfilename, hhangClosing, hmaxLineLength, hindentSize, hselect,
    habsolute, hexecutable, ok_bind]
  rfl

/-- An argument that gives no codes, or a gap. -/
inductive IsPlain : Value → Prop where
  | gap : IsPlain .null
  | text {s : String} (h : isIgnoring (.str s) = false) : IsPlain (.str s)

theorem isPlain_of_option {name : String} {v w : Value} (hname : name ∈ otherNames)
    (h : option name v = .ok w) : IsPlain w := by
  have hother : ∀ rest : String, isIgnoring (.str ("--" ++ name ++ rest)) = false := by
    intro rest
    rw [isIgnoring, String.toList_append]
    revert hname
    simp only [otherNames, List.mem_cons, List.not_mem_nil, or_false]
    rintro (rfl | rfl | rfl | rfl | rfl | rfl | rfl) <;> rfl
  unfold option at h
  split at h
  · obtain ⟨parts, -, h⟩ := exists_of_bind_eq_ok h
    rw [← Except.ok.inj h, String.append_assoc]
    exact .text (hother _)
  · rw [← Except.ok.inj h, ← String.append_empty (s := "--" ++ name)]
    exact .text (hother _)
  · exact Except.ok.inj h ▸ .gap
  · rw [← Except.ok.inj h, String.append_assoc]
    exact .text (hother _)

theorem isPlain_of_mapM {given : List (String × Value)} {texts : List Value}
    (hnames : ∀ o ∈ given, o.1 ∈ otherNames)
    (h : (given.mapM fun o => option o.1 o.2) = .ok texts) : ∀ a ∈ texts, IsPlain a := by
  induction given generalizing texts with
  | nil =>
    obtain rfl := Except.ok.inj h
    exact List.forall_mem_nil _
  | cons o given ih =>
    obtain ⟨ho, hgiven⟩ := List.forall_mem_cons.1 hnames
    rw [List.mapM_cons] at h
    obtain ⟨text, htext, h⟩ := exists_of_bind_eq_ok h
    obtain ⟨rest, hrest, h⟩ := exists_of_bind_eq_ok h
    rw [← Except.ok.inj h]
    exact List.forall_mem_cons.2 ⟨isPlain_of_option ho htext, ih hgiven hrest⟩

theorem isPlain_of_optionTexts {opts : List (String × Value)} {texts : List Value}
    (hnames : ∀ o ∈ opts, o.1 ∈ otherNames) (h : optionTexts opts = .ok texts) :
    ∀ a ∈ texts, IsPlain a :=
  isPlain_of_mapM (fun o ho => hnames o (List.mem_of_mem_filter ho)) h

theorem mapM_textOr_str (codes : List String) :
    (codes.map Value.str).mapM (·.textOr .mismatch) = .ok codes := by
  induction codes with
  | nil => rfl
  | cons code codes ih =>
    rw [List.map_cons, List.mapM_cons, ih]
    rfl

theorem eq_map_str_of_mapM {items : List Value} {codes : List String}
    (h : items.mapM (·.textOr .mismatch) = .ok codes) : items = codes.map .str := by
  induction items generalizing codes with
  | nil =>
    obtain rfl := Except.ok.inj h
    rfl
  | cons item items ih =>
    rw [List.mapM_cons] at h
    obtain ⟨code, hcode, h⟩ := exists_of_bind_eq_ok h
    obtain ⟨rest, hrest, h⟩ := exists_of_bind_eq_ok h
    cases item with
    | str text =>
      obtain rfl : text = code := Except.ok.inj hcode
      rw [← Except.ok.inj h, List.map_cons, ← ih hrest]
    | _ => cases hcode

theorem optionTexts_ignore (codes : List String) :
    optionTexts [("ignore", if (Value.list (codes.map .str)).truthy then .list (codes.map .str)
      else .null)] = .ok (ignoring codes) := by
  cases codes with
  | nil => rfl
  | cons code codes =>
    have hoption : option "ignore" (.list ((code :: codes).map .str)) =
        .ok (.str (argument (code :: codes))) := by
      rw [option, mapM_textOr_str]
      rfl
    have htexts : optionTexts [("ignore", .list ((code :: codes).map .str))] = (do
        return [← option "ignore" (.list ((code :: codes).map .str))]) := rfl
    exact htexts.trans (by rw [hoption]; rfl)

/-- **A command line is its other parts around the codes.** -/
theorem exists_parts {settings given program : Value} {args : List Value}
    (h : commandLine settings given = .ok (program, args)) :
    ∃ first last, (∀ a ∈ first ++ last, IsPlain a) ∧ ∀ codes : List String,
      commandLine settings (.list (codes.map .str)) =
        .ok (program, first ++ (ignoring codes ++ last)) := by
  obtain ⟨before, after, hnames, hoptions⟩ := exists_options h
  rw [hoptions] at h
  obtain ⟨args', hargs, -⟩ := exists_of_bind_eq_ok h
  rw [options_append] at hargs
  obtain ⟨first, hfirst, hargs⟩ := exists_of_bind_eq_ok hargs
  obtain ⟨own, -, hargs⟩ := exists_of_bind_eq_ok hargs
  obtain ⟨last, hlast, -⟩ := exists_of_bind_eq_ok hargs
  obtain ⟨hbefore, hafter⟩ := List.forall_mem_append.1 hnames
  refine ⟨.str "-" :: first, last, ?_, fun codes => ?_⟩
  · refine List.forall_mem_append.2 ⟨List.forall_mem_cons.2 ⟨.text rfl, ?_⟩, ?_⟩
    · exact isPlain_of_optionTexts hbefore hfirst
    · exact isPlain_of_optionTexts hafter hlast
  · rw [hoptions, options_append, hfirst, optionTexts_ignore, hlast]
    rfl

theorem exists_codes_of_commandLine {settings program : Value} {items args : List Value}
    (h : commandLine settings (.list items) = .ok (program, args)) :
    ∃ codes : List String, items = codes.map .str := by
  obtain ⟨before, after, -, hoptions⟩ := exists_options h
  rw [hoptions] at h
  obtain ⟨args', hargs, -⟩ := exists_of_bind_eq_ok h
  rw [options_append] at hargs
  obtain ⟨first, -, hargs⟩ := exists_of_bind_eq_ok hargs
  obtain ⟨own, hown, -⟩ := exists_of_bind_eq_ok hargs
  cases items with
  | nil => exact ⟨[], rfl⟩
  | cons item items =>
    have htexts : optionTexts [("ignore", .list (item :: items))] = (do
        return [← option "ignore" (.list (item :: items))]) := rfl
    obtain ⟨text, htext, -⟩ := exists_of_bind_eq_ok (htexts.symm.trans hown)
    obtain ⟨codes, hcodes, -⟩ := exists_of_bind_eq_ok htext
    exact ⟨codes, eq_map_str_of_mapM hcodes⟩

/-! ## Arguments without remarks -/

theorem cleanArguments_eq {args : List Value} (h : ∀ a ∈ args, a = .null ∨ ∃ s, a = .str s) :
    cleanArguments args = .ok ((args.filter (!·.isNull)).map clean) := by
  rw [cleanArguments]
  induction args with
  | nil => rfl
  | cons a args ih =>
    obtain ⟨ha, hargs⟩ := List.forall_mem_cons.1 h
    rcases ha with rfl | ⟨s, rfl⟩
    · rw [List.filter_cons_of_neg (by decide)]
      exact ih hargs
    · rw [List.filter_cons_of_pos (by rfl), List.mapM_cons, ih hargs]
      rfl

theorem filter_clean_of_isPlain {args : List Value} (h : ∀ a ∈ args, IsPlain a) :
    ((args.filter (!·.isNull)).map clean).filter isIgnoring = [] := by
  refine List.filter_eq_nil_iff.2 fun b hb => ?_
  obtain ⟨a, ha, rfl⟩ := List.mem_map.1 hb
  cases h a (List.mem_filter.1 ha).1 with
  | gap => exact Bool.false_ne_true
  | @text s hs =>
    have hkept : cleanArgument s = s := if_neg (by rw [isIgnoring] at hs; rw [hs]; decide)
    rw [clean, hkept, hs]
    exact Bool.false_ne_true

/-- **What flake8 is told to ignore**, whatever the other arguments are. -/
theorem exists_cleanArguments {first last : List Value} (h : ∀ a ∈ first ++ last, IsPlain a)
    (codes : List String) :
    ∃ args, cleanArguments (first ++ (ignoring codes ++ last)) = .ok args ∧
      args.filter isIgnoring = ((ignoring codes).map clean).filter isIgnoring := by
  obtain ⟨hfirst, hlast⟩ := List.forall_mem_append.1 h
  have htext : ∀ {a}, IsPlain a → a = .null ∨ ∃ s, a = .str s := by
    rintro a (_ | _)
    · exact .inl rfl
    · exact .inr ⟨_, rfl⟩
  have hcodes : ∀ a ∈ ignoring codes, a.isNull = false ∧ ∃ s, a = .str s := by
    intro a ha
    rw [ignoring] at ha
    split at ha
    · cases ha
    · rw [List.mem_singleton] at ha
      exact ha ▸ ⟨rfl, _, rfl⟩
  refine ⟨_, cleanArguments_eq ?_, ?_⟩
  · refine List.forall_mem_append.2
      ⟨fun a ha => htext (hfirst a ha), List.forall_mem_append.2 ⟨?_, ?_⟩⟩
    · exact fun a ha => .inr (hcodes a ha).2
    · exact fun a ha => htext (hlast a ha)
  · have hkept : (ignoring codes).filter (!·.isNull) = ignoring codes :=
      List.filter_eq_self.2 fun a ha => by rw [(hcodes a ha).1]; rfl
    rw [List.filter_append, List.filter_append, List.map_append, List.map_append,
      List.filter_append, List.filter_append, filter_clean_of_isPlain hfirst,
      filter_clean_of_isPlain hlast, hkept, List.nil_append, List.append_nil]

/-! ## Codes that are given twice -/

/-- The argument gives codes to ignore, and has a semicolon in it. -/
def isRemarked : Value → Bool
  | .str s => isIgnoring (.str s) && s.toList.contains ';'
  | _ => false

/-- The second command line is the first one with some of its codes once more. -/
def Doubles (x y : Value × List Value) : Prop :=
  ∃ (program : Value) (first last : List Value) (codes more : List String),
    (∀ a ∈ first ++ last, IsPlain a) ∧ more ≠ [] ∧ more ⊆ codes ∧
    x = (program, first ++ (ignoring codes ++ last)) ∧
    y = (program, first ++ (ignoring (codes ++ more) ++ last))

namespace Doubles

variable {x y : Value × List Value}

theorem ignoring_ne {codes more : List String} (hmore : more ≠ []) :
    ignoring codes ≠ ignoring (codes ++ more) := by
  intro heq
  have hsame := eq_of_ignoring_eq (List.sublist_append_left codes more) heq
  exact hmore (List.self_eq_append_right.1 hsame)

theorem ne (h : Doubles x y) : x ≠ y := by
  obtain ⟨program, first, last, codes, more, -, hmore, -, rfl, rfl⟩ := h
  intro heq
  have hargs := (Prod.mk.inj heq).2
  rw [List.append_cancel_left_eq, List.append_cancel_right_eq] at hargs
  exact ignoring_ne hmore hargs

/-- **Codes that are given twice arrive twice**, unless a semicolon hides them. -/
theorem cleanArguments_ne (h : Doubles x y) (hplain : ∀ a ∈ x.2, isRemarked a = false) :
    ∃ args args', cleanArguments x.2 = .ok args ∧ cleanArguments y.2 = .ok args' ∧
      args ≠ args' := by
  obtain ⟨program, first, last, codes, more, hothers, hmore, hsub, rfl, rfl⟩ := h
  have hcodes : ∀ code ∈ codes, ';' ∉ code.toList := by
    intro code hcode hmem
    have hne : codes ≠ [] := List.ne_nil_of_mem hcode
    have hremarked := hplain (.str (argument codes)) (by simp [ignoring, hne])
    have hsemicolon := semicolon_mem_argument.2 ⟨code, hcode, hmem⟩
    rw [isRemarked, isIgnoring_argument, Bool.true_and, List.contains_iff_mem.2 hsemicolon]
      at hremarked
    cases hremarked
  have hall : ∀ code ∈ codes ++ more, ';' ∉ code.toList :=
    List.forall_mem_append.2 ⟨hcodes, fun code hcode => hcodes code (hsub hcode)⟩
  obtain ⟨args, hargs, hfilter⟩ := exists_cleanArguments hothers codes
  obtain ⟨args', hargs', hfilter'⟩ := exists_cleanArguments hothers (codes ++ more)
  rw [(filter_ignoring_eq_iff (List.Sublist.refl codes)).2 ⟨rfl, hcodes⟩] at hfilter
  rw [(filter_ignoring_eq_iff (List.Sublist.refl (codes ++ more))).2 ⟨rfl, hall⟩] at hfilter'
  refine ⟨args, args', hargs, hargs', ?_⟩
  rintro rfl
  exact ignoring_ne hmore (hfilter.symm.trans hfilter')

end Doubles
end Lint.Flake8
end LangServer
