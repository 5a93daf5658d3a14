import LangServer.Proofs.Hooks

/-!
# Outlines

An outline is made from a list of names, and a class that is reported puts its members before the
rest of the list. So a name may come up twice, as a member and on the list. What comes up at a
place where a class has a member is reported once, and then the place is closed (`Closed`).

Definitions are told apart by name and place (`key`). If the list has none twice, and a class comes
before all that is inside it (`ClassesFirst`), then none is reported twice (`Outlining.nodup`). But
several names may be defined at one place, and the first of them that comes up closes it for the
others (`Taken`). `symbols_once_unless_taken` says that nothing else is lost.

The statements are about the names that were reported so far, of which what the program remembers
is a view (`Remembers`).
-/

namespace LangServer.Symbols

/-! ## Definitions and their places -/

/-- What tells definitions apart: the name and the place. -/
def key (n : Name) : String × Span := (n.name, n.span)

def Symbol.key (s : Symbol) : String × Span := (s.name, s.span)

/-- What a class defines, and what is defined in there. -/
inductive Inside (c : Name) : Name → Prop
  | member {m : Name} : m ∈ membersOf c → Inside c m
  | deeper {n m : Name} : Inside c n → m ∈ membersOf n → Inside c m

/-- A list of names has none twice, and a class comes before all that is inside it. -/
structure ClassesFirst (found : List Name) : Prop where
  distinct : (found.map key).Nodup
  before : found.Pairwise fun d c => ∀ m, Inside c m → key m ≠ key d
  apart : ∀ c ∈ found, ∀ m, Inside c m → key m ≠ key c

/-- One of the names is a class with a member at the place. -/
def MemberAt (reported : List Name) (span : Span) : Prop :=
  ∃ c ∈ reported, ∃ m ∈ membersOf c, m.span = span

/-- After a class with a member at the place, a name at the place was reported. -/
def Closed (reported : List Name) (span : Span) : Prop :=
  ∃ before e after, reported = before ++ e :: after ∧ e.span = span ∧ MemberAt before span

/-- The place of a definition was closed by another: after a class with a member there, a name was
reported at the place, and the definition had not been. -/
def Taken (reported : List Name) (n : Name) : Prop :=
  ∃ before e after, reported = before ++ e :: after ∧ e.span = n.span ∧ MemberAt before n.span ∧
    key n ∉ (before ++ [e]).map key

/-- Listed, or defined by a class that is reported. -/
def ComesUp (names reported : List Name) (n : Name) : Prop :=
  n ∈ names ∨ ∃ c ∈ reported, n ∈ membersOf c

theorem comesUp_cons_iff {n m : Name} {rest reported : List Name} :
    ComesUp (n :: rest) (n :: reported) m ↔ m = n ∨ ComesUp (membersOf n ++ rest) reported m := by
  rw [ComesUp, ComesUp, List.mem_cons, List.exists_mem_cons_iff, List.mem_append, or_assoc,
    or_assoc, or_left_comm (a := m ∈ rest)]

/-- One of the names, or inside one of them. -/
def Among (names : List Name) (n : Name) : Prop := n ∈ names ∨ ∃ c ∈ names, Inside c n

theorem Inside.of_member {c n m : Name} (h : Inside n m) (hn : n ∈ membersOf c) : Inside c m := by
  induction h with
  | member hm => exact .deeper (.member hn) hm
  | deeper _ hm ih => exact .deeper ih hm

theorem Among.of_member {names : List Name} {c m : Name} (h : Among names c)
    (hm : m ∈ membersOf c) : Among names m := by
  rcases h with hc | ⟨t, ht, hc⟩
  · exact .inr ⟨c, hc, .member hm⟩
  · exact .inr ⟨t, ht, hc.deeper hm⟩

theorem Among.cons {names : List Name} {n : Name} (h : Among names n) (m : Name) :
    Among (m :: names) n :=
  h.imp (List.mem_cons_of_mem _) fun ⟨c, hc, hn⟩ => ⟨c, List.mem_cons_of_mem _ hc, hn⟩

section

variable {reported : List Name} {span : Span} {n : Name}

theorem MemberAt.append (h : MemberAt reported span) (later : List Name) :
    MemberAt (reported ++ later) span := by
  obtain ⟨c, hc, hm⟩ := h
  exact ⟨c, List.mem_append_left _ hc, hm⟩

theorem Closed.append (h : Closed reported span) (later : List Name) :
    Closed (reported ++ later) span := by
  obtain ⟨before, e, after, rfl, hspan, hmember⟩ := h
  exact ⟨before, e, after ++ later, by simp, hspan, hmember⟩

theorem not_closed_nil (span : Span) : ¬ Closed [] span := by
  rintro ⟨before, e, after, heq, -⟩
  simp at heq

theorem closed_append_singleton_iff : Closed (reported ++ [n]) span ↔
    Closed reported span ∨ n.span = span ∧ MemberAt reported span := by
  constructor
  · rintro ⟨before, e, after, heq, hspan, hmember⟩
    rcases List.eq_nil_or_concat after with rfl | ⟨after, last, rfl⟩
    · obtain ⟨rfl, hlast⟩ := List.append_inj' heq rfl
      obtain rfl : n = e := List.singleton_inj.1 hlast
      exact .inr ⟨hspan, hmember⟩
    · refine .inl ⟨before, e, after, ?_, hspan, hmember⟩
      rw [List.concat_eq_append, ← List.cons_append, ← List.append_assoc] at heq
      exact (List.append_inj' heq rfl).1
  · rintro (h | ⟨hspan, hmember⟩)
    · exact h.append [n]
    · exact ⟨reported, n, [], rfl, hspan, hmember⟩

end

/-! ## What is remembered -/

theorem mem_addMembers {members : List (Span × String)} {inner : List Name} {x : Span × String} :
    x ∈ addMembers members inner ↔ x ∈ members ∨ ∃ m ∈ inner, (m.span, memberKind m) = x := by
  induction inner generalizing members with
  | nil => simp [addMembers]
  | cons m inner ih =>
    rw [addMembers, ih, List.mem_cons, List.exists_mem_cons_iff, eq_comm (a := x),
      or_comm (b := _ ∈ _), or_assoc]

/-- What is remembered after some names were reported. -/
structure Remembers (reported : List Name) (p : Progress) : Prop where
  members : ∀ x, x ∈ p.members ↔
    ∃ c ∈ reported, ∃ m ∈ membersOf c, (m.span, memberKind m) = x
  done : ∀ span, span ∈ p.done ↔ Closed reported span
  symbols : p.symbols.map Symbol.key = reported.map key

namespace Remembers

variable {reported : List Name} {p : Progress}

theorem nil : Remembers [] {} := ⟨by simp, by simp [not_closed_nil], rfl⟩

theorem exists_of_memberKind? (h : Remembers reported p) {span : Span} {kind : String}
    (hkind : p.memberKind? span = some kind) :
    ∃ c ∈ reported, ∃ m ∈ membersOf c, m.span = span ∧ memberKind m = kind := by
  obtain ⟨x, hx, rfl⟩ := Option.map_eq_some_iff.1 hkind
  obtain ⟨c, hc, m, hm, rfl⟩ := (h.members x).1 (List.mem_of_find?_eq_some hx)
  have hspan := List.find?_some hx
  exact ⟨c, hc, m, hm, beq_iff_eq.1 hspan, rfl⟩

theorem isSome_memberKind?_iff (h : Remembers reported p) (span : Span) :
    (p.memberKind? span).isSome = true ↔ MemberAt reported span := by
  rw [Progress.memberKind?, Option.isSome_map, List.find?_isSome]
  constructor
  · rintro ⟨x, hx, hspan⟩
    obtain ⟨c, hc, m, hm, rfl⟩ := (h.members x).1 hx
    exact ⟨c, hc, m, hm, beq_iff_eq.1 hspan⟩
  · rintro ⟨c, hc, m, hm, hspan⟩
    exact ⟨_, (h.members _).2 ⟨c, hc, m, hm, rfl⟩, beq_iff_eq.2 hspan⟩

theorem record (h : Remembers reported p) (n : Name) (kind : Int) :
    Remembers (reported ++ [n]) (p.record n kind) where
  members x := by
    rw [Progress.record, mem_addMembers, h.members]
    simp only [List.mem_append, List.mem_singleton, or_and_right, exists_or, exists_eq_left]
  done span := by
    rw [closed_append_singleton_iff, ← h.done, Progress.record]
    by_cases hmember : MemberAt reported n.span
    · rw [if_pos ((h.isSome_memberKind?_iff _).2 hmember), List.mem_cons, or_comm]
      refine or_congr_right ⟨?_, fun hspan => hspan.1.symm⟩
      rintro rfl
      exact ⟨rfl, hmember⟩
    · rw [if_neg (mt (h.isSome_memberKind?_iff _).1 hmember)]
      refine (or_iff_left ?_).symm
      rintro ⟨rfl, hspan⟩
      exact hmember hspan
  symbols := by
    rw [Progress.record, List.map_append, h.symbols, List.map_append]
    rfl

end Remembers

/-! ## Runs -/

/-- A name of the document that is shown. -/
def belongs (isOwnFile : Name → Bool) (n : Name) : Bool := isShown n && isOwnFile n

theorem memberKind_of_unknown {m : Name} (h : kindNumber? (memberKind m) = none) :
    memberKind m = m.kind := by
  rw [memberKind] at h ⊢
  split at h
  · exact absurd h (by decide)
  · next hfunction =>
    rw [if_neg hfunction]
    split at h
    · exact absurd h (by decide)
    · next hstatement => rw [if_neg hstatement]

theorem exists_of_kindNumber?_kindOf {isOwnFile : Name → Bool} {n : Name} {p : Progress}
    (hshown : belongs isOwnFile n = true) (h : kindNumber? (p.kindOf n) = none) :
    ∃ kind, p.memberKind? n.span = some kind ∧ p.kindOf n = kind := by
  have hknown : (kindNumber? n.kind).isSome = true := by
    simp only [belongs, isShown, Bool.and_eq_true] at hshown
    exact hshown.1.2
  rw [Progress.kindOf] at h ⊢
  split at h
  · exact absurd h (by decide)
  · next hfield =>
    rw [if_neg hfield]
    cases hmember : p.memberKind? n.span with
    | none =>
      rw [hmember, Option.getD_none] at h
      rw [h] at hknown
      cases hknown
    | some kind => exact ⟨kind, rfl, rfl⟩

/-- How an outline is made from names, after what is remembered already: which names are reported,
and what comes out. -/
inductive Outlining (isOwnFile : Name → Bool) :
    Progress → List Name → List Name → Except Fault Progress → Prop
  | nil (p : Progress) : Outlining isOwnFile p [] [] (.ok p)
  | pass {p : Progress} {n : Name} {rest reported : List Name} {result : Except Fault Progress}
      (hpass : belongs isOwnFile n = false ∨ n.span ∈ p.done) :
      Outlining isOwnFile p rest reported result → Outlining isOwnFile p (n :: rest) reported result
  | report {p : Progress} {n : Name} {kind : Int} {rest reported : List Name}
      {result : Except Fault Progress} (hshown : belongs isOwnFile n = true)
      (hopen : n.span ∉ p.done) (hkind : kindNumber? (p.kindOf n) = some kind) :
      Outlining isOwnFile (p.record n kind) (membersOf n ++ rest) reported result →
        Outlining isOwnFile p (n :: rest) (n :: reported) result
  | fail {p : Progress} {n : Name} {rest : List Name} (hshown : belongs isOwnFile n = true)
      (hopen : n.span ∉ p.done) (hkind : kindNumber? (p.kindOf n) = none) :
      Outlining isOwnFile p (n :: rest) [] (.error (.missingKey (.str (p.kindOf n))))

section

variable {isOwnFile : Name → Bool}

/-- **What one step can do**: a name is passed over, reported, or has no kind that could be told. -/
theorem look_cases (dotName : String) (p : Progress) (n : Name) :
    (belongs isOwnFile n = false ∨ n.span ∈ p.done) ∧
        look true dotName isOwnFile p n = .ok ([], p) ∨
      (belongs isOwnFile n = true ∧ n.span ∉ p.done) ∧
        ((∃ kind, kindNumber? (p.kindOf n) = some kind ∧
            look true dotName isOwnFile p n = .ok (membersOf n, p.record n kind)) ∨
          kindNumber? (p.kindOf n) = none ∧
            look true dotName isOwnFile p n = .error (.missingKey (.str (p.kindOf n)))) := by
  have hleft : isLeftOut true dotName isOwnFile p n = .ok (!belongs isOwnFile n, p) := rfl
  rw [look, hleft]
  cases hshown : belongs isOwnFile n with
  | false => exact .inl ⟨.inl rfl, rfl⟩
  | true =>
    simp only [Bool.not_true, addSymbol, List.contains_iff_mem]
    by_cases hdone : n.span ∈ p.done
    · exact .inl ⟨.inr hdone, if_pos hdone⟩
    · refine .inr ⟨⟨trivial, hdone⟩, ?_⟩
      rw [if_neg hdone]
      cases hkind : kindNumber? (p.kindOf n) with
      | none => exact .inr ⟨rfl, rfl⟩
      | some kind => exact .inl ⟨kind, rfl, rfl⟩

theorem outline_cons {withImports : Bool} {dotName : String} {p p' : Progress} {n : Name}
    {next : List Name} (h : look withImports dotName isOwnFile p n = .ok (next, p'))
    (rest : List Name) :
    outline withImports dotName isOwnFile p (n :: rest) =
      outline withImports dotName isOwnFile p' (next ++ rest) := by
  rw [outline]
  split
  · next heq =>
    cases h.symm.trans heq
    rfl
  · next heq => cases h.symm.trans heq

theorem exists_outlining (isOwnFile : Name → Bool) (dotName : String) (p : Progress)
    (names : List Name) :
    ∃ reported, Outlining isOwnFile p names reported
      (outline true dotName isOwnFile p names) := by
  fun_induction outline true dotName isOwnFile p names with
  | case1 p => exact ⟨[], .nil p⟩
  | case2 p n rest next p' hlook ih =>
    obtain ⟨reported, hrun⟩ := ih
    rcases look_cases dotName p n with ⟨hpass, h⟩ | ⟨⟨hshown, hopen⟩, ⟨kind, hkind, h⟩ | ⟨-, h⟩⟩
    · cases hlook.symm.trans h
      exact ⟨reported, .pass hpass hrun⟩
    · cases hlook.symm.trans h
      exact ⟨n :: reported, .report hshown hopen hkind hrun⟩
    · cases hlook.symm.trans h
  | case3 p n rest f hlook =>
    rcases look_cases dotName p n with ⟨-, h⟩ | ⟨⟨hshown, hopen⟩, ⟨_, -, h⟩ | ⟨hkind, h⟩⟩
    · cases hlook.symm.trans h
    · cases hlook.symm.trans h
    · cases hlook.symm.trans h
      exact ⟨[], .fail hshown hopen hkind⟩

namespace Outlining

variable {p : Progress} {names reported before : List Name} {result : Except Fault Progress}

theorem listed (h : Outlining isOwnFile p names reported result) :
    ∀ n ∈ reported, belongs isOwnFile n = true ∧ ComesUp names reported n := by
  induction h with
  | nil | fail => simp
  | pass _ _ ih =>
    intro n hn
    obtain ⟨hshown, hup⟩ := ih n hn
    exact ⟨hshown, hup.imp_left (List.mem_cons_of_mem _)⟩
  | @report p n kind rest reported result hshown _ _ _ ih =>
    refine List.forall_mem_cons.2 ⟨⟨hshown, comesUp_cons_iff.2 (.inl rfl)⟩, fun m hm => ?_⟩
    obtain ⟨hshown, hup⟩ := ih m hm
    exact ⟨hshown, comesUp_cons_iff.2 (.inr hup)⟩

theorem remembers {p' : Progress} (h : Outlining isOwnFile p names reported (.ok p'))
    (hp : Remembers before p) : Remembers (before ++ reported) p' := by
  generalize hresult : Except.ok p' = result at h
  induction h generalizing before with
  | nil =>
    cases hresult
    simpa using hp
  | pass _ _ ih => exact ih hp hresult
  | @report p n kind rest reported result _ _ _ _ ih =>
    have := ih (hp.record n kind) hresult
    rwa [List.append_assoc] at this
  | fail => cases hresult

theorem mem_or_closed {p' : Progress} (h : Outlining isOwnFile p names reported (.ok p'))
    (hp : Remembers before p) {d : Name} (hd : belongs isOwnFile d = true)
    (hup : ComesUp names reported d) :
    d ∈ reported ∨ Closed (before ++ reported) d.span := by
  generalize hresult : Except.ok p' = result at h
  induction h generalizing before with
  | nil => simp [ComesUp] at hup
  | @pass p n rest reported result hpass _ ih =>
    rcases hup with hlisted | hmember
    · rcases List.mem_cons.1 hlisted with rfl | hrest
      · rcases hpass with hpass | hdone
        · rw [hd] at hpass
          cases hpass
        · exact .inr (((hp.done _).1 hdone).append _)
      · exact ih hp (.inl hrest) hresult
    · exact ih hp (.inr hmember) hresult
  | @report p n kind rest reported result _ _ _ _ ih =>
    rcases comesUp_cons_iff.1 hup with rfl | hup
    · exact .inl List.mem_cons_self
    · have := ih (hp.record n kind) hup hresult
      rw [List.append_assoc, List.singleton_append] at this
      exact this.imp_left (List.mem_cons_of_mem _)
  | fail => cases hresult

theorem not_closed (h : Outlining isOwnFile p names reported result) (hp : Remembers before p)
    {earlier after : List Name} {n : Name} (heq : reported = earlier ++ n :: after) :
    ¬ Closed (before ++ earlier) n.span := by
  induction h generalizing before earlier with
  | nil | fail => simp at heq
  | pass _ _ ih => exact ih hp heq
  | @report p m kind rest reported result _ hopen _ _ ih =>
    cases earlier with
    | nil =>
      cases heq
      rwa [List.append_nil, ← hp.done]
    | cons _ earlier =>
      cases heq
      have := ih (hp.record m kind) rfl
      rwa [List.append_assoc] at this

theorem among (h : Outlining isOwnFile p names reported result) :
    ∀ n ∈ reported, Among names n := by
  induction h with
  | nil | fail => simp
  | pass _ _ ih => exact fun n hn => (ih n hn).cons _
  | @report p n kind rest reported result _ _ _ _ ih =>
    refine List.forall_mem_cons.2 ⟨.inl List.mem_cons_self, fun m hm => ?_⟩
    rcases ih m hm with hlisted | ⟨c, hc, hinside⟩
    · rcases List.mem_append.1 hlisted with hmember | hrest
      · exact .inr ⟨n, List.mem_cons_self, .member hmember⟩
      · exact .inl (List.mem_cons_of_mem _ hrest)
    · rcases List.mem_append.1 hc with hmember | hrest
      · exact .inr ⟨n, List.mem_cons_self, hinside.of_member hmember⟩
      · exact .inr ⟨c, List.mem_cons_of_mem _ hrest, hinside⟩

/-- A run fails at a name that shares its place with a class member of unknown kind. -/
theorem exists_of_error {f : Fault} (h : Outlining isOwnFile p names reported (.error f))
    (hp : Remembers before p) :
    ∃ n m, belongs isOwnFile n = true ∧ ComesUp names reported n ∧
      (∃ c ∈ before ++ reported, m ∈ membersOf c) ∧ m.span = n.span ∧
      kindNumber? m.kind = none ∧ f = .missingKey (.str m.kind) := by
  generalize hresult : Except.error f = result at h
  induction h generalizing before with
  | nil => cases hresult
  | pass _ _ ih =>
    obtain ⟨n, m, hshown, hup, hm⟩ := ih hp hresult
    exact ⟨n, m, hshown, hup.imp_left (List.mem_cons_of_mem _), hm⟩
  | @report p n kind rest reported result _ _ _ _ ih =>
    obtain ⟨d, m, hshown, hup, ⟨c, hc, hm⟩, hrest⟩ := ih (hp.record n kind) hresult
    rw [List.append_assoc] at hc
    exact ⟨d, m, hshown, comesUp_cons_iff.2 (.inr hup), ⟨c, hc, hm⟩, hrest⟩
  | @fail p n rest hshown _ hkind =>
    cases hresult
    obtain ⟨kind, hmember, hof⟩ := exists_of_kindNumber?_kindOf hshown hkind
    obtain ⟨c, hc, m, hm, hspan, rfl⟩ := hp.exists_of_memberKind? hmember
    rw [hof] at hkind ⊢
    have hplain := memberKind_of_unknown hkind
    rw [hplain] at hkind ⊢
    exact ⟨n, m, hshown, .inl List.mem_cons_self, ⟨c, by simpa using hc, hm⟩, hspan, hkind, rfl⟩

end Outlining

end

/-! ## Nothing twice -/

/-- In the middle of a list: the names in `past` have come up, and `inner` is left of what is inside
the last of them. Only a name that came up on the list can have left its place open. -/
structure Underway (reported past inner : List Name) : Prop where
  inside : ∀ n ∈ inner, MemberAt reported n.span ∧ ∃ top ∈ past.getLast?, Inside top n
  listed : ∀ e ∈ reported, Closed reported e.span ∨ e ∈ past
  nodup : (reported.map key).Nodup

namespace Underway

variable {reported past inner : List Name} {n : Name}

theorem nil : Underway [] [] [] := ⟨by simp, by simp, List.nodup_nil⟩

theorem pass_inner (h : Underway reported past (n :: inner)) : Underway reported past inner :=
  ⟨(List.forall_mem_cons.1 h.inside).2, h.listed, h.nodup⟩

theorem pass_listed (h : Underway reported past []) (n : Name) :
    Underway reported (past ++ [n]) [] :=
  ⟨by simp, fun e he => (h.listed e he).imp_right (List.mem_append_left _), h.nodup⟩

theorem nodup_append (h : Underway reported past inner) (hn : key n ∉ reported.map key) :
    ((reported ++ [n]).map key).Nodup := by
  rw [List.map_append, List.nodup_append]
  refine ⟨h.nodup, List.nodup_singleton _, fun a ha b hb => ?_⟩
  rintro rfl
  exact hn (List.mem_singleton.1 hb ▸ ha)

theorem report_inner (h : Underway reported past (n :: inner)) (hn : key n ∉ reported.map key) :
    Underway (reported ++ [n]) past (membersOf n ++ inner) := by
  obtain ⟨⟨hmember, top, htop, hinside⟩, hinner⟩ := List.forall_mem_cons.1 h.inside
  refine ⟨fun m hm => ?_, fun e he => ?_, h.nodup_append hn⟩
  · rcases List.mem_append.1 hm with hm | hm
    · exact ⟨⟨n, by simp, m, hm, rfl⟩, top, htop, hinside.deeper hm⟩
    · exact ⟨(hinner m hm).1.append _, (hinner m hm).2⟩
  · rcases List.mem_append.1 he with he | he
    · exact (h.listed e he).imp_left (·.append _)
    · cases List.mem_singleton.1 he
      exact .inl (closed_append_singleton_iff.2 (.inr ⟨rfl, hmember⟩))

theorem report_listed (h : Underway reported past []) (hn : key n ∉ reported.map key) :
    Underway (reported ++ [n]) (past ++ [n]) (membersOf n) := by
  refine ⟨fun m hm => ⟨⟨n, by simp, m, hm, rfl⟩, n, by simp, .member hm⟩, fun e he => ?_,
    h.nodup_append hn⟩
  rcases List.mem_append.1 he with he | he
  · exact (h.listed e he).imp (·.append _) (List.mem_append_left _)
  · exact .inr (List.mem_append_right _ he)

theorem exists_past (h : Underway reported past inner) (hopen : ¬ Closed reported n.span)
    (hkey : key n ∈ reported.map key) : ∃ e ∈ past, key e = key n := by
  obtain ⟨e, he, heq⟩ := List.mem_map.1 hkey
  have hspan : e.span = n.span := congrArg Prod.snd heq
  exact ⟨e, (h.listed e he).resolve_left (hspan ▸ hopen), heq⟩

variable {left : List Name}

/-- A member that comes up at an open place has not been reported: the list would have had it before
its class. -/
theorem fresh_inner (h : Underway reported past (n :: inner)) (hfirst : ClassesFirst (past ++ left))
    (hopen : ¬ Closed reported n.span) : key n ∉ reported.map key := by
  intro hkey
  obtain ⟨e, hpast, heq⟩ := h.exists_past hopen hkey
  obtain ⟨-, top, htop, hinside⟩ := h.inside n List.mem_cons_self
  obtain ⟨past, rfl⟩ := List.getLast?_eq_some_iff.1 htop
  rcases List.mem_append.1 hpast with hpast | hlast
  · have hbefore := (List.pairwise_append.1 (List.pairwise_append.1 hfirst.before).1).2.2
    exact hbefore e hpast top List.mem_cons_self n hinside heq.symm
  · cases List.mem_singleton.1 hlast
    exact hfirst.apart e (by simp) n hinside heq.symm

theorem fresh_listed (h : Underway reported past []) (hfirst : ClassesFirst (past ++ n :: left))
    (hopen : ¬ Closed reported n.span) : key n ∉ reported.map key := by
  intro hkey
  obtain ⟨e, hpast, heq⟩ := h.exists_past hopen hkey
  have hdistinct := hfirst.distinct
  rw [List.map_append, List.nodup_append] at hdistinct
  exact hdistinct.2.2 _ (List.mem_map_of_mem hpast) _ (by simp) heq

end Underway

/-- **Nothing is reported twice.** -/
theorem Outlining.nodup {isOwnFile : Name → Bool} {p : Progress} {names reported : List Name}
    {result : Except Fault Progress} (h : Outlining isOwnFile p names reported result) :
    ∀ {before past inner left : List Name}, names = inner ++ left → ClassesFirst (past ++ left) →
      Remembers before p → Underway before past inner → ((before ++ reported).map key).Nodup := by
  induction h with
  | nil | fail =>
    intro before past inner left _ _ _ hunder
    simpa using hunder.nodup
  | @pass p n rest reported result _ _ ih =>
    intro before past inner left heq hfirst hp hunder
    cases inner with
    | nil =>
      cases heq
      exact ih rfl (by simpa using hfirst) hp (hunder.pass_listed n)
    | cons _ inner =>
      cases heq
      exact ih rfl hfirst hp hunder.pass_inner
  | @report p n kind rest reported result _ hopen _ _ ih =>
    intro before past inner left heq hfirst hp hunder
    rw [hp.done] at hopen
    rw [← List.singleton_append, ← List.append_assoc]
    cases inner with
    | nil =>
      cases heq
      exact ih rfl (by simpa using hfirst) (hp.record n kind)
        (hunder.report_listed (hunder.fresh_listed hfirst hopen))
    | cons _ inner =>
      cases heq
      exact ih (List.append_assoc ..).symm hfirst (hp.record n kind)
        (hunder.report_inner (hunder.fresh_inner hfirst hopen))

/-! ## The answer -/

section

variable {isOwnFile : Name → Bool} {found reported : List Name} {p : Progress} {n : Name}

/-- **What comes up is reported unless its place was taken.** -/
theorem Outlining.key_mem_iff (h : Outlining isOwnFile {} found reported (.ok p))
    (hshown : belongs isOwnFile n = true) (hup : ComesUp found reported n) :
    key n ∈ reported.map key ↔ ¬ Taken reported n := by
  constructor
  · rintro hmem ⟨before, e, after, rfl, hspan, hmember, hnot⟩
    have hafter : key n ∈ after.map key := by
      rw [List.map_append, List.map_cons, ← List.singleton_append, ← List.append_assoc] at hmem
      exact (List.mem_append.1 hmem).resolve_left (by simpa using hnot)
    obtain ⟨m, hm, heq⟩ := List.mem_map.1 hafter
    obtain ⟨earlier, later, rfl⟩ := List.append_of_mem hm
    have hspan' : m.span = n.span := congrArg Prod.snd heq
    have hopen : ¬ Closed (before ++ e :: earlier) m.span :=
      h.not_closed .nil (List.append_assoc before (e :: earlier) (m :: later)).symm
    exact hopen ⟨before, e, earlier, rfl, hspan.trans hspan'.symm, hspan' ▸ hmember⟩
  · intro hnot
    rcases h.mem_or_closed .nil hshown hup with hmem | ⟨before, e, after, rfl, hspan, hmember⟩
    · exact List.mem_map_of_mem hmem
    · by_contra hkey
      refine hnot ⟨before, e, after, rfl, hspan, hmember, fun hmem => hkey ?_⟩
      rw [← List.singleton_append, ← List.append_assoc, List.map_append]
      exact List.mem_append_left _ hmem

end

/-- The names that the engine finds for an outline, with the setting for imported ones. -/
def listing (c : Caller) : Job (Value × List Name) := do
  let settings ← Host.pluginSettings c.config "jedi_symbols" .null
  let allScopes ← liftExcept (settings.getD "all_scopes" (.bool true))
  let withImports ← liftExcept (settings.getD "include_import_symbols" (.bool true))
  let found ← Engine.names allScopes (.bool true) (.bool false)
  return (withImports, found)

theorem symbols_eq (c : Caller) : symbols c = do
    let (withImports, found) ← listing c
    let d ← Job.document
    let fs ← Job.files
    let p ← liftExcept (outline withImports.truthy d.dotName (isInFile fs d.path) {} found)
    return .list (p.symbols.map (·.toValue d.uri)) := by
  simp only [symbols, listing, bind_assoc, pure_bind]

theorem moves_listing (c : Caller) : Moves (Desk.Along Host.Work) (listing c) :=
  (Host.moves_pluginSettings_work _ _ _).liftJob.bind fun _ => (Moves.ofExcept _).bind fun _ =>
    (Moves.ofExcept _).bind fun _ => (Engine.moves_query _ _ _ _).bind fun _ => Moves.pure _

theorem ensures_symbols {c : Caller} {desk desk' : Desk} {d : Document} {withImports : Value}
    {found : List Name} (hdocument : desk.document = some d)
    (hlisting : listing c desk = .ok (withImports, found) desk')
    (good : Value → Desk → Prop) (bad : Fault → Desk → Prop) :
    Ensures (symbols c) desk good bad ↔
      (∀ p, outline withImports.truthy d.dotName (isInFile desk.host.machine.files d.path) {}
        found = .ok p → good (.list (p.symbols.map (·.toValue d.uri))) desk') ∧
      ∀ f, outline withImports.truthy d.dotName (isInFile desk.host.machine.files d.path) {}
        found = .error f → bad f desk' := by
  have hsteps := (moves_listing c desk).ok hlisting
  have hdocument' := (Desk.document_of_along hsteps).trans hdocument
  have hmachine := (Host.intact_of_steps (Desk.host_of_along hsteps)).machine
  rw [symbols_eq, ensures_bind, Ensures, hlisting]
  simp only [Job.document, Job.files, ensures_bind, ensures_get, ensures_pure, hdocument', hmachine]
  exact ensures_liftExcept _ _ _ _

theorem Symbol.key_eq_of_toValue_eq {uri : String} {s t : Symbol}
    (h : s.toValue uri = t.toValue uri) : s.key = t.key := by
  obtain ⟨name, container, ⟨⟨a, b⟩, ⟨c, d⟩⟩, kind⟩ := s
  obtain ⟨name', container', ⟨⟨a', b'⟩, ⟨c', d'⟩⟩, kind'⟩ := t
  simp_all [Symbol.toValue, Value.range, Value.position, Symbol.key]

theorem map_key_eq_of_map_toValue_eq {uri : String} {ss ts : List Symbol}
    (h : ss.map (·.toValue uri) = ts.map (·.toValue uri)) :
    ss.map Symbol.key = ts.map Symbol.key := by
  induction ss generalizing ts with
  | nil =>
    rw [List.map_nil, eq_comm, List.map_eq_nil_iff] at h
    rw [h]
  | cons s ss ih =>
    cases ts with
    | nil => cases h
    | cons t ts =>
      obtain ⟨hs, hrest⟩ := List.cons_eq_cons.1 h
      rw [List.map_cons, List.map_cons, Symbol.key_eq_of_toValue_eq hs, ih hrest]

/-- **A definition is reported once, unless its place was taken by another.** The names come from
any list in which a class is before all that is inside it, and imported names are wanted. There is
an answer unless a name shares its place with a class member of unknown kind. -/
theorem symbols_once_unless_taken {c : Caller} {desk desk' : Desk} {d : Document}
    {withImports : Value} {found : List Name} (hdocument : desk.document = some d)
    (hlisting : listing c desk = .ok (withImports, found) desk')
    (himports : withImports.truthy = true) (hfirst : ClassesFirst found) :
    Ensures (symbols c) desk
      (fun answer _ => ∃ (shown : List Symbol) (reported : List Name),
        answer = .list (shown.map (·.toValue d.uri)) ∧ shown.map Symbol.key = reported.map key ∧
        (∀ n ∈ reported, belongs (isInFile desk.host.machine.files d.path) n = true ∧
          ComesUp found reported n) ∧
        ∀ n, belongs (isInFile desk.host.machine.files d.path) n = true → ComesUp found reported n →
          (shown.map Symbol.key).count (key n) ≤ 1 ∧
            ((shown.map Symbol.key).count (key n) = 1 ↔ ¬ Taken reported n))
      fun f _ => ∃ n m, belongs (isInFile desk.host.machine.files d.path) n = true ∧ Among found n ∧
        (∃ c, Among found c ∧ m ∈ membersOf c) ∧ m.span = n.span ∧ kindNumber? m.kind = none ∧
        f = .missingKey (.str m.kind) := by
  obtain ⟨reported, hrun⟩ := exists_outlining (isInFile desk.host.machine.files d.path) d.dotName {}
    found
  rw [ensures_symbols hdocument hlisting, himports]
  constructor
  · intro p hp
    rw [hp] at hrun
    have hkeys : p.symbols.map Symbol.key = reported.map key := (hrun.remembers .nil).symbols
    have hnodup : (p.symbols.map Symbol.key).Nodup := by
      rw [hkeys]
      rw [← List.nil_append found] at hfirst
      exact hrun.nodup (List.nil_append found).symm hfirst .nil .nil
    refine ⟨p.symbols, reported, rfl, hkeys, hrun.listed, fun n hshown hup => ?_⟩
    rw [← hrun.key_mem_iff hshown hup, ← hkeys]
    refine ⟨List.nodup_iff_count_le_one.1 hnodup _, fun hone => ?_, List.count_eq_one_of_mem hnodup⟩
    exact List.count_pos_iff.1 (by omega)
  · intro f hf
    rw [hf] at hrun
    obtain ⟨n, m, hshown, hup, ⟨c, hc, hm⟩, hspan⟩ := hrun.exists_of_error .nil
    have hamong : ∀ c ∈ reported, Among found c := hrun.among
    refine ⟨n, m, hshown, ?_, ⟨c, hamong c hc, hm⟩, hspan⟩
    rcases hup with hn | ⟨c, hc, hn⟩
    · exact .inl hn
    · exact (hamong c hc).of_member hn

/-- A name in a class, defined in one statement with others. -/
def chained (name : String) : Name where
  name
  modulePath := some "/w/a.py"
  span := ((2, 4), (2, 13))

/-- A class with a statement that defines two names. -/
def chainedClass : Name where
  name := "A"
  kind := "class"
  modulePath := some "/w/a.py"
  span := ((1, 0), (3, 0))
  definedNames := .ok [chained "x", chained "y"]

/-- The document with this class. -/
def chainedDocument : Document where
  uri := "file:///w/a.py"
  path := "/w/a.py"
  dotName := "a"
  filename := "a.py"
  source := .text "class A:\n    x = y = 1\n"

def chainedDesk : Desk where
  host := {
    machine := { files := ⟨[("/w/a.py", "class A:\n    x = y = 1\n")]⟩ }
    engines := { names := .ok [chainedClass, chained "x", chained "y"] }
    spaces := [{
      rootUri := "file:///w", scheme := "file", rootPath := "/w"
      config := some { id := 1, rootUri := "file:///w", rootPath := "/w" } }] }
  document := some chainedDocument

theorem not_inside_chained (name : String) (m : Name) : ¬ Inside (chained name) m := by
  intro h
  induction h with
  | member hm => cases hm
  | deeper _ _ ih => exact ih

theorem mem_of_inside_chainedClass {m : Name} (h : Inside chainedClass m) :
    m = chained "x" ∨ m = chained "y" := by
  induction h with
  | member hm =>
    change _ ∈ [chained "x", chained "y"] at hm
    simpa using hm
  | deeper _ hm ih =>
    rcases ih with rfl | rfl <;> cases hm

theorem classesFirst_chained : ClassesFirst [chainedClass, chained "x", chained "y"] where
  distinct := by decide
  before := by
    simp only [List.pairwise_cons, List.forall_mem_cons]
    simp [not_inside_chained]
  apart := by
    simp only [List.forall_mem_cons]
    refine ⟨fun m hm => ?_, fun m hm => absurd hm (not_inside_chained _ _),
      fun m hm => absurd hm (not_inside_chained _ _), by simp⟩
    rcases mem_of_inside_chainedClass hm with rfl | rfl <;> decide

theorem outline_chained : ∃ p,
    outline true chainedDocument.dotName
      (isInFile chainedDesk.host.machine.files chainedDocument.path) {}
      [chainedClass, chained "x", chained "y"] = .ok p ∧
    p.symbols.map Symbol.key = [key chainedClass, key (chained "x")] := by
  let step := look true chainedDocument.dotName
    (isInFile chainedDesk.host.machine.files chainedDocument.path)
  let p : Progress := Progress.record {} chainedClass 5
  let p' : Progress := p.record (chained "x") 8
  have hclass : step {} chainedClass = .ok ([chained "x", chained "y"], p) := rfl
  have hmember : step p (chained "x") = .ok ([], p') := rfl
  have hx : step p' (chained "x") = .ok ([], p') := rfl
  have hy : step p' (chained "y") = .ok ([], p') := rfl
  refine ⟨p', ?_, rfl⟩
  rw [outline_cons hclass, List.cons_append, outline_cons hmember, List.nil_append,
    List.cons_append, outline_cons hy, List.nil_append, List.nil_append, outline_cons hx,
    List.nil_append, outline_cons hy, List.nil_append, outline]

theorem listing_chained : ∃ desk', listing ⟨0, 0⟩ chainedDesk =
    .ok (.bool true, [chainedClass, chained "x", chained "y"]) desk' := ⟨_, rfl⟩

/-- The first name closes the place, and the second is lost. -/
theorem chained_name_taken :
    ClassesFirst [chainedClass, chained "x", chained "y"] ∧
      ∃ answer desk', symbols ⟨0, 0⟩ chainedDesk = .ok answer desk' ∧
        ∃ (shown : List Symbol) (reported : List Name),
          answer = .list (shown.map (·.toValue chainedDocument.uri)) ∧
          shown.map Symbol.key = [key chainedClass, key (chained "x")] ∧
          ¬ Taken reported (chained "x") ∧ Taken reported (chained "y") := by
  obtain ⟨desk', hlisting⟩ := listing_chained
  obtain ⟨p, hp, hkeys⟩ := outline_chained
  have hdocument : chainedDesk.document = some chainedDocument := rfl
  have hx : belongs (isInFile chainedDesk.host.machine.files chainedDocument.path)
    (chained "x") = true := rfl
  have hy : belongs (isInFile chainedDesk.host.machine.files chainedDocument.path)
    (chained "y") = true := rfl
  refine ⟨classesFirst_chained, ?_⟩
  -- The desk is hidden from here on, so that the request is not run again at every step.
  generalize chainedDesk = desk at *
  have hanswer : Ensures (symbols ⟨0, 0⟩) desk
      (fun answer _ => answer = .list (p.symbols.map (·.toValue chainedDocument.uri)))
      fun _ _ => False := by
    rw [ensures_symbols hdocument hlisting]
    exact ⟨fun p' hp' => by cases hp.symm.trans hp'; rfl, fun f hf => by cases hp.symm.trans hf⟩
  obtain ⟨answer, desk', hrun, rfl⟩ := hanswer.exists_ok
  obtain ⟨shown, reported, heq, -, -, honce⟩ :=
    (symbols_once_unless_taken hdocument hlisting rfl classesFirst_chained).ok hrun
  have hshown : shown.map Symbol.key = [key chainedClass, key (chained "x")] := by
    rw [← hkeys]
    exact (map_key_eq_of_map_toValue_eq (Value.list.inj heq)).symm
  rw [hshown] at honce
  refine ⟨_, desk', hrun, shown, reported, heq, hshown, ?_, ?_⟩
  · exact (honce _ hx (.inl (by simp))).2.1 (by decide)
  · by_contra hnot
    exact absurd ((honce _ hy (.inl (by simp))).2.2 hnot) (by decide)

end LangServer.Symbols
