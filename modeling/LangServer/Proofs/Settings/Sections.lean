import LangServer.Proofs.Action
import LangServer.Proofs.Members
import LangServer.Proofs.Trimming

/-!
# Options that stand in a settings file

A settings file is read line by line. `Reader.Step` says all that a line can do to the reader: a
line opens a section, sets an option of the open section or goes on with the value of the open
option, and some lines do nothing.

* While an option is open, the lines after it add to its value (`Reader.of_lines_continue`).
* Once another line has been read that begins something new, nothing changes the value any more, or
  the file cannot be read (`Reader.Begun.settled`, `Reader.Step.settled`).
* So the value of an option is what stands on its line and on the lines that go on with it, whatever
  else is in the file (`hasValue_of_read`), and files that do not set it leave it
  (`HasValue.of_read`).
-/

namespace LangServer.Settings.Ini

open Text

/-! ## Lines -/

/-- How many blanks a line begins with. -/
def indentOf (line : List Char) : Nat := (line.takeWhile isBlank).length

/-- The first mark of the line makes it a comment. -/
def isComment (line : List Char) : Bool :=
  (trim line).head? == some '#' || (trim line).head? == some ';'

/-- A line that goes on with the option before it, if that is not indented. -/
def Continues (line : List Char) : Prop :=
  isComment line = true ∨ trim line = [] ∨ 0 < indentOf line

/-- A line that does not go on with the option before it. -/
structure Begins (line : List Char) : Prop where
  not_comment : isComment line = false
  not_blank : trim line ≠ []
  not_indented : indentOf line = 0

/-- What a line adds to the value of the open option. -/
def addition? (line : List Char) : Option (List Char) :=
  if isComment line then none else some (trim line)

/-- A line with the name of an option on it. -/
def Sets (key : String) (line : List Char) : Prop :=
  ∃ option value, option? (trim line) = some (option, value) ∧ String.ofList (lower option) = key

namespace Reader

/-- The lines of an option's value, the last first. -/
def stored (r : Reader) (name key : String) : Option (List String) :=
  (Value.lookup name r.sections).bind (Value.lookup key)

/-- A line that begins something new. -/
def fresh (r : Reader) (n : Nat) (line : List Char) : Except Problem Reader :=
  match sectionName? (trim line), r.current with
  | some name, _ => r.open n name
  | none, none => .error (.noHeader r.file n (String.ofList line))
  | none, some name =>
    match option? (trim line) with
    | none => .ok { r with bad := r.bad ++ [(n, String.ofList line)] }
    | some (key, value) =>
      let bad := if key.isEmpty then r.bad ++ [(n, String.ofList line)] else r.bad
      let key := String.ofList (lower key)
      if r.given.contains (name, key) then .error (.repeatedOption r.file n name key)
      else .ok (({ r with bad, option := key, given := (name, key) :: r.given } : Reader).modify
        name (Value.insert key [String.ofList value]))

section

variable {r r' : Reader} {n : Nat} {line : List Char}

theorem line_of_comment (h : isComment line = true) : r.line n line = .ok r := by
  rw [isComment] at h
  simp only [Reader.line, h]
  rfl

theorem line_of_blank (h : trim line = []) :
    r.line n line = .ok (match r.current with
      | some name => if r.option.isEmpty then r else r.extend name ""
      | none => r) := by
  simp only [Reader.line, h]
  cases r.current <;> rfl

theorem line_of_deeper {name : String} (hcomment : isComment line = false)
    (hblank : trim line ≠ []) (hcurrent : r.current = some name) (hoption : r.option ≠ "")
    (hdeeper : r.indent < indentOf line) :
    r.line n line = .ok (r.extend name (String.ofList (trim line))) := by
  rw [isComment] at hcomment
  have hnonblank : (trim line).isEmpty = false := List.isEmpty_eq_false_iff.2 hblank
  have hopen : r.option.isEmpty = false := by simpa using hoption
  rw [indentOf] at hdeeper
  simp only [Reader.line, hcomment, hnonblank, hcurrent, hopen, decide_eq_true hdeeper,
    Bool.false_eq_true, if_false]
  rfl

theorem line_of_fresh (hcomment : isComment line = false) (hblank : trim line ≠ [])
    (hfresh : ∀ name, r.current = some name → r.option = "" ∨ indentOf line ≤ r.indent) :
    r.line n line = ({ r with indent := indentOf line } : Reader).fresh n line := by
  rw [isComment] at hcomment
  have hnonblank : (trim line).isEmpty = false := List.isEmpty_eq_false_iff.2 hblank
  simp only [Reader.line, fresh, hcomment, hnonblank, Bool.false_eq_true, if_false]
  cases hcurrent : r.current with
  | none =>
    cases sectionName? (trim line) <;> rfl
  | some name =>
    have hclosed : (!r.option.isEmpty && decide (r.indent < indentOf line)) = false := by
      rcases hfresh name hcurrent with hoption | hindent
      · rw [hoption]
        rfl
      · rw [decide_eq_false (Nat.not_lt.2 hindent), Bool.and_false]
    rw [indentOf] at hclosed
    simp only [hclosed]
    cases sectionName? (trim line) with
    | some name' => rfl
    | none =>
      dsimp only
      cases option? (trim line) with
      | none => rfl
      | some pair =>
        obtain ⟨key, value⟩ := pair
        cases hempty : key.isEmpty <;>
          cases hgiven : r.given.contains (name, String.ofList (lower key)) <;>
          simp only [hempty, hgiven, Bool.false_eq_true, if_false, if_true] <;> rfl

theorem line_of_begins (h : Begins line) :
    r.line n line = ({ r with indent := indentOf line } : Reader).fresh n line :=
  line_of_fresh h.not_comment h.not_blank fun _ _ => .inr (h.not_indented.symm ▸ Nat.zero_le _)

/-- **What a line that begins something new can do**: it opens a section, it is refused, or it sets
an option of the open section. -/
inductive Begun (r : Reader) (n : Nat) (line : List Char) : Reader → Prop where
  | opened {name : String} {r' : Reader} (hname : sectionName? (trim line) = some name)
      (hopen : r.open n name = .ok r') : Begun r n line r'
  | refused : Begun r n line { r with bad := r.bad ++ [(n, String.ofList line)] }
  | set {name key : String} (value : String) {bad : List (Nat × String)}
      (hcurrent : r.current = some name) (hsets : Sets key line) (hnew : (name, key) ∉ r.given)
      (hbad : r.bad <+: bad) :
      Begun r n line (({ r with bad, option := key, given := (name, key) :: r.given } :
        Reader).modify name (Value.insert key [value]))

theorem begun_of_fresh (h : r.fresh n line = .ok r') : Begun r n line r' := by
  rw [fresh] at h
  split at h
  · next name hname => exact .opened hname h
  · cases h
  · next name hname hcurrent =>
    split at h
    · exact Except.ok.inj h ▸ .refused
    · next key value hoption =>
      dsimp only at h
      split at h
      · cases h
      · next hgiven =>
        obtain rfl := Except.ok.inj h
        refine .set (String.ofList value) hcurrent ⟨key, value, hoption, rfl⟩ ?_ ?_
        · simpa using hgiven
        · split
          · exact List.prefix_append _ _
          · exact List.prefix_refl _

/-- **What a line can do.** -/
inductive Step (r : Reader) (n : Nat) (line : List Char) : Reader → Prop where
  | kept : Step r n line r
  | extended {name : String} (text : String) (hcurrent : r.current = some name)
      (hoption : r.option ≠ "") : Step r n line (r.extend name text)
  | begun {r' : Reader} (h : Begun { r with indent := indentOf line } n line r') : Step r n line r'

theorem step_of_line (h : r.line n line = .ok r') : Step r n line r' := by
  cases hcomment : isComment line with
  | true =>
    rw [line_of_comment hcomment] at h
    exact Except.ok.inj h ▸ .kept
  | false =>
    by_cases hblank : trim line = []
    · rw [line_of_blank hblank] at h
      obtain rfl := Except.ok.inj h
      cases hcurrent : r.current with
      | none => exact .kept
      | some name =>
        dsimp only
        split
        · exact .kept
        · next hoption => exact .extended "" hcurrent (by simpa using hoption)
    · by_cases hdeeper : ∃ name, r.current = some name ∧ r.option ≠ "" ∧ r.indent < indentOf line
      · obtain ⟨name, hcurrent, hoption, hdeeper⟩ := hdeeper
        rw [line_of_deeper hcomment hblank hcurrent hoption hdeeper] at h
        exact Except.ok.inj h ▸ .extended _ hcurrent hoption
      · rw [line_of_fresh hcomment hblank ?_] at h
        · exact .begun (begun_of_fresh h)
        · intro name hcurrent
          by_contra hboth
          rw [not_or, Nat.not_le] at hboth
          exact hdeeper ⟨name, hcurrent, hboth⟩

end

/-! ## Changes of one section -/

section

variable {r r' : Reader} {name key other : String}
  {f : List (String × List String) → List (String × List String)}

@[simp] theorem current_modify : (r.modify name f).current = r.current := by
  rw [modify]
  split <;> rfl

@[simp] theorem option_modify : (r.modify name f).option = r.option := by
  rw [modify]
  split <;> rfl

@[simp] theorem indent_modify : (r.modify name f).indent = r.indent := by
  rw [modify]
  split <;> rfl

@[simp] theorem given_modify : (r.modify name f).given = r.given := by
  rw [modify]
  split <;> rfl

@[simp] theorem bad_modify : (r.modify name f).bad = r.bad := by
  rw [modify]
  split <;> rfl

theorem stored_modify_of_ne (h : name ≠ other) :
    (r.modify other f).stored name key = r.stored name key := by
  rw [modify]
  split
  · rfl
  · rw [stored, stored, Value.lookup_insert, if_neg h]

theorem stored_modify (h : name ≠ defaultName) :
    (r.modify name f).stored name key =
      Value.lookup key (f ((Value.lookup name r.sections).getD [])) := by
  rw [modify, if_neg fun hboth => h hboth.1, stored, Value.lookup_insert_self]
  rfl

theorem lookup_of_stored {lines : List String} (h : r.stored name key = some lines) :
    Value.lookup key ((Value.lookup name r.sections).getD []) = some lines := by
  obtain ⟨options, hoptions, hlines⟩ := Option.bind_eq_some_iff.1 h
  rw [hoptions]
  exact hlines

theorem stored_insert_of_ne (hname : name ≠ defaultName) {other option : String}
    (lines : List (String × List String) → List String) (hne : (name, key) ≠ (other, option)) :
    (r.modify other fun options => Value.insert option (lines options) options).stored name key =
      r.stored name key := by
  by_cases hother : name = other
  · subst hother
    have hoption : key ≠ option := fun h => hne (by rw [h])
    rw [stored_modify hname, Value.lookup_insert, if_neg hoption, stored]
    cases Value.lookup name r.sections <;> rfl
  · exact stored_modify_of_ne hother

theorem of_open {n : Nat} (h : r.open n other = .ok r') :
    r'.current = some other ∧ r'.option = "" ∧ r'.given = r.given ∧ r'.bad = r.bad ∧
      ∀ {name key lines}, r.stored name key = some lines → r'.stored name key = some lines := by
  rw [Reader.open] at h
  split at h
  · split at h
    · cases h
    · obtain rfl := Except.ok.inj h
      exact ⟨rfl, rfl, rfl, rfl, fun hstored => hstored⟩
  · next hnone =>
    split at h
    · obtain rfl := Except.ok.inj h
      exact ⟨rfl, rfl, rfl, rfl, fun hstored => hstored⟩
    · obtain rfl := Except.ok.inj h
      refine ⟨rfl, rfl, rfl, rfl, fun {name key lines} hstored => ?_⟩
      -- a section with options in it was there before
      obtain ⟨options, hoptions, -⟩ := Option.bind_eq_some_iff.1 hstored
      have hne : name ≠ other := by
        rintro rfl
        rw [hoptions] at hnone
        exact hnone rfl
      rw [stored, Value.lookup_insert, if_neg hne]
      exact hstored

end

/-! ## The value of an option -/

/-- The file has set the option, and its value has these lines. -/
structure Holds (r : Reader) (name key : String) (lines : List String) : Prop where
  given : (name, key) ∈ r.given
  stored : r.stored name key = some lines

/-- The lines that follow may go on with the option, whose line is not indented. -/
structure IsOpen (r : Reader) (name key : String) : Prop where
  current : r.current = some name
  option : r.option = key
  indent : r.indent = 0

/-- The option has a value and is not open, or the file cannot be read. -/
def Settled (r : Reader) (name key : String) (lines : List String) : Prop :=
  r.bad ≠ [] ∨ r.stored name key = some lines ∧ (r.current = some name → r.option ≠ key)

section

variable {r r' : Reader} {n : Nat} {line : List Char} {name key : String} {lines : List String}

theorem Begun.bad (h : Begun r n line r') : r.bad <+: r'.bad := by
  cases h with
  | opened _ hopen =>
    obtain ⟨-, -, -, hbad, -⟩ := of_open hopen
    exact hbad ▸ List.prefix_refl _
  | refused => exact List.prefix_append _ _
  | set _ _ _ _ hbad => simpa using hbad

theorem Begun.given (h : Begun r n line r') : r.given ⊆ r'.given := by
  cases h with
  | opened _ hopen =>
    obtain ⟨-, -, hgiven, -, -⟩ := of_open hopen
    exact hgiven ▸ List.Subset.refl _
  | refused => exact List.Subset.refl _
  | set =>
    rw [given_modify]
    exact List.subset_cons_self _ _

theorem Step.given (h : Step r n line r') : r.given ⊆ r'.given := by
  cases h with
  | kept => exact List.Subset.refl _
  | extended =>
    rw [extend, given_modify]
    exact List.Subset.refl _
  | begun hbegun => exact hbegun.given

/-- **Where something new begins, the value of an option is settled**: the option was given before,
or the line is not its own. -/
theorem Begun.settled (h : Begun r n line r') (hname : name ≠ defaultName) (hkey : key ≠ "")
    (hr : r.stored name key = some lines) (hother : (name, key) ∈ r.given ∨ ¬ Sets key line) :
    r'.Settled name key lines := by
  cases h with
  | opened _ hopen =>
    obtain ⟨-, hoption, -, -, hstored⟩ := of_open hopen
    refine .inr ⟨hstored hr, fun _ => ?_⟩
    rw [hoption]
    exact hkey.symm
  | refused => exact .inl (List.append_ne_nil_of_right_ne_nil _ (List.cons_ne_nil _ _))
  | @set other option _ _ hcurrent hsets hnew _ =>
    have hne : (name, key) ≠ (other, option) := by
      rintro heq
      obtain ⟨rfl, rfl⟩ := Prod.mk.inj heq
      exact hother.elim hnew fun h => h hsets
    refine .inr ⟨?_, ?_⟩
    · rw [stored_insert_of_ne hname (fun _ => _) hne]
      exact hr
    · rw [current_modify, option_modify]
      rintro hsame rfl
      obtain rfl := Option.some_inj.1 (hcurrent.symm.trans hsame)
      exact hne rfl

/-- **It stays settled.** -/
theorem Step.settled (h : Step r n line r') (hname : name ≠ defaultName) (hkey : key ≠ "")
    (hr : r.Settled name key lines) (hother : (name, key) ∈ r.given ∨ ¬ Sets key line) :
    r'.Settled name key lines := by
  cases h with
  | kept => exact hr
  | @extended other text hcurrent _ =>
    rcases hr with hbad | ⟨hstored, hclosed⟩
    · exact .inl (by rwa [extend, bad_modify])
    · have hne : (name, key) ≠ (other, r.option) := by
        intro heq
        obtain ⟨rfl, rfl⟩ := Prod.mk.inj heq
        exact hclosed hcurrent rfl
      refine .inr ⟨?_, ?_⟩
      · rw [extend, stored_insert_of_ne hname _ hne]
        exact hstored
      · rwa [extend, current_modify, option_modify]
  | begun hbegun =>
    rcases hr with hbad | ⟨hstored, -⟩
    · exact .inl fun hnil => hbad (List.prefix_nil.1 (hnil ▸ hbegun.bad))
    · exact hbegun.settled hname hkey hstored hother

theorem settled_of_lines (hname : name ≠ defaultName) (hkey : key ≠ "") {ls : List (List Char)}
    (hr : r.Settled name key lines) (hother : (name, key) ∈ r.given ∨ ∀ l ∈ ls, ¬ Sets key l)
    (h : r.lines n ls = .ok r') : r'.Settled name key lines := by
  induction ls generalizing r n with
  | nil => exact Except.ok.inj h ▸ hr
  | cons l ls ih =>
    obtain ⟨r₁, hr₁, h⟩ := exists_of_bind_eq_ok h
    have hstep := step_of_line hr₁
    refine ih (hstep.settled hname hkey hr ?_) ?_ h
    · exact hother.imp_right fun hls => hls l List.mem_cons_self
    · exact hother.imp (fun hgiven => hstep.given hgiven)
        fun hls l' hl' => hls l' (List.mem_cons_of_mem l hl')

theorem of_extend (hname : name ≠ defaultName) (hopen : r.IsOpen name key)
    (hr : r.Holds name key lines) (text : String) :
    (r.extend name text).IsOpen name key ∧ (r.extend name text).Holds name key (text :: lines) := by
  refine ⟨⟨?_, ?_, ?_⟩, ⟨?_, ?_⟩⟩
  · rw [extend, current_modify]
    exact hopen.current
  · rw [extend, option_modify]
    exact hopen.option
  · rw [extend, indent_modify]
    exact hopen.indent
  · rw [extend, given_modify]
    exact hr.given
  · rw [extend, stored_modify hname, hopen.option, Value.lookup_insert_self,
      lookup_of_stored hr.stored]
    rfl

/-- **A line that goes on with the open option** adds what stands on it. -/
theorem line_of_continues (hname : name ≠ defaultName) (hkey : key ≠ "")
    (hopen : r.IsOpen name key) (hr : r.Holds name key lines) (h : Continues line) :
    ∃ r', r.line n line = .ok r' ∧ r'.IsOpen name key ∧
      r'.Holds name key ((addition? line).toList.map String.ofList ++ lines) := by
  cases hcomment : isComment line with
  | true =>
    refine ⟨r, line_of_comment hcomment, hopen, ?_⟩
    rw [addition?, if_pos hcomment]
    exact hr
  | false =>
    have hadded : addition? line = some (trim line) := by
      rw [addition?, hcomment, if_neg Bool.false_ne_true]
    have hoption : r.option ≠ "" := hopen.option ▸ hkey
    rw [hadded]
    refine ⟨r.extend name (String.ofList (trim line)), ?_, of_extend hname hopen hr _⟩
    by_cases hblank : trim line = []
    · have hclosed : r.option.isEmpty = false := by simpa using hoption
      rw [line_of_blank hblank, hopen.current, hblank]
      dsimp only
      rw [hclosed, if_neg Bool.false_ne_true]
    · have hindent : 0 < indentOf line :=
        (h.resolve_left (by rw [hcomment]; exact Bool.false_ne_true)).resolve_left hblank
      exact line_of_deeper hcomment hblank hopen.current hoption (hopen.indent ▸ hindent)

theorem of_lines_continue (hname : name ≠ defaultName) (hkey : key ≠ "") {more : List (List Char)}
    (hmore : ∀ l ∈ more, Continues l) (hopen : r.IsOpen name key) (hr : r.Holds name key lines) :
    ∃ r', r.lines n more = .ok r' ∧ r'.IsOpen name key ∧
      r'.Holds name key (((more.filterMap addition?).map String.ofList).reverse ++ lines) := by
  induction more generalizing r n lines with
  | nil => exact ⟨r, rfl, hopen, hr⟩
  | cons l more ih =>
    obtain ⟨hl, hmore⟩ := List.forall_mem_cons.1 hmore
    obtain ⟨r₁, hline, hopen₁, hr₁⟩ := line_of_continues (n := n) hname hkey hopen hr hl
    obtain ⟨r', hlines, hopen', hr'⟩ := ih (n := n + 1) hmore hopen₁ hr₁
    refine ⟨r', by rw [Reader.lines, hline]; exact hlines, hopen', ?_⟩
    cases hadded : addition? l with
    | none =>
      rw [hadded] at hr'
      rwa [List.filterMap_cons_none hadded]
    | some text =>
      rw [hadded] at hr'
      rw [List.filterMap_cons_some hadded, List.map_cons, List.reverse_cons, List.append_assoc]
      exact hr'

/-- **The line of an option** sets it and leaves it open. -/
theorem of_line_option (hname : name ≠ defaultName) {option value : List Char}
    (hbegins : Begins line) (hnone : sectionName? (trim line) = none)
    (hoption : option? (trim line) = some (option, value)) (hcurrent : r.current = some name)
    (h : r.line n line = .ok r') :
    r'.IsOpen name (String.ofList (lower option)) ∧
      r'.Holds name (String.ofList (lower option)) [String.ofList value] := by
  rw [line_of_begins hbegins, fresh, hnone, hcurrent] at h
  dsimp only at h
  rw [hoption] at h
  dsimp only at h
  split at h
  · cases h
  · obtain rfl := Except.ok.inj h
    refine ⟨⟨?_, ?_, ?_⟩, ⟨?_, ?_⟩⟩
    · rw [current_modify]
    · rw [option_modify]
    · rw [indent_modify]
      exact hbegins.not_indented
    · rw [given_modify]
      exact List.mem_cons_self
    · rw [stored_modify hname, Value.lookup_insert_self]

/-- **The line of a section** opens it. -/
theorem current_of_section (hbegins : Begins line) (hsome : sectionName? (trim line) = some name)
    (h : r.line n line = .ok r') : r'.current = some name := by
  rw [line_of_begins hbegins, fresh, hsome] at h
  exact (of_open h).1

theorem Step.current (hnone : sectionName? (trim line) = none) (h : Step r n line r') :
    r'.current = r.current := by
  cases h with
  | kept => rfl
  | extended => rw [extend, current_modify]
  | begun hbegun =>
    cases hbegun with
    | opened hsome _ =>
      rw [hnone] at hsome
      cases hsome
    | refused => rfl
    | set => rw [current_modify]

theorem current_of_lines {ls : List (List Char)} (hnone : ∀ l ∈ ls, sectionName? (trim l) = none)
    (h : r.lines n ls = .ok r') : r'.current = r.current := by
  induction ls generalizing r n with
  | nil => exact Except.ok.inj h ▸ rfl
  | cons l ls ih =>
    obtain ⟨hl, hls⟩ := List.forall_mem_cons.1 hnone
    obtain ⟨r₁, hr₁, h⟩ := exists_of_bind_eq_ok h
    exact (ih hls h).trans ((step_of_line hr₁).current hl)

theorem Holds.stored_of_lines (hr : r.Holds name key lines) (hname : name ≠ defaultName)
    (hkey : key ≠ "") {ls : List (List Char)} (hleaves : ∀ l ∈ ls.head?, Begins l)
    (h : r.lines n ls = .ok r') (hbad : r'.bad = []) : r'.stored name key = some lines := by
  cases ls with
  | nil => exact Except.ok.inj h ▸ hr.stored
  | cons l ls =>
    obtain ⟨r₁, hr₁, h⟩ := exists_of_bind_eq_ok h
    rw [line_of_begins (hleaves l rfl)] at hr₁
    have hbegun := begun_of_fresh hr₁
    -- the option is no longer open after the first line, so the value is settled
    have hsettled := hbegun.settled hname hkey hr.stored (.inl hr.given)
    obtain ⟨hstored, -⟩ := (settled_of_lines hname hkey hsettled (.inl (hbegun.given hr.given))
      h).resolve_left (not_not.2 hbad)
    exact hstored

theorem exists_of_lines_append {ls ls' : List (List Char)} (h : r.lines n (ls ++ ls') = .ok r') :
    ∃ r₁ m, r.lines n ls = .ok r₁ ∧ r₁.lines m ls' = .ok r' := by
  induction ls generalizing r n with
  | nil => exact ⟨r, n, rfl, h⟩
  | cons l ls ih =>
    obtain ⟨r₀, hr₀, h⟩ := exists_of_bind_eq_ok h
    obtain ⟨r₁, m, hr₁, h⟩ := ih h
    exact ⟨r₁, m, by rw [Reader.lines, hr₀]; exact hr₁, h⟩

end
end Reader

/-! ## A file with an option -/

/-- What stands around an option of a section: the line of the section, other lines before and after
it. The lines after it are blank lines and comments, up to the first line that begins something. -/
structure Surroundings (name : String) where
  before : List (List Char)
  header : List Char
  between : List (List Char)
  gap : List (List Char)
  after : List (List Char)
  begins : Begins header
  opens : sectionName? (trim header) = some name
  same_section : ∀ l ∈ between, sectionName? (trim l) = none
  gap_empty : ∀ l ∈ gap, isComment l = true ∨ trim l = []
  leaves : ∀ l ∈ after.head?, Begins l

/-- The lines of the file in which some lines stand there. -/
def Surroundings.around {name : String} (f : Surroundings name) (lines : List (List Char)) :
    List (List Char) :=
  f.before ++ f.header :: (f.between ++ (lines ++ (f.gap ++ f.after)))

section

variable {name : String} {option value head : List Char} {more : List (List Char)}

/-- **What is read of an option**: what stands on its line and on the lines that go on with it. -/
theorem Surroundings.stored (f : Surroundings name) (hname : name ≠ defaultName)
    (hoption : lower option ≠ []) (hbegins : Begins head)
    (hnone : sectionName? (trim head) = none) (hhead : option? (trim head) = some (option, value))
    (hmore : ∀ l ∈ more, Continues l) {r r' : Reader} {n : Nat}
    (h : r.lines n (f.around (head :: more)) = .ok r') (hbad : r'.bad = []) :
    r'.stored name (String.ofList (lower option)) =
      some ((value :: (more ++ f.gap).filterMap addition?).map String.ofList).reverse := by
  have hkey : String.ofList (lower option) ≠ "" := fun h => hoption (by simpa using h)
  obtain ⟨r₁, n₁, -, h⟩ := Reader.exists_of_lines_append h
  obtain ⟨r₂, hr₂, h⟩ := exists_of_bind_eq_ok h
  obtain ⟨r₃, n₃, hr₃, h⟩ := Reader.exists_of_lines_append h
  have hcurrent : r₃.current = some name := (Reader.current_of_lines f.same_section hr₃).trans
    (Reader.current_of_section f.begins f.opens hr₂)
  rw [List.cons_append, ← List.append_assoc] at h
  obtain ⟨r₄, hr₄, h⟩ := exists_of_bind_eq_ok h
  obtain ⟨hopen, hholds⟩ := Reader.of_line_option hname hbegins hnone hhead hcurrent hr₄
  obtain ⟨r₅, n₅, hr₅, h⟩ := Reader.exists_of_lines_append h
  have hcontinues : ∀ l ∈ more ++ f.gap, Continues l := by
    refine List.forall_mem_append.2 ⟨hmore, fun l hl => ?_⟩
    exact (f.gap_empty l hl).imp_right .inl
  obtain ⟨r₆, hr₆, hopen₆, hholds₆⟩ := Reader.of_lines_continue hname hkey hcontinues hopen hholds
  obtain rfl := Except.ok.inj (hr₅.symm.trans hr₆)
  rw [List.map_cons, List.reverse_cons]
  exact hholds₆.stored_of_lines hname hkey f.leaves h hbad

/-- The options of a section, with the lines of each value joined. -/
def joined (options : List (String × List String)) : List (String × String) :=
  options.map fun option => (option.1, joinLines option.2)

/-- The reader at the start of a file: each value is one line. -/
def Reader.start (ini : Ini) (file : String) : Reader where
  file
  defaults := ini.defaults.map fun option => (option.1, [option.2])
  sections := ini.sections.map fun s => (s.1, s.2.map fun option => (option.1, [option.2]))

theorem exists_of_read {ini ini' : Ini} {file text : String} (h : ini.read file text = .ok ini') :
    ∃ r, (Reader.start ini file).lines 1 (fileLines text.toList) = .ok r ∧ r.bad = [] ∧
      ini'.sections = r.sections.map fun s => (s.1, joined s.2) := by
  rw [Ini.read] at h
  obtain ⟨r, hr, h⟩ := exists_of_bind_eq_ok h
  split at h
  · cases h
  · next hbad => exact ⟨r, hr, by simpa using hbad, (Except.ok.inj h) ▸ rfl⟩

/-- The section has the option, with this value. -/
def HasValue (ini : Ini) (name key value : String) : Prop :=
  ∃ options, Value.lookup name ini.sections = some options ∧ Value.lookup key options = some value

theorem hasValue_of_stored {r : Reader} {ini : Ini} {key : String} {lines : List String}
    (hini : ini.sections = r.sections.map fun s => (s.1, joined s.2))
    (h : r.stored name key = some lines) : ini.HasValue name key (joinLines lines) := by
  obtain ⟨options, hoptions, hlines⟩ := Option.bind_eq_some_iff.1 h
  refine ⟨joined options, ?_, ?_⟩
  · rw [hini, Value.lookup_map, hoptions, Option.map_some]
  · rw [joined, Value.lookup_map, hlines, Option.map_some]

theorem HasValue.stored_start {ini : Ini} {key value : String} (h : ini.HasValue name key value)
    (file : String) : (Reader.start ini file).stored name key = some [value] := by
  obtain ⟨options, hoptions, hvalue⟩ := h
  rw [Reader.stored, Reader.start,
    Value.lookup_map fun options : List (String × String) => options.map fun o => (o.1, [o.2]),
    hoptions, Option.map_some, Option.bind_some, Value.lookup_map fun v => [v], hvalue,
    Option.map_some]

/-- **The value of an option in a file**, whatever else is in the file and in those read before. -/
theorem hasValue_of_read (f : Surroundings name) (hname : name ≠ defaultName)
    (hoption : lower option ≠ []) (hbegins : Begins head)
    (hnone : sectionName? (trim head) = none) (hhead : option? (trim head) = some (option, value))
    (hmore : ∀ l ∈ more, Continues l) {ini ini' : Ini} {file text : String}
    (htext : fileLines text.toList = f.around (head :: more)) (h : ini.read file text = .ok ini') :
    ini'.HasValue name (String.ofList (lower option))
      (String.ofList (trimEnd (['\n'].intercalate (value :: more.filterMap addition?)))) := by
  obtain ⟨r, hr, hbad, hini⟩ := exists_of_read h
  rw [htext] at hr
  have hempty : ∀ text ∈ f.gap.filterMap addition?, text = [] := by
    intro text htext
    obtain ⟨l, hl, hadded⟩ := List.mem_filterMap.1 htext
    rw [addition?, Option.ite_none_left_eq_some] at hadded
    obtain ⟨hcomment, hadded⟩ := hadded
    rw [← Option.some_inj.1 hadded]
    exact (f.gap_empty l hl).resolve_left hcomment
  have hjoined : joinLines ((value :: (more ++ f.gap).filterMap addition?).map
      String.ofList).reverse =
      String.ofList (trimEnd (['\n'].intercalate (value :: more.filterMap addition?))) := by
    rw [joinLines, List.reverse_reverse, List.map_map, List.filterMap_append, ← List.cons_append,
      ← trimEnd_intercalate_append (by decide) (List.cons_ne_nil _ _) hempty]
    simp [Function.comp_def]
  rw [← hjoined]
  exact hasValue_of_stored hini (f.stored hname hoption hbegins hnone hhead hmore hr hbad)

/-- **A file that does not set an option** leaves it as it was. -/
theorem HasValue.of_read (hname : name ≠ defaultName) {key value : String} (hkey : key ≠ "")
    (htrim : trimEnd value.toList = value.toList) {ini ini' : Ini}
    (hvalue : ini.HasValue name key value) {file text : String}
    (hunset : ∀ l ∈ fileLines text.toList, ¬ Sets key l) (h : ini.read file text = .ok ini') :
    ini'.HasValue name key value := by
  obtain ⟨r, hr, hbad, hini⟩ := exists_of_read h
  have hstart : (Reader.start ini file).Settled name key [value] :=
    .inr ⟨hvalue.stored_start file, fun _ => hkey.symm⟩
  have hsettled := Reader.settled_of_lines hname hkey hstart (.inr hunset) hr
  obtain ⟨hstored, -⟩ := hsettled.resolve_left (not_not.2 hbad)
  have hsame : joinLines [value] = value := by simp [joinLines, htrim]
  exact hsame ▸ hasValue_of_stored hini hstored

theorem HasValue.get {ini : Ini} {option value : String} (hname : name ≠ defaultName)
    (hne : name ≠ "") (h : ini.HasValue name (key option) value) :
    ini.has name option = true ∧ ini.get name option = .ok value := by
  obtain ⟨options, hoptions, hvalue⟩ := h
  have hempty : name.isEmpty = false := by simpa using hne
  constructor
  · simp [has, hempty, hname, hoptions, hvalue]
  · simp [Ini.get, hoptions, hvalue]

end

end LangServer.Settings.Ini
