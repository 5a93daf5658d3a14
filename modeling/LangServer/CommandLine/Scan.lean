import LangServer.CommandLine.Grammar

/-!
# Scanning a command line

The arguments are taken one after the other. A problem ends the scan, and what was taken before it
stays taken, so that a program acts on its arguments in their order.
-/

namespace LangServer.CommandLine

/-- An argument that was taken: a switch by its title or a positional argument by its name. There is
no value with a switch that takes none, or when only a divider was left for it. -/
structure Taken where
  title : String
  value : Option String := none
  deriving DecidableEq, Repr, Inhabited

/-- What was taken from a command line, and what is wrong with it. -/
structure Scan where
  taken : List Taken := []
  problem : Option Problem := none
  deriving DecidableEq, Repr, Inhabited

/-- Puts what was taken earlier in front. -/
def Scan.after (s : Scan) (earlier : List Taken) : Scan := { s with taken := earlier ++ s.taken }

/-- The value of an argument. A divider is no value. -/
def valueOf (text : String) : Option String := if text = dividerText then none else some text

namespace Grammar

/-- The switches that short names in a row stand for: those without a value, then the last one with what
is attached to it. -/
def cluster (g : Grammar) (s : Switch) : List Char → Except Problem (List Taken × Switch × Option String)
  | [] => .ok ([], s, none)
  | c :: rest =>
    if s.takesValue then .ok ([], s, some (String.ofList (c :: rest)))
    else
      match g.switch? (String.ofList ['-', c]) with
      | none => .error (.ignoredValue s.title (String.ofList (c :: rest)))
      | some next => do
        let (flags, last) ← g.cluster next rest
        return (⟨s.title, none⟩ :: flags, last)

/-- The switches that one argument stands for. -/
def expand (g : Grammar) (s : Switch) (name : String) :
    Option String → Except Problem (List Taken × Switch × Option String)
  | none => .ok ([], s, none)
  | some text =>
    if s.takesValue then .ok ([], s, some text)
    else if name.startsWith dividerText || text.isEmpty then .error (.ignoredValue s.title text)
    else g.cluster s text.toList

/-- The next positional argument and what follows it. Dividers around it are dropped. -/
def positional? (words : List Word) : Option (Option String × List Word) :=
  match words.dropWhile Word.isDivider with
  | .plain text :: rest =>
    let value := if (words.head?.any Word.isDivider) then some text else valueOf text
    some (value, rest.dropWhile Word.isDivider)
  | _ => none

theorem length_dropWhile_le {α : Type} (p : α → Bool) (l : List α) :
    (l.dropWhile p).length ≤ l.length :=
  (List.dropWhile_sublist p).length_le

theorem length_of_positional? {words rest : List Word} {value : Option String}
    (h : positional? words = some (value, rest)) : rest.length < words.length := by
  unfold positional? at h
  split at h
  · next text more heq =>
    simp only [Option.some.injEq, Prod.mk.injEq] at h
    have h₁ := length_dropWhile_le Word.isDivider words
    have h₂ := length_dropWhile_le Word.isDivider more
    rw [heq] at h₁
    simp only [List.length_cons] at h₁
    rw [← h.2]
    omega
  · cases h

/-- Scans the words. Words that have no place are kept in `extra`, and positional arguments that are
still missing at the end are the greater problem. -/
def scanWords (g : Grammar) (positionals : List String) (extra : List String) :
    List Word → Scan
  | [] =>
    if !positionals.isEmpty then ⟨[], some (.missing positionals)⟩
    else if !extra.isEmpty then ⟨[], some (.unrecognized extra)⟩
    else {}
  | .unknown text :: rest => g.scanWords positionals (extra ++ [text]) rest
  | .switch s name attached :: rest =>
    match g.expand s name attached with
    | .error p => ⟨[], some p⟩
    | .ok (flags, last, attached) =>
      if !last.takesValue then
        (g.scanWords positionals extra rest).after (flags ++ [⟨last.title, none⟩])
      else
        match attached, rest with
        | some text, rest =>
          (g.scanWords positionals extra rest).after (flags ++ [⟨last.title, valueOf text⟩])
        | none, .plain text :: rest =>
          (g.scanWords positionals extra rest).after (flags ++ [⟨last.title, valueOf text⟩])
        | none, _ => ⟨[], some (.expectedValue last.title)⟩
  | .plain text :: rest =>
    match positionals, _found : positional? (.plain text :: rest) with
    | p :: positionals, some (value, rest') =>
      (g.scanWords positionals extra rest').after [⟨p, value⟩]
    | positionals, _ => g.scanWords positionals (extra ++ [text]) rest
  | .divider :: rest =>
    match positionals, _found : positional? (.divider :: rest) with
    | p :: positionals, some (value, rest') =>
      (g.scanWords positionals extra rest').after [⟨p, value⟩]
    | positionals, _ => g.scanWords positionals (extra ++ [dividerText]) rest
termination_by words => words.length
decreasing_by
  all_goals first
    | exact length_of_positional? _found
    | (simp only [List.length_cons]; omega)

/-- Scans a command line. -/
def scan (g : Grammar) (arguments : List String) : Scan :=
  match g.words arguments with
  | .error p => ⟨[], some p⟩
  | .ok words => g.scanWords g.positionals [] words

end Grammar
end LangServer.CommandLine
