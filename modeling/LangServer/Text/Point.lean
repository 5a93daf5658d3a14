import LangServer.Fault

/-!
# Code points

The name of a file may hold surrogates that stand alone. They are code points but no characters,
and a text that holds one has no UTF-8 form.
-/

namespace LangServer.Text

/-- A code point: a character, or a surrogate that stands alone, counted from the first one. -/
inductive Point where
  | char (c : Char)
  | lone (n : Fin 0x800)
  deriving DecidableEq, Repr, Inhabited

/-- The code points of characters. -/
def points (s : List Char) : List Point := s.map .char

@[simp] theorem points_nil : points [] = [] := rfl

@[simp] theorem points_cons (c : Char) (s : List Char) :
    points (c :: s) = .char c :: points s := rfl

@[simp] theorem points_append (s t : List Char) : points (s ++ t) = points s ++ points t :=
  List.map_append

theorem points_injective {s t : List Char} (h : points s = points t) : s = t :=
  (List.map_inj_right fun _ _ => Point.char.inj).1 h

def Point.isLone : Point → Bool
  | .char _ => false
  | .lone _ => true

/-- Why a text has no UTF-8 form: a surrogate stands in it at a position, first of a run of them. -/
def loneFault (n : Fin 0x800) (position length : Nat) : Fault :=
  let place :=
    if length = 1 then
      "character '\\u" ++ String.ofList (hex 4 (0xD800 + n)) ++ s!"' in position {position}"
    else s!"characters in position {position}-{position + length - 1}"
  .reported "UnicodeEncodeError" ("'utf-8' codec can't encode " ++ place ++
    ": surrogates not allowed")

/-- The characters of a text that stands at a position and has a UTF-8 form. -/
def characters (position : Nat) : List Point → Except Fault (List Char)
  | [] => .ok []
  | .char c :: rest => do return c :: (← characters (position + 1) rest)
  | .lone n :: rest =>
    .error (loneFault n position (1 + (rest.takeWhile Point.isLone).length))

end LangServer.Text
