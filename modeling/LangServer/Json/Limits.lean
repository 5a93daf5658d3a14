import LangServer.Value.Basic

/-!
# Limits of messages

A message holds whole numbers that fit into 64 bits, with or without a sign, and is nested at most
`deepest` levels. `isWritable` says whether a value keeps to these limits; one that does not cannot
be sent.
-/

namespace LangServer.Json

/-- How many levels a message may be nested. -/
def deepest : Nat := 1024

/-- Does a whole number fit into 64 bits, read with or without a sign? -/
def isWordSized (n : Int) : Bool :=
  decide (-0x8000000000000000 ≤ n) && decide (n < 0x10000000000000000)

mutual

/-- Does a value keep to the limits, with `room` levels left below it? -/
def fits (room : Nat) : Value → Bool
  | .int n => isWordSized n
  | .list items => itemsFit room items
  | .object members => membersFit room members
  | _ => true

/-- Do the items of a list keep to the limits, with `room` levels left below the list? -/
def itemsFit (room : Nat) : List Value → Bool
  | [] => true
  | v :: rest => decide (0 < room) && fits (room - 1) v && itemsFit room rest

/-- Do the members of an object keep to the limits, with `room` levels left below the object? -/
def membersFit (room : Nat) : List (String × Value) → Bool
  | [] => true
  | (_, v) :: rest => decide (0 < room) && fits (room - 1) v && membersFit room rest

end

/-- Can a value be sent as a message? -/
def isWritable (v : Value) : Bool := fits deepest v

end LangServer.Json
