/-!
# Membership in runs of code points

A set of code points cuts them into runs, which lie outside and inside it in turn. The set is kept as
the lengths of these runs, from zero on.
-/

namespace LangServer.Text

/-- Does `n` lie past an odd number of runs? -/
def inRuns : List Nat → Nat → Bool
  | [], _ => false
  | length :: rest, n => if n < length then false else !inRuns rest (n - length)

end LangServer.Text
