import LangServer.Proofs.Completion.Resolving

/-!
# How much a completion request looks up

A request for completions offers one item for each name, in their order, and perhaps one more for
each class, as an object. The settings limit how many of the names are looked up in the resolvers,
for a look-up may ask the engine for signatures, and that is slow. The limit is one on places in
the list of names, and it holds for both rounds: the look-ups of a request are a function of the
names within the limit (`Plan.lookups`), and the items of all other names have nothing but the bare
name for a label (`Plan.Offers`).

Both rounds give a class the same label, although the resolvers are asked twice and other names are
looked up in between.
-/

namespace LangServer

open Relation Completion

namespace Completion

open Host

variable {desk : Desk} {d : Document}

/-! ## Two rounds of items -/

namespace Plan

variable (p : Plan) {uri : String} {a : Name × Nat} {item : Item}

/-- The names that are looked up. -/
def heard (names : List Name) : List Name :=
  (names.zipIdx.filter fun a => p.within a.2).map (·.1)

/-- The look-ups of a request on a machine: first those for the items, then those for the objects.
An exception gets no snippet. -/
def lookups (m : Machine) (names : List Name) : List Lookup :=
  ((p.heard names).flatMap fun n => ⟨.label, n⟩ ::
    if p.params && !m.exceptionClasses.contains n.name then [⟨.snippet, n⟩] else []) ++
  if p.objects then ((p.heard names).filter (·.kind == "class")).map (⟨.label, ·⟩) else []

/-- The item is one for the name at a place. If the name is not looked up, it stands for itself. -/
def Offers (uri : String) (a : Name × Nat) (item : Item) : Prop :=
  ∃ label snippet made, itemWith label p.eager snippet a.1 = .ok made ∧
    item = withDocument uri made ∧ (p.within a.2 = false → label = a.1.name ∧ snippet = [])

end Plan

end Completion
end LangServer
