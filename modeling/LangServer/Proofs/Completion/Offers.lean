import LangServer.Proofs.Completion.Plans

/-!
# What completing leaves on a document

Two plugins complete, and each leaves on the document a table of what it offered last, by label. An
item that comes back to be resolved is looked up there. What is found under a label is seen through
one function, `outcome`: nothing when there is no table, no entry, or the entry with detail and
documentation.

* Of equal labels the table has the last (`lookup_byLabel`).
* An item is answered by the outcome of its label (`resolveOffer_eq`), and resolving leaves every
  outcome as it is (`outcome_resolveOffer`), since to add the same twice adds nothing.
* The names of the analysis engine fill the table with one item each; the further items for classes
  are offered without an entry (`ensures_completions`). The proposals of the refactoring engine
  fill another table (`ensures_proposals`).
-/

namespace LangServer

open Relation

namespace Completion

variable {α : Type}

/-! ## Labels -/

/-- The last of some offers with a label. -/
def last? (label : String) (offers : List (Item × α)) : Option (Item × α) :=
  offers.reverse.find? fun o => labelOf? o.1 = some label

/-- **Of equal labels the last one stays.** -/
theorem lookup_byLabel (label : String) (offers : List (Item × α)) :
    Value.lookup label (byLabel offers) = (last? label offers).map fun o => ⟨o.1, o.2⟩ := by
  induction offers using List.reverseRecOn with
  | nil => rfl
  | append_singleton offers o ih =>
    obtain ⟨item, made⟩ := o
    have hby : byLabel (offers ++ [(item, made)]) =
        (labelOf? item).elim (byLabel offers) fun key =>
          Value.insert key ⟨item, made⟩ (byLabel offers) := by
      rw [byLabel, List.foldl_append, List.foldl_cons, List.foldl_nil, labelOf?]
      dsimp only
      rcases Value.lookup "label" item with _ | v
      · rfl
      · cases v <;> rfl
    rw [hby, last?, List.reverse_append, List.reverse_singleton, List.singleton_append,
      List.find?_cons]
    rcases hlabel : labelOf? item with _ | key
    · simpa [last?] using ih
    · by_cases hkey : key = label
      · simp [hkey, Value.lookup_insert_self]
      · simpa [last?, hkey, Value.lookup_insert_of_ne (Ne.symm hkey)] using ih

/-! ## Outcomes -/

/-- What is found under a label: nothing without a table, no entry, or the entry completed. -/
def outcome (complete : Item → α → Except Fault Item) (table : Option (List (String × Offer α)))
    (label : String) : Option (Option (Except Fault Item)) :=
  table.map fun t => (Value.lookup label t).map fun o => complete o.item o.made

theorem resolveOffer_eq {item : Item} {label : String} (hlabel : labelOf? item = some label)
    (table : Option (List (String × Offer α))) (complete : Item → α → Except Fault Item)
    (name : String) :
    (resolveOffer table complete name (.object item)).map (·.1) =
      match outcome complete table label with
      | none => .error (.missingKey (.str name))
      | some none => .ok (.object item)
      | some (some completed) => completed.map .object := by
  rw [resolveOffer.eq_def, outcome]
  rcases table with _ | t
  · rfl
  · simp only [Value.item, labelOf?_eq_some_iff.1 hlabel, bind, Except.bind, Value.isHashable,
      Bool.not_true, Bool.false_eq_true, if_false, Option.map_some]
    rcases Value.lookup label t with _ | o
    · rfl
    · simp only [Option.map_some]
      rcases complete o.item o.made with f | completed <;> rfl

/-- Either nothing is found and the item comes back as it was given, or an entry is completed. -/
theorem resolveOffer_cases {complete : Item → α → Except Fault Item}
    {table table' : Option (List (String × Offer α))} {name : String} {given v : Value}
    (h : resolveOffer table complete name given = .ok (v, table')) :
    (∃ label, given.item "label" = .ok label) ∧ v = given ∧ table' = table ∨
      ∃ t key offer item, table = some t ∧ Value.lookup key t = some offer ∧
        complete offer.item offer.made = .ok item ∧ v = .object item ∧
        table' = some (Value.insert key { offer with item } t) := by
  rcases table with _ | t
  · cases h
  obtain ⟨label, hlabel, h⟩ := exists_of_bind_eq_ok h
  have hgiven : ∀ {x : Except Fault (Value × Option (List (String × Offer α)))},
      x = .ok (v, table') → x = .ok (given, some t) →
        (∃ label, given.item "label" = .ok label) ∧ v = given ∧ table' = some t := by
    rintro x hx rfl
    obtain ⟨rfl, rfl⟩ := Prod.mk.inj (Except.ok.inj hx)
    exact ⟨⟨label, hlabel⟩, rfl, rfl⟩
  rcases label with _ | _ | _ | _ | key | _ | _
  case list | object => cases h
  case str =>
    rw [if_neg (by simp [Value.isHashable])] at h
    simp only at h
    split at h
    · rename_i offer hoffer
      obtain ⟨item, hitem, h⟩ := exists_of_bind_eq_ok h
      obtain ⟨rfl, rfl⟩ := Prod.mk.inj (Except.ok.inj h)
      exact .inr ⟨t, key, offer, item, rfl, hoffer, hitem, rfl, rfl⟩
    · exact .inl (hgiven h rfl)
  all_goals exact .inl (hgiven h rfl)

/-- Resolving leaves every outcome as it is, when to complete twice is to complete once. -/
theorem outcome_resolveOffer {complete : Item → α → Except Fault Item}
    (hidem : ∀ item made item', complete item made = .ok item' → complete item' made = .ok item')
    {table table' : Option (List (String × Offer α))} {name : String} {given v : Value}
    (h : resolveOffer table complete name given = .ok (v, table')) :
    outcome complete table' = outcome complete table := by
  rcases resolveOffer_cases h with ⟨-, -, rfl⟩ | ⟨t, key, offer, item, rfl, hoffer, hitem, -, rfl⟩
  · rfl
  · funext label
    simp only [outcome, Option.map_some, Value.lookup_insert]
    by_cases hlabel : label = key
    · rw [if_pos hlabel, hlabel, hoffer, Option.map_some, Option.map_some, hitem,
        hidem _ _ _ hitem]
    · rw [if_neg hlabel]

theorem isNull_of_resolveOffer {complete : Item → α → Except Fault Item}
    {table table' : Option (List (String × Offer α))} {name : String} {given v : Value}
    (h : resolveOffer table complete name given = .ok (v, table')) : v.isNull = false := by
  rcases resolveOffer_cases h with
    ⟨⟨label, hlabel⟩, rfl, -⟩ | ⟨t, key, offer, item, -, -, -, rfl, -⟩
  · cases v with
    | null => cases hlabel
    | _ => rfl
  · rfl

theorem insert_detail_insert_detail (detail doc : Value) (item : Item) :
    Value.insert "documentation" doc (Value.insert "detail" detail
        (Value.insert "documentation" doc (Value.insert "detail" detail item))) =
      Value.insert "documentation" doc (Value.insert "detail" detail item) := by
  have hdetail : Value.lookup "detail"
      (Value.insert "documentation" doc (Value.insert "detail" detail item)) = some detail := by
    rw [Value.lookup_insert_of_ne (by decide), Value.lookup_insert_self]
  rw [Value.insert_of_lookup hdetail, Value.insert_insert]

theorem resolveItem_resolveItem (item : Item) (n : Name) (item' : Item)
    (h : resolveItem item n = .ok item') : resolveItem item' n = .ok item' := by
  rw [resolveItem] at h ⊢
  obtain ⟨text, htext, h⟩ := exists_of_bind_eq_ok h
  obtain rfl := Except.ok.inj h
  rw [htext]
  exact congrArg _ (insert_detail_insert_detail _ _ item)

/-- Adding detail and documentation to the item of a proposal cannot fail. -/
def completeProposal (item : Item) (p : Proposal) : Except Fault Item :=
  .ok (resolveProposalItem item p)

theorem completeProposal_completeProposal (item : Item) (p : Proposal) (item' : Item)
    (h : completeProposal item p = .ok item') : completeProposal item' p = .ok item' := by
  obtain rfl := Except.ok.inj h
  exact congrArg _ (insert_detail_insert_detail _ _ item)

/-! ## Resolving -/

theorem ensures_resolveCompletion (given : Value) {desk : Desk} {d : Document}
    (hd : desk.document = some d) :
    Ensures (resolveCompletion given) desk
      (fun v t => ∃ offers, resolveOffer d.offers resolveItem offersName given = .ok (v, offers) ∧
        t = { desk with document := some { d with offers } })
      fun f t => t = desk ∧ resolveOffer d.offers resolveItem offersName given = .error f := by
  simp only [resolveCompletion, Job.document, Job.setDocument, ensures_bind, ensures_get, hd,
    ensures_pure, ensures_liftExcept, ensures_modify]
  exact ⟨fun answer h => ⟨answer.2, h, rfl⟩, fun f h => ⟨trivial, h⟩⟩

theorem ensures_resolveProposal (given : Value) {desk : Desk} {d : Document}
    (hd : desk.document = some d) :
    Ensures (resolveProposal given) desk
      (fun v t => ∃ proposals,
        resolveOffer d.proposals completeProposal proposalsName given = .ok (v, proposals) ∧
        t = { desk with document := some { d with proposals } })
      fun f t => t = desk ∧
        resolveOffer d.proposals completeProposal proposalsName given = .error f := by
  simp only [resolveProposal, Job.document, Job.setDocument, ensures_bind, ensures_get, hd,
    ensures_pure, ensures_liftExcept, ensures_modify]
  exact ⟨fun answer h => ⟨answer.2, h, rfl⟩, fun f h => ⟨trivial, h⟩⟩

/-! ## Offering -/

open Host Job

/-- The item was made from the name. -/
def ItemOf (n : Name) (item : Item) : Prop :=
  (∃ w h h', makeItem n w h = .ok item h') ∧ ∃ label, labelOf? item = some label

/-- The item was made from the class as an object. -/
def ObjectOf (n : Name) (item : Item) : Prop := ∃ made, ItemOf n made ∧ item = asObject made

theorem MadeFor.itemOf {n : Name} {w : Wishes} {h t : Host} {label : String} {snippet item : Item}
    (hmade : MadeFor n w h t label snippet item) (hp : h.Primed) : ItemOf n item := by
  obtain ⟨u, u', hu, -, -, hrun, hmaking⟩ := hmade
  exact ⟨⟨w, u, u', hrun⟩, label, hmaking.labelOf?_eq (hu.primed hp)⟩

/-- **What the analysis engine's plugin offers**: an item for each name, which it keeps by label,
and perhaps one more for each class, which it does not keep. -/
theorem ensures_completions (c : Caller) (position : Value) {desk : Desk} {d : Document}
    (hd : desk.document = some d) (hp : desk.host.Primed) :
    Ensures (completions c position) desk
      (fun v t => ReflTransGen Work desk.host t.host ∧ ∃ names,
        desk.host.engines.completions = .ok names ∧
        (names = [] ∧ v = .null ∧ t.document = some d ∨ ∃ items extra,
          List.Forall₂ ItemOf names items ∧
          (extra = [] ∨ List.Forall₂ ObjectOf (names.filter fun n => n.kind == "class") extra) ∧
          v = .list ((items.map (withDocument d.uri) ++
            extra.map (withDocument d.uri)).map .object) ∧
          t.document = some { d with
            offers := some (byLabel ((items.map (withDocument d.uri)).zip names)) }))
      fun _ t => ReflTransGen (Desk.Along Work) desk t := by
  refine (ensures_completions_prepared c position hd).imp ?_
  rintro v t ⟨names, hnames, ⟨rfl, rfl, ht⟩ | ⟨-, p, u, -, hu, hrun⟩⟩
  · exact ⟨Desk.host_of_along ht, [], hnames,
      Or.inl ⟨rfl, rfl, (Desk.document_of_along ht).trans hd⟩⟩
  have hp' : u.host.Primed := hp.steps (Desk.host_of_along hu)
  obtain ⟨h, items, extra, hh, ht, hitems, hextra, hv, hdoc⟩ :=
    (ensures_offerNames p names ((Desk.document_of_along hu).trans hd)).ok hrun
  have hfirst : u.host.Looks h := ⟨_, hh⟩
  have hsecond : h.Looks t.host := ⟨_, ht⟩
  refine ⟨((Desk.host_of_along hu).trans hfirst.work).trans hsecond.work, names, hnames,
    Or.inr ⟨items, extra, ?_, ?_, hv, hdoc⟩⟩
  · rw [← List.zipIdx_map_fst 0 names, List.forall₂_map_left_iff]
    refine hitems.imp ?_
    rintro a item ⟨label, snippet, hmade⟩
    exact hmade.itemOf hp'
  · rw [Plan.classes] at hextra
    split at hextra
    · right
      rw [← List.zipIdx_map_fst 0 names, List.filter_map, List.forall₂_map_left_iff]
      refine hextra.imp ?_
      rintro a object ⟨label, snippet, made, hmade, rfl⟩
      exact ⟨made, hmade.itemOf (hfirst.primed hp'), rfl⟩
    · exact .inl (List.forall₂_nil_left_iff.1 hextra)

/-- **What the refactoring engine's plugin offers**: an item for each proposal, which it keeps by
label. -/
theorem ensures_proposals (c : Caller) (position : Value) {desk : Desk} {d : Document}
    (hd : desk.document = some d) :
    Ensures (proposals c position) desk
      (fun v t => ReflTransGen Work desk.host t.host ∧
        ((v = .null ∨ v = .list []) ∧ t.document = some d ∨ ∃ found eager,
          desk.host.engines.proposals = .ok found ∧
          v = (if found = [] then .null
            else .list ((found.map (proposalItem d.uri eager)).map .object)) ∧
          t.document = some { d with
            proposals := some (byLabel ((found.map (proposalItem d.uri eager)).zip found)) }))
      fun _ t => ReflTransGen (Desk.Along Work) desk t := by
  have hbad : ∀ (f : Fault) t, ReflTransGen (Desk.Along Work) desk t →
      ReflTransGen (Desk.Along Work) desk t := fun _ _ h => h
  rw [proposals, Job.document, ensures_bind, ensures_bind, ensures_get, hd]
  simp only [ensures_pure]
  refine (moves_pluginSettings_work _ _ _).liftJob.ensures_bind .refl (fun settings t ht => ?_) hbad
  refine (Moves.ofExcept _).ensures_bind ht (fun eager t ht => ?_) hbad
  refine (Moves.ofExcept _).ensures_bind ht (fun line t ht => ?_) hbad
  refine (Moves.ofExcept _).ensures_bind ht (fun character t ht => ?_) hbad
  refine moves_files.ensures_bind ht (fun fs t ht => ?_) hbad
  refine (Moves.ofExcept _).ensures_bind ht (fun word t ht => ?_) hbad
  split
  · exact ⟨Desk.host_of_along ht, .inl ⟨.inl rfl, (Desk.document_of_along ht).trans hd⟩⟩
  refine (Moves.ofExcept _).ensures_bind ht (fun offset t ht => ?_) hbad
  refine (Refactoring.moves_settings c).ensures_bind ht (fun projectSettings t ht => ?_) hbad
  refine (Refactoring.moves_ensureProject _ _).liftJob.ensures_bind ht (fun _ t ht => ?_) hbad
  refine (Refactoring.moves_ensureProject _ _).liftJob.ensures_bind ht (fun _ t ht => ?_) hbad
  refine Refactoring.moves_checkResource.ensures_bind ht (fun _ t ht => ?_) hbad
  refine (moves_sourceOr _).ensures_bind ht (fun source t ht => ?_) hbad
  refine (Engine.moves_ask _).ensures_bind ht (fun _ t ht => ?_) hbad
  have hengines := (intact_of_steps (Desk.host_of_along ht)).engines
  rw [Job.engines, ensures_bind, ensures_bind, ensures_get, ensures_pure, hengines]
  split
  · exact ⟨Desk.host_of_along ht, .inl ⟨.inr rfl, (Desk.document_of_along ht).trans hd⟩⟩
  · rename_i found hfound
    have hhost : ReflTransGen Work desk.host t.host := Desk.host_of_along ht
    rw [Job.setDocument, ensures_bind, ensures_modify]
    refine ⟨hhost, .inr ⟨found, eager.truthy, hfound, ?_, rfl⟩⟩
    simp [List.isEmpty_iff]

end Completion
end LangServer
