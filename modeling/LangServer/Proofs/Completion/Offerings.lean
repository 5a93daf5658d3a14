import LangServer.Proofs.Session.Deeds

/-!
# What the plugins that complete offer

An answer to a request for completions puts together what two plugins offer, each of them in the
order in which its engine found it. `Offering` tells what an answer is made of, and what each
plugin finds on the document under a label afterwards. It is composed of what one plugin does
(`Offering.append`): a plugin keeps its own offers and leaves those of the other alone.

When an item comes back to be resolved, the first plugin that is switched on answers, whoever made
the item, by what it finds under the label (`Hook.call_resolveCompletion`).
-/

namespace LangServer

open Relation Completion

/-! ## What items are made from -/

namespace Completion

/-- What an item is made from: a proposal, a name, or the objects of a class. -/
inductive Made where
  | proposal (p : Proposal)
  | name (n : Name)
  | object (n : Name)

namespace Made

/-- The plugin that offers the item. -/
def maker : Made → Plugin
  | proposal _ => .ropeCompletion
  | name _ | object _ => .jediCompletion

/-- Does a plugin keep the item, so as to resolve it? -/
def isKeptBy (p : Plugin) : Made → Bool
  | proposal _ => p = .ropeCompletion
  | name _ => p = .jediCompletion
  | object _ => false

/-- The item with the detail and documentation of what it is made from. -/
def complete (item : Item) : Made → Except Fault Item
  | proposal p => completeProposal item p
  | name n | object n => resolveItem item n

/-- The item is made for a document from something that an engine found. -/
def IsOffered (engines : Engines) (uri : String) (item : Item) : Made → Prop
  | proposal p => (∃ found, engines.proposals = .ok found ∧ p ∈ found) ∧
      ∃ eager, item = proposalItem uri eager p
  | name n => (∃ names, engines.completions = .ok names ∧ n ∈ names) ∧
      ∃ made, ItemOf n made ∧ item = withDocument uri made
  | object n => (∃ names, engines.completions = .ok names ∧ n ∈ names ∧ n.kind = "class") ∧
      ∃ made, ObjectOf n made ∧ item = withDocument uri made

/-- What a plugin offers is made from all that its engine found, in order, or from nothing. -/
def Drawn (engines : Engines) : Plugin → List Made → Prop
  | .ropeCompletion, made => made = [] ∨ ∃ found, engines.proposals = .ok found ∧
      made = found.map proposal
  | .jediCompletion, made => made = [] ∨ ∃ names, engines.completions = .ok names ∧
      (made = names.map name ∨
        made = names.map name ++ (names.filter fun n => n.kind == "class").map object)
  | _, made => made = []

variable {engines : Engines} {uri : String} {item : Item} {made : Made} {p : Plugin}

theorem drawn_nil (engines : Engines) (p : Plugin) : Drawn engines p [] := by
  rcases p
  case ropeCompletion => exact .inl rfl
  case jediCompletion => exact .inl rfl
  all_goals rfl

theorem drawn_nils (engines : Engines) (ps : List Plugin) :
    List.Forall₂ (Drawn engines) ps (ps.map fun _ => []) := by
  rw [List.forall₂_map_right_iff, List.forall₂_same]
  exact fun p _ => drawn_nil engines p

theorem maker_eq_of_isKeptBy (h : made.isKeptBy p = true) : made.maker = p := by
  rcases made with _ | _ | _
  case object => cases h
  all_goals exact (of_decide_eq_true h).symm

theorem lookup_data_withDocument (uri : String) (item : Item) :
    Value.lookup "data" (withDocument uri item) = some (.object [("doc_uri", .str uri)]) :=
  Value.lookup_insert_self _ _ _

theorem IsOffered.lookup_data (h : made.IsOffered engines uri item) :
    Value.lookup "data" item = some (.object [("doc_uri", .str uri)]) := by
  rcases made with p | n | n
  · obtain ⟨-, eager, rfl⟩ := h
    rw [proposalItem]
    split
    · rw [resolveProposalItem, Value.lookup_insert_of_ne (by decide),
        Value.lookup_insert_of_ne (by decide), lookup_data_withDocument]
    · rw [lookup_data_withDocument]
  all_goals
    obtain ⟨-, made, -, rfl⟩ := h
    exact lookup_data_withDocument uri made

theorem IsOffered.exists_label (h : made.IsOffered engines uri item) :
    ∃ label, labelOf? item = some label := by
  rcases made with p | n | n
  · obtain ⟨-, eager, rfl⟩ := h
    refine ⟨p.name, ?_⟩
    rw [proposalItem]
    split
    · rw [resolveProposalItem, labelOf?_insert (by decide), labelOf?_insert (by decide),
        withDocument, labelOf?_insert (by decide)]
      rfl
    · rw [withDocument, labelOf?_insert (by decide)]
      rfl
  · obtain ⟨-, made, ⟨-, label, hlabel⟩, rfl⟩ := h
    exact ⟨label, (labelOf?_insert (by decide) _ _).trans hlabel⟩
  · obtain ⟨-, _, ⟨made, ⟨-, label, hlabel⟩, rfl⟩, rfl⟩ := h
    exact ⟨label ++ " object", (labelOf?_insert (by decide) _ _).trans (labelOf?_asObject hlabel)⟩

end Made

/-! ## What plugins find under a label -/

/-- The plugins that complete, in the order in which they are called. -/
def completers : List Plugin := [.ropeCompletion, .jediCompletion]

/-- What a plugin finds on a document under a label. -/
def finds (d : Document) (label : String) : Plugin → Option (Option (Except Fault Item))
  | .ropeCompletion => outcome completeProposal d.proposals label
  | .jediCompletion => outcome resolveItem d.offers label
  | _ => none

/-- What a plugin finds under a label when it has kept its offers: the last of them, completed. -/
def recalled (offered : List (Item × Made)) (label : String) (p : Plugin) :
    Option (Except Fault Item) :=
  (last? label (offered.filter fun o => o.2.isKeptBy p)).map fun o => o.2.complete o.1

theorem finds_of_keeps {d d' : Document} (h : d.Keeps d') : finds d' = finds d := by
  funext label p
  rcases p
  case ropeCompletion => exact congrFun h.proposals label
  case jediCompletion => exact congrFun h.offers label
  all_goals rfl

/-- The items of an answer, for the editor. -/
def itemList (offered : List (Item × Made)) : Value := .list ((offered.map (·.1)).map .object)

/-- What a plugin answers for an item by what it finds under its label; a plugin that fails answers
with the empty list. -/
def answered (item : Item) : Option (Option (Except Fault Item)) → Value
  | none | some (some (.error _)) => .list []
  | some none => .object item
  | some (some (.ok own)) => .object own

theorem answered_outcome {α : Type} {item : Item} {label : String}
    (hlabel : labelOf? item = some label) (table : Option (List (String × Offer α)))
    (complete : Item → α → Except Fault Item) (name : String) :
    answered item (outcome complete table label) =
      match resolveOffer table complete name (.object item) with
      | .ok (v, _) => v
      | .error _ => .list [] := by
  have hmap := resolveOffer_eq hlabel table complete name
  generalize outcome complete table label = found at hmap ⊢
  generalize resolveOffer table complete name (.object item) = result at hmap ⊢
  rcases found with _ | _ | _ | own <;> rcases result with f | ⟨v, table'⟩ <;>
    simp_all [answered, Except.map]

theorem bind_finds_of_rel {d? d'? : Option Document} (h : Option.Rel Document.Keeps d? d'?)
    (label : String) (p : Plugin) :
    (d'?.bind fun d => finds d label p) = d?.bind fun d => finds d label p := by
  rcases h with h | _
  · exact congrFun (congrFun (finds_of_keeps h) label) p
  · rfl

theorem last?_map {α β : Type} (f : α → β) (label : String) (offers : List (Item × α)) :
    last? label (offers.map fun o => (o.1, f o.2)) =
      (last? label offers).map fun o => (o.1, f o.2) := by
  rw [last?, last?, ← List.map_reverse, List.find?_map]
  rfl

/-- What a request for completions offers for a document and leaves on it: the plugins of `kept`
have kept their offers anew, and all others find what they found before. -/
structure Offering (engines : Engines) (d : Document) (offered : List (Item × Made))
    (kept : List Plugin) (d' : Document) : Prop where
  uri : d'.uri = d.uri
  isOffered : ∀ o ∈ offered, o.2.IsOffered engines d.uri o.1
  maker : ∀ o ∈ offered, o.2.maker ∈ kept
  finds : ∀ label p, finds d' label p =
    if p ∈ kept then some (recalled offered label p) else finds d label p

namespace Offering

variable {engines : Engines} {d d' d'' : Document} {offered offered' : List (Item × Made)}
  {kept kept' : List Plugin}

theorem nil (engines : Engines) (d : Document) : Offering engines d [] [] d :=
  ⟨rfl, fun _ ho => absurd ho List.not_mem_nil, fun _ ho => absurd ho List.not_mem_nil,
    fun _ _ => (if_neg List.not_mem_nil).symm⟩

theorem filter_isKeptBy_eq_nil (h : Offering engines d offered kept d') {p : Plugin}
    (hp : p ∉ kept) : (offered.filter fun o => o.2.isKeptBy p) = [] :=
  List.filter_eq_nil_iff.2 fun o ho hkept =>
    hp (Made.maker_eq_of_isKeptBy hkept ▸ h.maker o ho)

/-- **One plugin after another**: each keeps its own offers. -/
theorem append (h1 : Offering engines d offered kept d')
    (h2 : Offering engines d' offered' kept' d'') (hkept : ∀ p ∈ kept, p ∉ kept') :
    Offering engines d (offered ++ offered') (kept ++ kept') d'' := by
  refine ⟨h2.uri.trans h1.uri, fun o ho => ?_, fun o ho => ?_, fun label p => ?_⟩
  · rcases List.mem_append.1 ho with ho | ho
    · exact h1.isOffered o ho
    · exact h1.uri ▸ h2.isOffered o ho
  · rcases List.mem_append.1 ho with ho | ho
    · exact List.mem_append_left _ (h1.maker o ho)
    · exact List.mem_append_right _ (h2.maker o ho)
  · rw [h2.finds, recalled, recalled, List.filter_append]
    by_cases hp' : p ∈ kept'
    · have hp : p ∉ kept := fun hp => hkept p hp hp'
      rw [h1.filter_isKeptBy_eq_nil hp, List.nil_append, if_pos hp',
        if_pos (List.mem_append_right _ hp')]
    · rw [h2.filter_isKeptBy_eq_nil hp', List.append_nil, if_neg hp', h1.finds, recalled]
      by_cases hp : p ∈ kept
      · rw [if_pos hp, if_pos (List.mem_append_left _ hp)]
      · rw [if_neg hp, if_neg fun h => (List.mem_append.1 h).elim hp hp']

theorem finds_byLabel {α : Type} {complete : Item → α → Except Fault Item} {f : α → Made}
    (hcomplete : ∀ item a, (f a).complete item = complete item a) {p : Plugin}
    (hkept : ∀ a, (f a).isKeptBy p = true) (offers : List (Item × α)) (label : String) :
    outcome complete (some (byLabel offers)) label =
      some (recalled (offers.map fun o => (o.1, f o.2)) label p) := by
  have hall : ((offers.map fun o => (o.1, f o.2)).filter fun o => o.2.isKeptBy p) =
      offers.map fun o => (o.1, f o.2) := by
    refine List.filter_eq_self.2 fun o ho => ?_
    obtain ⟨o, -, rfl⟩ := List.mem_map.1 ho
    exact hkept o.2
  rw [outcome, Option.map_some, lookup_byLabel, recalled, hall, last?_map, Option.map_map,
    Option.map_map]
  refine congrArg some (Option.map_congr fun o _ => ?_)
  exact (hcomplete o.1 o.2).symm

theorem proposals {found : List Proposal} (hfound : engines.proposals = .ok found) (eager : Bool)
    (d : Document) :
    Offering engines d (found.map fun p => (proposalItem d.uri eager p, .proposal p))
      [.ropeCompletion]
      { d with
        proposals := some (byLabel ((found.map (proposalItem d.uri eager)).zip found)) } := by
  have hzip : (found.map fun p => (proposalItem d.uri eager p, Made.proposal p)) =
      ((found.map (proposalItem d.uri eager)).zip found).map fun o => (o.1, .proposal o.2) := by
    rw [← List.map_prod_right_eq_zip, List.map_map]
    rfl
  refine ⟨rfl, fun o ho => ?_, fun o ho => ?_, fun label p => ?_⟩
  · obtain ⟨p, hp, rfl⟩ := List.mem_map.1 ho
    exact ⟨⟨found, hfound, hp⟩, eager, rfl⟩
  · obtain ⟨p, -, rfl⟩ := List.mem_map.1 ho
    exact List.mem_singleton_self _
  · by_cases hp : p = .ropeCompletion
    · rw [hp, if_pos (List.mem_singleton_self _), hzip]
      exact finds_byLabel (f := .proposal) (p := .ropeCompletion) (fun _ _ => rfl) (fun _ => rfl)
        _ _
    · rw [if_neg fun h => hp (List.mem_singleton.1 h)]
      rcases p
      case ropeCompletion => exact absurd rfl hp
      all_goals rfl

theorem of_forall₂ {R : Name → Item → Prop} {names : List Name} {items : List Item}
    (h : List.Forall₂ R names items) (f : Item → Item) (wrap : Name → Made) :
    (((items.map f).zip names).map fun o => (o.1, wrap o.2)).map (·.1) = items.map f ∧
      (((items.map f).zip names).map fun o => (o.1, wrap o.2)).map (·.2) = names.map wrap ∧
      ∀ o ∈ ((items.map f).zip names).map fun o => (o.1, wrap o.2),
        ∃ n item, n ∈ names ∧ R n item ∧ o = (f item, wrap n) := by
  have hlength : (items.map f).length = names.length := by rw [List.length_map, h.length_eq]
  refine ⟨?_, ?_, ?_⟩
  · rw [List.map_map]
    exact List.map_fst_zip (Nat.le_of_eq hlength)
  · rw [List.map_map]
    refine Eq.trans ?_ (congrArg (List.map wrap) (List.map_snd_zip (Nat.le_of_eq hlength.symm)))
    rw [List.map_map]
    rfl
  · rw [List.zip_map_left, List.map_map]
    intro o ho
    obtain ⟨⟨item, n⟩, hmem, rfl⟩ := List.mem_map.1 ho
    refine ⟨n, item, (List.of_mem_zip hmem).2, ?_, rfl⟩
    exact (List.forall₂_iff_zip.1 (List.Forall₂.flip (R := flip R) h)).2 hmem

theorem names {names classes : List Name} (hnames : engines.completions = .ok names)
    (hclasses : ∀ n ∈ classes, n ∈ names ∧ n.kind = "class") {items extra : List Item}
    (hitems : List.Forall₂ ItemOf names items) (hextra : List.Forall₂ ObjectOf classes extra)
    (d : Document) :
    Offering engines d
      ((((items.map (withDocument d.uri)).zip names).map fun o => (o.1, .name o.2)) ++
        ((extra.map (withDocument d.uri)).zip classes).map fun o => (o.1, .object o.2))
      [.jediCompletion]
      { d with offers := some (byLabel ((items.map (withDocument d.uri)).zip names)) } := by
  have hname := (of_forall₂ hitems (withDocument d.uri) .name).2.2
  have hobject := (of_forall₂ hextra (withDocument d.uri) .object).2.2
  refine ⟨rfl, fun o ho => ?_, fun o ho => ?_, fun label p => ?_⟩
  · rcases List.mem_append.1 ho with ho | ho
    · obtain ⟨n, item, hn, hitem, rfl⟩ := hname o ho
      exact ⟨⟨names, hnames, hn⟩, item, hitem, rfl⟩
    · obtain ⟨n, item, hn, hitem, rfl⟩ := hobject o ho
      exact ⟨⟨names, hnames, hclasses n hn⟩, item, hitem, rfl⟩
  · rcases List.mem_append.1 ho with ho | ho
    · obtain ⟨n, item, -, -, rfl⟩ := hname o ho
      exact List.mem_singleton_self _
    · obtain ⟨n, item, -, -, rfl⟩ := hobject o ho
      exact List.mem_singleton_self _
  · by_cases hp : p = .jediCompletion
    · have hnone : ((((extra.map (withDocument d.uri)).zip classes).map
          fun o => (o.1, Made.object o.2)).filter fun o => o.2.isKeptBy p) = [] := by
        refine List.filter_eq_nil_iff.2 fun o ho => ?_
        obtain ⟨n, item, -, -, rfl⟩ := hobject o ho
        exact Bool.false_ne_true
      rw [hp, if_pos (List.mem_singleton_self _), recalled, List.filter_append, ← hp, hnone,
        List.append_nil, ← recalled, hp]
      exact finds_byLabel (f := .name) (p := .jediCompletion) (fun _ _ => rfl) (fun _ => rfl) _ _
    · rw [if_neg fun h => hp (List.mem_singleton.1 h)]
      rcases p
      case jediCompletion => exact absurd rfl hp
      all_goals rfl

end Offering
end Completion

/-! ## The plugins that complete -/

namespace Hook

variable {c : Caller} {p : Plugin}

theorem jobs_completion (c : Caller) (hook : Hook) (hhook : hook.isCompletion = true) (m : Machine)
    (config : Config) :
    (hook.order (m.loaded.filter fun p => config.runs m p)).filterMap
        (fun p => implementation? c p hook) =
      (completers.filter fun p => config.runs m p).filterMap fun p => implementation? c p hook := by
  rcases hook
  case completions =>
    exact jobs_eq c (by rintro ⟨⟩ <;> rfl) (by rintro ⟨⟩ <;> rfl) (by decide) m config
  case resolveCompletion =>
    exact jobs_eq c (by rintro ⟨⟩ <;> rfl) (by rintro ⟨⟩ <;> rfl) (by decide) m config
  all_goals cases hhook

/-- **What one plugin offers** for a document, and what it leaves there. -/
theorem ensures_implementation?_completions {position : Value} {job : Job Value}
    (hjob : implementation? c p (.completions position) = some job) {desk : Desk} {d : Document}
    (hd : desk.document = some d) (hp : desk.host.Primed) :
    Ensures job desk
      (fun v t => ∃ offered kept d', (v = .null ∧ offered = [] ∨ v = itemList offered) ∧
        Made.Drawn desk.host.engines p (offered.map (·.2)) ∧ (∀ q ∈ kept, q = p) ∧
        ReflTransGen Host.Work desk.host t.host ∧ t.document = some d' ∧
        Offering desk.host.engines d offered kept d')
      fun _ _ => True := by
  rcases p <;> cases hjob
  · refine (ensures_completions c position hd hp).mono ?_ fun _ _ _ => trivial
    rintro v t ⟨hhost, names, hnames, ⟨-, hv, hd'⟩ | ⟨items, extra, hitems, hextra, hv, hd'⟩⟩
    · exact ⟨[], [], d, .inl ⟨hv, rfl⟩, Made.drawn_nil _ _, fun _ h => absurd h List.not_mem_nil,
        hhost, hd', .nil _ _⟩
    obtain ⟨classes, hclasses, hextra⟩ : ∃ classes : List Name,
        (classes = [] ∨ classes = names.filter fun n => n.kind == "class") ∧
          List.Forall₂ ObjectOf classes extra := by
      rcases hextra with rfl | hextra
      · exact ⟨[], .inl rfl, .nil⟩
      · exact ⟨_, .inr rfl, hextra⟩
    have hmem : ∀ n ∈ classes, n ∈ names ∧ n.kind = "class" := by
      rcases hclasses with rfl | rfl <;> simp
    obtain ⟨hitem₁, hitem₂, -⟩ := Offering.of_forall₂ hitems (withDocument d.uri) .name
    obtain ⟨hextra₁, hextra₂, -⟩ := Offering.of_forall₂ hextra (withDocument d.uri) .object
    refine ⟨_, _, _, .inr ?_, .inr ⟨names, hnames, ?_⟩, fun q hq => List.mem_singleton.1 hq,
      hhost, hd', .names hnames hmem hitems hextra d⟩
    · rw [hv, itemList, List.map_append (f := Prod.fst), hitem₁, hextra₁]
    · rw [List.map_append, hitem₂, hextra₂]
      rcases hclasses with rfl | rfl
      · exact .inl (List.append_nil _)
      · exact .inr rfl
  · refine (ensures_proposals c position hd).mono ?_ fun _ _ _ => trivial
    rintro v t ⟨hhost, ⟨hv, hd'⟩ | ⟨found, eager, hfound, hv, hd'⟩⟩
    · exact ⟨[], [], d, hv.imp_left fun hv => ⟨hv, rfl⟩, Made.drawn_nil _ _,
        fun _ h => absurd h List.not_mem_nil, hhost, hd', .nil _ _⟩
    refine ⟨_, _, _, ?_, .inr ⟨found, hfound, ?_⟩, fun q hq => List.mem_singleton.1 hq, hhost,
      hd', .proposals hfound eager d⟩
    swap
    · rw [List.map_map]
      rfl
    by_cases hempty : found = []
    · rw [if_pos hempty] at hv
      exact .inl ⟨hv, by rw [hempty, List.map_nil]⟩
    · rw [if_neg hempty] at hv
      rw [hv, itemList, List.map_map (f := fun p => (proposalItem d.uri eager p, Made.proposal p))]
      exact .inr rfl

/-- **What plugins offer together**, one after another. -/
theorem ensures_collect_completions (c : Caller) (position : Value) {ps : List Plugin}
    (hps : ps.Nodup) {desk : Desk} {d : Document} (hd : desk.document = some d)
    (hp : desk.host.Primed) :
    Ensures (collect (ps.filterMap fun p => implementation? c p (.completions position))) desk
      (fun answers t => ∃ offered kept parts d',
        (Value.list answers).flatten = .ok (itemList offered) ∧
        List.Forall₂ (Made.Drawn desk.host.engines) ps parts ∧ offered.map (·.2) = parts.flatten ∧
        (∀ q ∈ kept, q ∈ ps) ∧ t.document = some d' ∧
        Offering desk.host.engines d offered kept d')
      fun _ _ => True := by
  induction ps generalizing desk d with
  | nil => exact ⟨[], [], [], d, rfl, .nil, rfl, fun _ h => h, hd, .nil _ _⟩
  | cons p ps ih =>
    obtain ⟨hnot, hps⟩ := List.nodup_cons.1 hps
    rcases hjob : implementation? c p (.completions position) with _ | job
    · rw [List.filterMap_cons_none (f := fun p => implementation? c p _) hjob]
      refine (ih hps hd hp).imp ?_
      rintro answers t ⟨offered, kept, parts, d', hflat, hdrawn, hparts, hkept, hd', hoffering⟩
      exact ⟨offered, kept, [] :: parts, d', hflat, .cons (Made.drawn_nil _ p) hdrawn, hparts,
        fun q hq => List.mem_cons_of_mem _ (hkept q hq), hd', hoffering⟩
    rw [List.filterMap_cons_some (f := fun p => implementation? c p _) hjob, collect]
    refine (ensures_implementation?_completions hjob hd hp).bind ?_ fun _ _ h => h
    rintro v t ⟨own, kept, d₁, hv, hown, hkept, hhost, hd₁, hoffering⟩
    refine (ih hps hd₁ (hp.steps hhost)).bind ?_ fun _ _ h => h
    rintro answers u ⟨offered, kept', parts, d', hflat, hdrawn, hparts, hkept', hd', hoffering'⟩
    rw [(Host.intact_of_steps hhost).engines] at hdrawn hoffering'
    refine ⟨own ++ offered, kept ++ kept', own.map (·.2) :: parts, d', ?_, .cons hown hdrawn, ?_,
      fun q hq => ?_, hd', hoffering.append hoffering' fun q hq hq' => ?_⟩
    · rcases hv with ⟨rfl, rfl⟩ | rfl
      · exact hflat
      · simp only [itemList, List.map_append]
        exact Value.flatten_cons _ hflat
    · rw [List.map_append, hparts, List.flatten_cons]
    · rcases List.mem_append.1 hq with hq | hq
      · exact hkept q hq ▸ List.mem_cons_self
      · exact List.mem_cons_of_mem _ (hkept' q hq)
    · exact hnot (hkept q hq ▸ hkept' q hq')

theorem exists_offering_call (c : Caller) (position : Value) (m : Machine) (config : Config)
    {desk desk' : Desk} {d : Document} {v : Value} (hd : desk.document = some d)
    (hp : desk.host.Primed)
    (hcall : (Hook.completions position).call c (m.loaded.filter fun p => config.runs m p) desk =
      (v, desk')) :
    ∃ offered kept parts, v.flatten = .ok (itemList offered) ∧
      List.Forall₂ (Made.Drawn desk.host.engines) (completers.filter fun p => config.runs m p)
        parts ∧
      offered.map (·.2) = parts.flatten ∧
      (∀ p ∈ kept, p ∈ completers.filter fun p => config.runs m p) ∧
      (offered = [] ∨ ∃ d', desk'.document = some d' ∧
        Offering desk.host.engines d offered kept d') := by
  have hnodup : (completers.filter fun p => config.runs m p).Nodup :=
    List.Nodup.filter _ (by decide)
  have hperform : Ensures
      ((Hook.completions position).perform c (m.loaded.filter fun p => config.runs m p)) desk
      (fun v t => ∃ offered kept parts d', v.flatten = .ok (itemList offered) ∧
        List.Forall₂ (Made.Drawn desk.host.engines) (completers.filter fun p => config.runs m p)
          parts ∧ offered.map (·.2) = parts.flatten ∧
        (∀ p ∈ kept, p ∈ completers.filter fun p => config.runs m p) ∧ t.document = some d' ∧
        Offering desk.host.engines d offered kept d')
      fun _ _ => True := by
    rw [perform, jobs_completion c _ rfl m config]
    rw [if_neg (by simp [takesFirst])]
    exact (ensures_collect_completions c position hnodup hd hp).bind (fun _ _ h => h) fun _ _ h => h
  rw [call] at hcall
  split at hcall
  · rename_i hrun
    obtain ⟨rfl, rfl⟩ := Prod.mk.inj hcall
    obtain ⟨offered, kept, parts, d', hflat, hdrawn, hparts, hkept, hd', hoffering⟩ :=
      hperform.ok hrun
    exact ⟨offered, kept, parts, hflat, hdrawn, hparts, hkept, .inr ⟨d', hd', hoffering⟩⟩
  · obtain ⟨rfl, rfl⟩ := Prod.mk.inj hcall
    exact ⟨[], [], _, rfl, Made.drawn_nils _ _, by simp, by simp, .inl rfl⟩

theorem flatten_call_of_none (c : Caller) (position : Value) (m : Machine) (config : Config)
    (desk : Desk) (hd : desk.document = none) :
    ((Hook.completions position).call c (m.loaded.filter fun p => config.runs m p) desk).1.flatten =
      .ok (itemList []) := by
  have hfails : ∀ p job, implementation? c p (.completions position) = some job →
      Ensures job desk (fun _ _ => False) fun _ _ => True := by
    intro p job hjob
    have hnone : ∀ f : Document → Job Value, Ensures (Job.document >>= f) desk (fun _ _ => False)
        fun _ _ => True := by
      intro f
      exact (Job.ensures_document_of_none hd).bind (fun _ _ h => h.elim) fun _ _ _ => trivial
    rcases p <;> cases hjob
    · rw [Completion.completions, Job.pathValue, bind_assoc]
      exact hnone _
    · exact hnone _
  have hperform : Ensures
      ((Hook.completions position).perform c (m.loaded.filter fun p => config.runs m p)) desk
      (fun v _ => v.flatten = .ok (itemList [])) fun _ _ => True := by
    rw [perform, jobs_completion c _ rfl m config]
    rw [if_neg (by simp [takesFirst]), ensures_bind]
    generalize hjobs : (completers.filter fun p => config.runs m p).filterMap
      (fun p => implementation? c p (.completions position)) = jobs
    rcases jobs with _ | ⟨job, rest⟩
    · exact rfl
    · obtain ⟨p, -, hjob⟩ := List.mem_filterMap.1 (hjobs ▸ List.mem_cons_self : job ∈ _)
      rw [collect]
      exact (hfails p job hjob).bind (fun _ _ h => h.elim) fun _ _ h => h
  rw [call]
  split
  · rename_i hrun
    exact hperform.ok hrun
  · rfl

/-- A plugin answers for an item by what it finds under its label. -/
theorem ensures_implementation?_resolveCompletion {item : Item} {label : String}
    (hlabel : labelOf? item = some label) {job : Job Value}
    (hjob : implementation? c p (.resolveCompletion (.object item)) = some job) (desk : Desk) :
    Ensures job desk
      (fun v _ => v.isNull = false ∧
        v = answered item (desk.document.bind fun d => finds d label p))
      fun _ _ => answered item (desk.document.bind fun d => finds d label p) = .list [] := by
  have hnone : desk.document = none → ∀ f : Document → Job Value,
      Ensures (Job.document >>= f) desk (fun v _ => v.isNull = false ∧
        v = answered item (desk.document.bind fun d => finds d label p))
        fun _ _ => answered item (desk.document.bind fun d => finds d label p) = .list [] := by
    intro hd f
    rw [ensures_bind, hd]
    exact (Job.ensures_document_of_none hd).mono (fun _ _ h => h.elim) fun _ _ _ => rfl
  rcases hd : desk.document with _ | d
  · rw [hd] at hnone
    rcases p <;> cases hjob <;> exact hnone rfl _
  rcases p <;> cases hjob
  · have hanswered := answered_outcome hlabel d.offers resolveItem offersName
    refine (ensures_resolveCompletion (.object item) hd).mono ?_ ?_
    · rintro v t ⟨offers, hresolve, -⟩
      rw [hresolve] at hanswered
      exact ⟨isNull_of_resolveOffer hresolve, hanswered.symm⟩
    · rintro f t ⟨-, hresolve⟩
      rw [hresolve] at hanswered
      exact hanswered
  · have hanswered := answered_outcome hlabel d.proposals completeProposal proposalsName
    refine (ensures_resolveProposal (.object item) hd).mono ?_ ?_
    · rintro v t ⟨proposals, hresolve, -⟩
      rw [hresolve] at hanswered
      exact ⟨isNull_of_resolveOffer hresolve, hanswered.symm⟩
    · rintro f t ⟨-, hresolve⟩
      rw [hresolve] at hanswered
      exact hanswered

/-- **The first plugin that is switched on answers for an item**, whoever made it. -/
theorem call_resolveCompletion (c : Caller) (m : Machine) (config : Config) {item : Item}
    {label : String} (hlabel : labelOf? item = some label) (desk : Desk) :
    ((Hook.resolveCompletion (.object item)).call c (m.loaded.filter fun p => config.runs m p)
        desk).1 =
      match completers.find? fun p => config.runs m p with
      | none => .null
      | some p => answered item (desk.document.bind fun d => finds d label p) := by
  have htakes : (Hook.resolveCompletion (.object item)).takesFirst = true := rfl
  have hjobs := jobs_completion c (.resolveCompletion (.object item)) rfl m config
  rw [call, perform, hjobs, if_pos htakes, ← List.head?_filter]
  rcases hon : completers.filter fun p => config.runs m p with _ | ⟨p, rest⟩
  · rfl
  have hmem : p ∈ completers := List.mem_of_mem_filter (hon ▸ List.mem_cons_self)
  obtain ⟨job, hjob⟩ :
      ∃ job, implementation? c p (.resolveCompletion (.object item)) = some job := by
    simp only [completers, List.mem_cons, List.not_mem_nil, or_false] at hmem
    rcases hmem with rfl | rfl <;> exact ⟨_, rfl⟩
  have hanswer := ensures_implementation?_resolveCompletion hlabel hjob desk
  have hfirst : Ensures (first ((p :: rest).filterMap
      fun p => implementation? c p (.resolveCompletion (.object item)))) desk
      (fun v _ => v = answered item (desk.document.bind fun d => finds d label p))
      fun _ _ => answered item (desk.document.bind fun d => finds d label p) = .list [] := by
    rw [List.filterMap_cons_some (f := fun p => implementation? c p _) hjob, first]
    refine hanswer.bind ?_ fun _ _ h => h
    rintro v t ⟨hnull, hv⟩
    rw [hnull, if_neg Bool.false_ne_true]
    exact hv
  dsimp only [List.head?_cons]
  split
  · rename_i hrun
    exact hfirst.ok hrun
  · rename_i hrun
    exact (hfirst.error hrun).symm

end Hook

end LangServer
