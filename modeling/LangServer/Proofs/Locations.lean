import LangServer.Proofs.Uri.Paths
import LangServer.Proofs.WholeEdits

/-!
# The URIs of locations

The URI of a location is not made from the path of its file alone. It is the URI of the document
that the question was asked in, taken apart and put together again with another path. For a
document whose URI was made from a path the other parts are those that a file's URI has
(`Uri.replace_of_rooted`), so the location has the same URI that the file would have as a document.

The plugins that look for definitions and uses make one location for each name they keep, in the
order of the names (`Navigation.ensures_definitions`, `Navigation.ensures_references`).
-/

namespace LangServer

open Relation

/-! ## Another path in a URI -/

namespace Uri

open Text (points)

variable {p q uri : List Char}

theorem IsRooted.ofPath_eq (h : IsRooted p) : ofPath false (points p) = .ok (fileUri [] p) := by
  obtain ⟨rest, rfl, hhead, hdrive⟩ := h
  exact ofPath_of_normalizePath (normalizePath_of_rooted hhead hdrive)

theorem IsRooted.parse_eq (h : IsRooted p) : parse (fileUri [] p) = .ok (fileParts [] p) := by
  obtain ⟨rest, rfl, hhead, -⟩ := h
  exact parse_fileUri List.not_mem_nil (.inr hhead)

/-- **Another path in the URI of a path makes the URI of the other path.** -/
theorem replace_of_rooted (hq : IsRooted q) (hp : IsRooted p)
    (huri : ofPath false (points q) = .ok uri) :
    replace false uri { path := some (points p) } = ofPath false (points p) := by
  have hparse : parse uri = .ok (fileParts [] q) := by
    rw [hq.ofPath_eq] at huri
    rw [← Except.ok.inj huri, hq.parse_eq]
  rw [hp.ofPath_eq]
  obtain ⟨rest, rfl, hhead, hdrive⟩ := hp
  simp only [replace, hparse, normalizePath_of_rooted hhead hdrive, ok_bind]
  exact build_points [] ('/' :: rest)

end Uri

namespace Machine

variable {m : Machine} {p q uri : String}

theorem uriOf_eq_ok_iff (hm : m.backslashes = false) :
    m.uriOf p = .ok uri ↔ Uri.ofPath false (Text.points p.toList) = .ok uri.toList := by
  rw [uriOf, hm]
  rcases Uri.ofPath false (Text.points p.toList) with f | t
  · exact iff_of_false nofun nofun
  · rw [ok_bind]
    show Except.ok (String.ofList t) = _ ↔ _
    rw [Except.ok.injEq, Except.ok.injEq, ← String.toList_inj, String.toList_ofList]

theorem uriWith_of_rooted (hm : m.backslashes = false) (hq : Uri.IsRooted q.toList)
    (hp : Uri.IsRooted p.toList) (huri : m.uriOf q = .ok uri) : m.uriWith uri p = m.uriOf p := by
  rw [uriOf_eq_ok_iff hm] at huri
  rw [uriWith, uriOf, hm, Uri.replace_of_rooted hq hp huri]

theorem exists_uri_of_rooted (hm : m.backslashes = false) (hp : Uri.IsRooted p.toList) :
    ∃ uri, m.uriOf p = .ok uri ∧ m.pathOf uri = .ok p := by
  obtain ⟨uri, hof, hto⟩ := hp.exists_uri
  refine ⟨String.ofList uri, ?_, ?_⟩
  · rw [uriOf, hm, hof, ok_bind]
    rfl
  · rw [pathOf, hm, String.toList_ofList, hto, ok_bind, String.ofList_toList]
    rfl

theorem uriOf_inj (hm : m.backslashes = false) (hp : Uri.IsRooted p.toList)
    (hq : Uri.IsRooted q.toList) (h : m.uriOf p = m.uriOf q) : p = q := by
  obtain ⟨uri, huri, hpath⟩ := exists_uri_of_rooted hm hp
  obtain ⟨uri', huri', hpath'⟩ := exists_uri_of_rooted hm hq
  rw [huri, huri'] at h
  obtain rfl := Except.ok.inj h
  exact Except.ok.inj (hpath.symm.trans hpath')

end Machine

/-! ## Locations -/

namespace Navigation

open Host

/-- The file that a name is in: that of its module, or the one where the engine was asked. -/
def fileOf (own : String) (n : Name) : String := n.modulePath.getD own

/-- A location of a name: the URI of its file, and its range. The URI leads back to the file, and
is that of the document just if the name is in the document's own file. -/
def IsLocation (m : Machine) (d : Document) (own : String) (n : Name) (v : Value) : Prop :=
  ∃ uri range, v = .object [("uri", .str uri), ("range", range)] ∧
    Navigation.range n = .ok range ∧ m.uriOf (fileOf own n) = .ok uri ∧
    m.pathOf uri = .ok (fileOf own n) ∧ (uri = d.uri ↔ fileOf own n = own)

section

variable {m : Machine} {d : Document} {own : String} {n : Name} {v : Value}

theorem location_eq (hm : m.backslashes = false) (hown : Uri.IsRooted own.toList)
    (huri : m.uriOf own = .ok d.uri) (hfile : Uri.IsRooted (fileOf own n).toList) :
    location m d.uri n = (do
      let uri ← m.uriOf (fileOf own n)
      return .object [("uri", .str uri), ("range", ← range n)]) := by
  rw [location]
  rw [fileOf] at hfile ⊢
  cases hpath : n.modulePath with
  | none =>
    rw [Option.getD_none, huri]
    rfl
  | some path =>
    rw [hpath, Option.getD_some] at hfile
    rw [Option.getD_some, ← Machine.uriWith_of_rooted hm hown hfile huri]

theorem isLocation_of_location (hm : m.backslashes = false) (hown : Uri.IsRooted own.toList)
    (huri : m.uriOf own = .ok d.uri) (hfile : Uri.IsRooted (fileOf own n).toList)
    (h : location m d.uri n = .ok v) : IsLocation m d own n v := by
  rw [location_eq hm hown huri hfile] at h
  obtain ⟨uri, hof, h⟩ := exists_of_bind_eq_ok h
  obtain ⟨range, hrange, h⟩ := exists_of_bind_eq_ok h
  obtain ⟨uri', hof', hpath⟩ := Machine.exists_uri_of_rooted hm hfile
  obtain rfl := Except.ok.inj (hof.symm.trans hof')
  refine ⟨uri, range, (Except.ok.inj h).symm, hrange, hof, hpath, fun heq => ?_, fun heq => ?_⟩
  · exact Machine.uriOf_inj hm hfile hown (by rw [hof, heq, huri])
  · rw [heq, huri] at hof
    exact (Except.ok.inj hof).symm

theorem exists_location (hm : m.backslashes = false) (hown : Uri.IsRooted own.toList)
    (huri : m.uriOf own = .ok d.uri) (hfile : Uri.IsRooted (fileOf own n).toList)
    (hline : n.line.isSome = true) (hcolumn : n.column.isSome = true) :
    ∃ v, location m d.uri n = .ok v := by
  obtain ⟨line, hline⟩ := Option.isSome_iff_exists.mp hline
  obtain ⟨column, hcolumn⟩ := Option.isSome_iff_exists.mp hcolumn
  obtain ⟨uri, hof, -⟩ := Machine.exists_uri_of_rooted hm hfile
  rw [location_eq hm hown huri hfile, hof, ok_bind, range, hline, hcolumn]
  exact ⟨_, rfl⟩

end

/-! ## Answers -/

section

variable {desk t : Desk} {d : Document}

theorem ensures_locations (hdoc : desk.document = some d)
    (ht : ReflTransGen (Desk.Along Work) desk t) (kept : List Name) :
    Ensures (do
        let d ← Job.document
        let m ← Job.machine
        return .list (← kept.mapM fun n => liftExcept (location m d.uri n)) : Job Value) t
      (fun v _ => ∃ locations, v = .list locations ∧
        List.Forall₂ (fun n v => location desk.host.machine d.uri n = .ok v) kept locations)
      fun _ _ => True := by
  rw [← (intact_of_steps (Desk.host_of_along ht)).machine]
  have hdoc' : t.document = some d := (Desk.document_of_along ht).trans hdoc
  simp only [Job.document, Job.machine, ensures_bind, ensures_get, hdoc', ensures_pure]
  exact (Refactoring.ensures_mapM_liftExcept _ kept t).imp
    (fun locations _ h => ⟨locations, rfl, h⟩)

/-- **The definitions of a name** are the locations of the definitions that the engine found. -/
theorem ensures_definitions (c : Caller) (position : Value) (hdoc : desk.document = some d) :
    Ensures (definitions c position) desk
      (fun v _ => ∃ found locations, desk.host.engines.definitions = .ok found ∧
        v = .list locations ∧
        List.Forall₂ (fun n v => location desk.host.machine d.uri n = .ok v)
          (found.filter fun n => n.isDefinition && isPlaced n) locations)
      fun _ _ => True := by
  have hbad : ∀ (_ : Fault) (u : Desk), ReflTransGen (Desk.Along Work) desk u → True :=
    fun _ _ _ => trivial
  refine (moves_pluginSettings_work _ _ _).liftJob.ensures_bind .refl (fun _ t ht => ?_) hbad
  refine (Engine.moves_place _).ensures_bind ht (fun _ t ht => ?_) hbad
  refine (Engine.moves_load _ _).ensures_bind ht (fun _ t ht => ?_) hbad
  refine (Moves.ofExcept _).ensures_bind ht (fun _ t ht => ?_) hbad
  refine (Moves.ofExcept _).ensures_bind ht (fun _ t ht => ?_) hbad
  refine (Engine.moves_ask _).ensures_bind ht (fun _ t ht => ?_) hbad
  rw [Job.engines, ensures_bind, ensures_bind, ensures_get, ensures_pure, ensures_bind,
    ensures_liftExcept, (intact_of_steps (Desk.host_of_along ht)).engines]
  refine ⟨fun found hfound => ?_, fun _ _ => trivial⟩
  refine (ensures_locations hdoc ht _).imp ?_
  rintro v - ⟨locations, hv, hlocations⟩
  exact ⟨found, locations, hfound, hv, hlocations⟩

/-- **The uses of a name** are the locations of the uses that the engine found. -/
theorem ensures_references (position : Value) (excludeDeclaration : Bool)
    (hdoc : desk.document = some d) :
    Ensures (references position excludeDeclaration) desk
      (fun v _ => ∃ used locations, desk.host.engines.references = .ok used ∧
        v = .list locations ∧
        List.Forall₂ (fun n v => location desk.host.machine d.uri n = .ok v)
          (used.filter fun n => !(excludeDeclaration && n.isDefinition) && !n.inBuiltinModule)
          locations)
      fun _ _ => True := by
  have hbad : ∀ (_ : Fault) (u : Desk), ReflTransGen (Desk.Along Work) desk u → True :=
    fun _ _ _ => trivial
  refine (Engine.moves_place _).ensures_bind .refl (fun _ t ht => ?_) hbad
  refine (Engine.ensures_query _ _ _ _ t).bind ?_ fun _ _ _ => trivial
  rintro used u ⟨hused, hu⟩
  rw [(intact_of_steps (Desk.host_of_along ht)).engines] at hused
  refine (ensures_locations hdoc (ht.trans hu) _).imp ?_
  rintro v - ⟨locations, hv, hlocations⟩
  exact ⟨used, locations, hused, hv, hlocations⟩

/-- **A location has the URI that its file has as a document.** The document is that of a file
whose path begins with one slash. Then another such path in its URI makes the URI of that path, and
every name with a place in such a file has a location with this URI, which leads back to the file
and is the document's own just for the document's own file. The definitions and the uses of a name
are such locations, one for each name that is kept and in the same order. -/
theorem location_uri_canonical {own : String} (hm : desk.host.machine.backslashes = false)
    (hdoc : desk.document = some d) (hown : Uri.IsRooted own.toList)
    (huri : desk.host.machine.uriOf own = .ok d.uri) :
    (∀ p : String, Uri.IsRooted p.toList →
      desk.host.machine.uriWith d.uri p = desk.host.machine.uriOf p) ∧
    (∀ n : Name, Uri.IsRooted (fileOf own n).toList → n.line.isSome = true →
      n.column.isSome = true → ∃ v, location desk.host.machine d.uri n = .ok v ∧
        IsLocation desk.host.machine d own n v) ∧
    (∀ c position v desk', definitions c position desk = .ok v desk' →
      ∃ found locations, desk.host.engines.definitions = .ok found ∧ v = .list locations ∧
        List.Forall₂ (fun n v => Uri.IsRooted (fileOf own n).toList →
            IsLocation desk.host.machine d own n v)
          (found.filter fun n => n.isDefinition && isPlaced n) locations) ∧
    ∀ position excludeDeclaration v desk',
      references position excludeDeclaration desk = .ok v desk' →
      ∃ used locations, desk.host.engines.references = .ok used ∧ v = .list locations ∧
        List.Forall₂ (fun n v => Uri.IsRooted (fileOf own n).toList →
            IsLocation desk.host.machine d own n v)
          (used.filter fun n => !(excludeDeclaration && n.isDefinition) && !n.inBuiltinModule)
          locations := by
  refine ⟨fun p hp => Machine.uriWith_of_rooted hm hown hp huri, ?_, ?_, ?_⟩
  · intro n hfile hline hcolumn
    obtain ⟨v, hv⟩ := exists_location hm hown huri hfile hline hcolumn
    exact ⟨v, hv, isLocation_of_location hm hown huri hfile hv⟩
  · intro c position v desk' hrun
    obtain ⟨found, locations, hfound, hv, hall⟩ := (ensures_definitions c position hdoc).ok hrun
    refine ⟨found, locations, hfound, hv, hall.imp fun n v hloc hfile => ?_⟩
    exact isLocation_of_location hm hown huri hfile hloc
  · intro position excludeDeclaration v desk' hrun
    obtain ⟨used, locations, hused, hv, hall⟩ :=
      (ensures_references position excludeDeclaration hdoc).ok hrun
    refine ⟨used, locations, hused, hv, hall.imp fun n v hloc hfile => ?_⟩
    exact isLocation_of_location hm hown huri hfile hloc

end

/-- A name in a file whose path holds characters that divide a URI. -/
def elsewhere : Name where
  name := "f"
  line := some 3
  column := some 4
  modulePath := some "/x?%2F;#/\u00e9.py"
  isDefinition := true

/-- The same name in the document below. -/
def inside : Name := { elsewhere with modulePath := some "/w/a b.py", isDefinition := false }

/-- A document whose path is quoted in its URI. -/
def spacedDocument : Document where
  uri := "file:///w/a%20b.py"
  path := "/w/a b.py"
  dotName := "a b"
  filename := "a b.py"
  source := .text "f()"

def spacedDesk : Desk where
  host := {
    engines := { definitions := .ok [elsewhere], references := .ok [elsewhere, inside] }
    spaces := [{
      rootUri := "file:///w", scheme := "file", rootPath := "/w"
      config := some { id := 1, rootUri := "file:///w", rootPath := "/w" } }] }
  document := some spacedDocument

/-- The definition is elsewhere, and a use is in the document itself. -/
theorem spaced_locations :
    (∃ v desk', definitions ⟨0, 0⟩ (.position 0 (.int 0)) spacedDesk = .ok (.list [v]) desk' ∧
      IsLocation {} spacedDocument "/w/a b.py" elsewhere v) ∧
    ∃ v range desk', references (.position 0 (.int 0)) true spacedDesk = .ok (.list [v]) desk' ∧
      v = .object [("uri", .str spacedDocument.uri), ("range", range)] := by
  have hown : Uri.IsRooted "/w/a b.py".toList := ⟨_, rfl, by decide, by decide⟩
  have hfile : Uri.IsRooted (fileOf "/w/a b.py" elsewhere).toList := ⟨_, rfl, by decide, by decide⟩
  have huri : Machine.uriOf {} "/w/a b.py" = .ok spacedDocument.uri :=
    eq_ok_of_toOption (by decide +kernel)
  have hdoc : spacedDesk.document = some spacedDocument := rfl
  obtain ⟨-, -, hdefinitions, hreferences⟩ := location_uri_canonical rfl hdoc hown huri
  constructor
  · have hok : Ensures (definitions ⟨0, 0⟩ (.position 0 (.int 0))) spacedDesk (fun _ _ => True)
        fun _ _ => False := by
      decide +kernel
    obtain ⟨v, desk', hrun, -⟩ := hok.exists_ok
    obtain ⟨found, locations, hfound, rfl, hall⟩ := hdefinitions _ _ _ _ hrun
    obtain rfl := Except.ok.inj hfound
    obtain ⟨v, _, hv, hnil, rfl⟩ := List.forall₂_cons_left_iff.1 hall
    obtain rfl := List.forall₂_nil_left_iff.1 hnil
    exact ⟨v, desk', hrun, hv hfile⟩
  · have hok : Ensures (references (.position 0 (.int 0)) true) spacedDesk (fun _ _ => True)
        fun _ _ => False := by
      decide +kernel
    obtain ⟨v, desk', hrun, -⟩ := hok.exists_ok
    obtain ⟨used, locations, hused, rfl, hall⟩ := hreferences _ _ _ _ hrun
    obtain rfl := Except.ok.inj hused
    obtain ⟨v, _, hv, hnil, rfl⟩ := List.forall₂_cons_left_iff.1 hall
    obtain rfl := List.forall₂_nil_left_iff.1 hnil
    obtain ⟨uri, range, rfl, -, -, -, heq⟩ := hv hown
    exact ⟨_, range, desk', hrun, by rw [heq.mpr rfl]⟩

end Navigation
end LangServer
