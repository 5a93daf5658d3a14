import LangServer.Proofs.Edit.Sent
import LangServer.Proofs.Session.Documents
import Mathlib.Data.List.Forall2

/-!
# Documents follow the editor

An editor opens a document with a text and then tells every change of it, some changes in each
request. The server applies them one by one, by lines; what the editor has is the text with the
same changes made by offsets. `ensures_didChange_of_carries` is the step, one request, and
`didChangeAll_eq_foldl_edit` the run: after any number of requests the document has the editor's
text, and nothing has happened to any other document.
-/

namespace LangServer

open Document

/-- The second host differs from the first at most in the document under a URI in a workspace, and
that document has the text. -/
structure Host.Shows (h h' : Host) (n : Nat) (uri : String) (text : List Char) : Prop where
  text : ∃ d, h'.documentAt n uri = some d ∧ d.source = .text (String.ofList text)
  others : ∀ m v, ¬ (m = n ∧ v = uri) → h'.documentAt m v = h.documentAt m v

namespace Host

variable {h h' h'' : Host} {n : Nat} {uri : String} {text text' : List Char} {d : Document}

theorem Shows.trans (h1 : h.Shows h' n uri text) (h2 : h'.Shows h'' n uri text') :
    h.Shows h'' n uri text' :=
  ⟨h2.text, fun m v hmv => (h2.others m v hmv).trans (h1.others m v hmv)⟩

theorem shows_put (hlt : n < h.spaces.length) (hsource : d.source = .text (String.ofList text)) :
    h.Shows (h.put n uri d) n uri text := by
  refine ⟨⟨d, ?_, hsource⟩, fun m v hmv => ?_⟩
  · rw [documentAt_put hlt, if_pos ⟨rfl, rfl⟩]
  · rw [documentAt_put hlt, if_neg hmv]

end Host

theorem Document.offsetAt_position {fs : Files} {d : Document} {text : String}
    (hread : d.read fs = .ok text) (p : Position) :
    d.offsetAt fs (.position p.line (.int p.character)) =
      .ok (offset (Text.lines text.toList) p.line p.character) := by
  simp [offsetAt, Document.lines, hread, Value.position, Value.item, Value.lookup, bound,
    Value.number, bind, Except.bind, pure, Except.pure]

namespace Session

/-- The request tells changes of the document with a URI. -/
def Carries (uri : String) (ps : Params) (changes : List Change) : Prop :=
  documentUri? ps = some uri ∧
    ∃ values, (arg ps "contentChanges").elements = .ok values ∧
      List.Forall₂ Change.SentAs changes values

/-- The parameters with which an editor tells changes of a document. -/
def changing (uri : String) (changes : List Change) : Params :=
  [("textDocument", .object [("uri", .str uri)]),
    ("contentChanges", .list (changes.map Change.toValue))]

theorem carries_changing (uri : String) (changes : List Change) :
    Carries uri (changing uri changes) changes := by
  refine ⟨rfl, changes.map Change.toValue, rfl, ?_⟩
  rw [List.forall₂_map_right_iff, List.forall₂_same]
  exact fun c _ => c.sentAs_toValue

/-- Handles one request after the other. -/
def didChangeAll (messages : List Params) : Serve Unit := do
  for ps in messages do
    let _ ← didChange ps

variable {s : Session} {uri : String} {n : Nat}

theorem get_version_of_documentUri? {ps : Params} (h : documentUri? ps = some uri) :
    ∃ version, (arg ps "textDocument").get "version" = .ok version := by
  have hitem := documentUri?_eq_some_iff.1 h
  cases hdoc : arg ps "textDocument" with
  | object members => exact ⟨_, rfl⟩
  | _ =>
    rw [hdoc] at hitem
    cases hitem

/-- **One request** gives the document the text that the editor has after the changes, and always
succeeds. -/
theorem ensures_didChange_of_carries {ps : Params} {changes : List Change} {text : List Char}
    {d : Document} (hcarry : Carries uri ps changes) (hlie : Change.LieIn changes text)
    (hn : s.spaceOf? uri = some n) (hd : s.host.documentAt n uri = some d)
    (hsource : d.source = .text (String.ofList text)) :
    Ensures (didChange ps) s
      (fun _ s' => ∃ host timers, s' = { s with host, timers } ∧
        s.host.Shows host n uri (changes.foldl (fun t c => c.edit t) text))
      fun _ _ => False := by
  obtain ⟨huri, values, hvalues, hsent⟩ := hcarry
  obtain ⟨version, hversion⟩ := get_version_of_documentUri? huri
  simp only [didChange, uriArg, spaceFor, ensures_bind, ensures_liftExcept_ok, ensures_get,
    ensures_pure, documentUri?_eq_some_iff.1 huri, hvalues, hn]
  -- the changes that are left take the text so far to the same text as all changes together
  refine (ensures_forIn (motive := fun rest t => ∃ cs text' host,
    List.Forall₂ Change.SentAs cs rest ∧ Change.LieIn cs text' ∧
    cs.foldl (fun t c => c.edit t) text' = changes.foldl (fun t c => c.edit t) text ∧
    t = { s with host } ∧ s.host.Shows host n uri text') ?_
    ⟨changes, text, s.host, hsent, hlie, rfl, rfl, ⟨d, hd, hsource⟩, fun _ _ _ => rfl⟩).imp ?_
  · rintro value rest _ ⟨_, text', host, hsent, hlie, hfold, rfl, hshows⟩
    cases hsent with
    | @cons c _ cs _ hc hsent =>
      obtain ⟨d', hd', hsource'⟩ := hshows.text
      have hread : d'.read host.machine.files = .ok (String.ofList text') := by
        rw [Document.read, Document.readOr, hsource']
      have hchange := Document.change_of_sentAs hread hc
      rw [String.toList_ofList, Change.apply_eq_edit hlie.1] at hchange
      have hlt := Host.lt_of_documentAt hd'
      simp only [ensures_bind, ensures_require_some, ensures_liftExcept_ok, ensures_liftAct,
        ensures_pure, Value.textOr, hversion]
      simp only [Host.ensures_changeDocument, hd', hchange, Option.some_inj, Except.ok.injEq,
        forall_eq', reduceCtorEq, false_implies, implies_true, and_true, true_and]
      refine ⟨?_, fun hle => absurd hlt (Nat.not_lt.2 hle)⟩
      exact ⟨cs, _, _, hsent, hlie.2, hfold, rfl, hshows.trans (Host.shows_put hlt rfl)⟩
  · rintro _ _ ⟨_, text', host, hsent, -, hfold, rfl, hshows⟩
    cases hsent
    refine (ensures_requestLint _ rfl false).imp ?_
    rintro _ _ ⟨timers, rfl⟩
    rw [List.foldl_nil] at hfold
    exact ⟨host, timers, rfl, hfold ▸ hshows⟩

/-- **A run of requests** gives the document the text that the editor has after all of them. -/
theorem ensures_didChangeAll {messages : List Params} {batches : List (List Change)}
    {text : List Char} {d : Document} (hcarry : List.Forall₂ (Carries uri) messages batches)
    (hlie : Change.LieIn batches.flatten text) (hn : s.spaceOf? uri = some n)
    (hd : s.host.documentAt n uri = some d) (hsource : d.source = .text (String.ofList text)) :
    Ensures (didChangeAll messages) s
      (fun _ s' => ∃ host timers, s' = { s with host, timers } ∧
        s.host.Shows host n uri (batches.flatten.foldl (fun t c => c.edit t) text))
      fun _ _ => False := by
  rw [didChangeAll, ensures_bind]
  refine (ensures_forIn (motive := fun rest t => ∃ bs text' host timers,
    List.Forall₂ (Carries uri) rest bs ∧ Change.LieIn bs.flatten text' ∧
    bs.flatten.foldl (fun t c => c.edit t) text' =
      batches.flatten.foldl (fun t c => c.edit t) text ∧
    t = { s with host, timers } ∧ s.host.Shows host n uri text') ?_
    ⟨batches, text, s.host, s.timers, hcarry, hlie, rfl, rfl, ⟨d, hd, hsource⟩,
      fun _ _ _ => rfl⟩).imp ?_
  · rintro ps rest _ ⟨_, text', host, timers, hcarry, hlie, hfold, rfl, hshows⟩
    cases hcarry with
    | @cons _ changes _ bs hps hcarry =>
      obtain ⟨d', hd', hsource'⟩ := hshows.text
      rw [List.flatten_cons, Change.lieIn_append] at hlie
      rw [List.flatten_cons, List.foldl_append] at hfold
      rw [ensures_bind]
      refine (ensures_didChange_of_carries (s := { s with host, timers }) hps hlie.1 hn hd'
        hsource').imp ?_
      rintro _ _ ⟨host', timers', rfl, hshows'⟩
      exact ⟨rfl, bs, _, host', timers', hcarry, hlie.2, hfold, rfl, hshows.trans hshows'⟩
  · rintro _ _ ⟨_, text', host, timers, hcarry, -, hfold, rfl, hshows⟩
    cases hcarry
    rw [List.flatten_nil, List.foldl_nil] at hfold
    exact ⟨host, timers, rfl, hfold ▸ hshows⟩

/-- **Synchronisation refines plain editing.** A document is opened with a text, and then its
changes are told, each of which lies in the text that the ones before it leave. All requests
succeed, and the document then has the text with all changes made by offsets, which are the offsets
that documents count. Every other document is as it was before. -/
theorem didChangeAll_eq_foldl_edit {s s₁ : Session} {opening : Params} {answer : Value}
    {uri text : String} {messages : List Params} {batches : List (List Change)}
    (hopen : didOpen opening s = .ok answer s₁) (huri : documentUri? opening = some uri)
    (htext : (arg opening "textDocument").item "text" = .ok (.str text))
    (hcarry : List.Forall₂ (Carries uri) messages batches)
    (hlie : Change.LieIn batches.flatten text.toList) :
    ∃ s₂ n d, didChangeAll messages s₁ = .ok () s₂ ∧
      (∀ v, s₂.spaceOf? v = s.spaceOf? v) ∧ s.spaceOf? uri = some n ∧
      s₂.host.documentAt n uri = some d ∧
      d.source = .text (String.ofList (batches.flatten.foldl (fun t c => c.edit t) text.toList)) ∧
      (∀ m v, ¬ (m = n ∧ v = uri) → s₂.host.documentAt m v = s.host.documentAt m v) ∧
      ∀ (fs : Files) (e : Document) (t : String) (p : Position), e.read fs = .ok t →
        e.offsetAt fs (.position p.line (.int p.character)) =
          .ok (offset (Text.lines t.toList) p.line p.character) := by
  obtain ⟨v, n, w, text', version, d, timers, hv, hn, hw, htext', hd, rfl⟩ :=
    (ensures_didOpen s opening).ok hopen
  rw [huri, Option.some_inj] at hv
  subst hv
  rw [htext, Except.ok.injEq] at htext'
  subst htext'
  obtain ⟨hlt, -⟩ := List.getElem?_eq_some_iff.1 hw
  have hsource : d.source = .text (String.ofList text.toList) := by
    rw [String.ofList_toList]
    exact (Workspace.of_newDocument hd).1
  have hopened : s.host.Shows (s.host.put n uri d) n uri text.toList := Host.shows_put hlt hsource
  have hput : (s.host.put n uri d).documentAt n uri = some d := by
    rw [Host.documentAt_put hlt, if_pos ⟨rfl, rfl⟩]
  obtain ⟨_, _, hrun, host, timers', rfl, hshows⟩ := (ensures_didChangeAll
    (s := { s with host := s.host.put n uri d, timers }) hcarry hlie hn hput hsource).exists_ok
  obtain ⟨d', hd', hsource'⟩ := hshows.text
  exact ⟨_, n, d', hrun, fun _ => rfl, hn, hd', hsource', (hopened.trans hshows).others,
    fun _ _ _ p hread => Document.offsetAt_position hread p⟩

/-- A line feed is appended right after a carriage return, and the two become one line end. The
next request replaces a range over two lines, then the whole text, and then adds to a text without a
line end, by a range up to a line past the last one. -/
theorem didChangeAll_joins_lineEnds :
    let s : Session := {
      host := { spaces := [{ rootUri := "file:///w", scheme := "file", rootPath := "/w" }] }
      config := some 0
      root := some 0 }
    let uri := "file:///w/a.py"
    let batches : List (List Change) := [
      [⟨some ⟨⟨2, 0⟩, ⟨2, 0⟩⟩, "\nz".toList⟩],
      [⟨some ⟨⟨0, 0⟩, ⟨1, 1⟩⟩, "a".toList⟩, ⟨none, "b".toList⟩,
        ⟨some ⟨⟨0, 1⟩, ⟨7, 0⟩⟩, "c".toList⟩]]
    ∃ s₁ s₂ d, didOpen (opening uri "x\ny\r") s = .ok .null s₁ ∧
      didChangeAll (batches.map (changing uri)) s₁ = .ok () s₂ ∧
      s₂.host.documentAt 0 uri = some d ∧ d.source = .text "bc" := by
  intro s uri batches
  have hopen : Ensures (didOpen (opening uri "x\ny\r")) s (fun answer _ => answer = .null)
      fun _ _ => False := by decide +kernel
  obtain ⟨_, s₁, hopen, rfl⟩ := hopen.exists_ok
  have hcarry : List.Forall₂ (Carries uri) (batches.map (changing uri)) batches := by
    rw [List.forall₂_map_left_iff, List.forall₂_same]
    exact fun changes _ => carries_changing uri changes
  have hlie : Change.LieIn batches.flatten "x\ny\r".toList := by decide +kernel
  obtain ⟨s₂, n, d, hrun, -, hn, hd, hsource, -⟩ :=
    didChangeAll_eq_foldl_edit hopen rfl rfl hcarry hlie
  have hn' : s.spaceOf? uri = some 0 := by decide +kernel
  have htext : String.ofList (batches.flatten.foldl (fun t c => c.edit t) "x\ny\r".toList) =
      "bc" := by decide +kernel
  rw [hn', Option.some_inj] at hn
  exact ⟨s₁, s₂, d, hopen, hrun, hn ▸ hd, htext ▸ hsource⟩

end Session
end LangServer
