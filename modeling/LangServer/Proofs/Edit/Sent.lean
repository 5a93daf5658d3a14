import LangServer.Diagnostic.Basic
import LangServer.Document.Basic
import LangServer.Proofs.Edit.Places

/-!
# Changes as they are sent

A change reaches a document as a value without a fixed shape. `Change.SentAs` says which change a
value stands for, whatever else the value holds, and `change_of_sentAs` that the document then
does what the change says to its text, and to nothing else of it.
-/

namespace LangServer.Document

namespace Change

/-- The value holds the change: its text, and either its range or nothing where a range would be. -/
def SentAs (c : Change) (v : Value) : Prop :=
  v.item "text" = .ok (.str (String.ofList c.text)) ∧
    ∃ w, v.get "range" = .ok w ∧
      match c.range with
      | none => w.truthy = false
      | some r => w.truthy = true ∧ sentRange w = .ok (.ofRange r)

/-- A change as an editor sends it. -/
def toValue (c : Change) : Value :=
  .object (match c.range with
    | none => [("text", .str (String.ofList c.text))]
    | some r => [("range", .range (.position r.start.line (.int r.start.character))
          (.position r.stop.line (.int r.stop.character))),
        ("text", .str (String.ofList c.text))])

theorem sentAs_toValue (c : Change) : c.SentAs c.toValue := by
  obtain ⟨range, text⟩ := c
  cases range with
  | none => exact ⟨rfl, .null, rfl, rfl⟩
  | some r => exact ⟨rfl, _, rfl, rfl, rfl⟩

end Change

theorem change_of_sentAs {fs : Files} {d : Document} {s : String} {c : Change} {v : Value}
    (hread : d.read fs = .ok s) (hv : c.SentAs v) :
    d.change fs v = .ok { d with source := .text (String.ofList (c.apply s.toList)) } := by
  obtain ⟨htext, w, hrange, hc⟩ := hv
  rw [change, Change.apply]
  simp only [htext, hrange, bind, Except.bind, pure, Except.pure]
  cases hr : c.range with
  | none =>
    rw [hr] at hc
    simp [hc, Content.ofValue]
  | some r =>
    rw [hr] at hc
    obtain ⟨htruthy, hsent⟩ := hc
    simp [htruthy, hsent, hread, SentRange.splice_ofRange]

theorem forall_change_eq_iff {fs : Files} {d : Document} {s : String} (hread : d.read fs = .ok s)
    (c : Change) (t : List Char) :
    (∀ v, c.SentAs v → d.change fs v = .ok { d with source := .text (String.ofList t) }) ↔
      c.apply s.toList = t := by
  constructor
  · intro h
    have hchange := h _ (Change.sentAs_toValue c)
    rw [change_of_sentAs hread (Change.sentAs_toValue c)] at hchange
    simpa [String.ofList_inj] using hchange
  · rintro rfl v hv
    exact change_of_sentAs hread hv

end LangServer.Document
