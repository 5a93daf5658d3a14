import LangServer.Proofs.Session.Arrivals

/-!
# The root of a session

A session names its root in three places: by a URI, as a workspace, and as the workspace whose
configuration is in force. The three agree in every run from a start on, also after a change of
folders that fails half-way (`Session.Agrees`), since the new root is looked up among the folders
only when all of them are there.

That the root is also one of the folders needs more: a folder that comes again gets a new workspace,
even if it is the root, and where no folder is left the old root stays. In runs without either, the
root is always a folder (`Session.Listed`), and it changes only when it goes: to the folder that
comes first in the same event, or else to the least folder by name (`Session.Inherits`).
-/

namespace LangServer

open Relation

namespace Session

/-! ## What is said about roots -/

/-- The root, the configuration in force and the URI of the root are those of one workspace. -/
def Agrees (s : Session) : Prop :=
  ∃ r w, s.root = some r ∧ s.config = some r ∧ s.host.spaces[r]? = some w ∧
    w.config.isSome = true ∧ s.rootUri = .str w.rootUri

/-- The root is the workspace of the folder that is named as the root. -/
def Listed (s : Session) : Prop :=
  ∃ uri r, s.rootUri = .str uri ∧ s.root = some r ∧ Value.lookup uri s.folders = some r

/-- A change of folders succeeds, leaves a folder, and adds none that the session has once others
are taken out. -/
def Orderly (s : Session) : Happening → Prop
  | .message .didChangeWorkspaceFolders ps =>
    Ensures (handle ps .didChangeWorkspaceFolders) s (fun _ t => t.folders ≠ [])
        (fun _ _ => False) ∧
      ∀ uri ∈ arriving ps, Value.lookup uri (without (departing ps) s.folders) = none
  | _ => True

/-- The root is among the folders that go. -/
def LosesRoot (s : Session) : Happening → Prop
  | .message .didChangeWorkspaceFolders ps => ∃ uri ∈ departing ps, s.rootUri = .str uri
  | _ => False

/-- The folder is the one that comes first, if that carries a URI, and else the least of all. -/
def Heir (ps : Params) (folders : List (String × Nat)) (name : String) : Prop :=
  firstArriving? ps = some name ∨ firstArriving? ps = none ∧ name ∈ folders.map (·.1) ∧
    ∀ other ∈ folders.map (·.1), ¬ other < name

/-- The root changes only when it goes, and then to its heir. -/
def Inherits (s : Session) (e : Happening) : Prop :=
  (¬ s.LosesRoot e → (Happening.after s e).rootUri = s.rootUri ∧
    (Happening.after s e).root = s.root) ∧
  ∀ ps, e = .message .didChangeWorkspaceFolders ps → s.LosesRoot e →
    ∃ name, (Happening.after s e).rootUri = .str name ∧ Heir ps (Happening.after s e).folders name

instance (s : Session) : (e : Happening) → Decidable (s.Orderly e)
  | .message method ps =>
    if h : method = .didChangeWorkspaceFolders then
      decidable_of_iff (Ensures (handle ps .didChangeWorkspaceFolders) s (fun _ t => t.folders ≠ [])
        (fun _ _ => False) ∧
          ∀ uri ∈ arriving ps, Value.lookup uri (without (departing ps) s.folders) = none)
        (by rw [h]; exact Iff.rfl)
    else .isTrue (by rcases method <;> trivial)
  | .fire _ | .world _ _ _ => .isTrue trivial

variable {s t : Session}

theorem Rooted.agrees (hs : s.Rooted) : s.Agrees := by
  obtain ⟨r, uri, hr, hconfig, huri, hsite⟩ := hs.root
  obtain ⟨w, hw, hsite⟩ := Option.bind_eq_some_iff.1 hsite
  obtain ⟨c, hc, rfl⟩ := Option.map_eq_some_iff.1 hsite
  exact ⟨r, w, hr, hconfig, hw, by rw [hc]; rfl, huri⟩

/-! ## A change of folders -/

theorem departing_of_isNull {ps : Params} (h : (arg ps "event").isNull = true) :
    departing ps = [] := by
  rcases hevent : arg ps "event" with _ | _ | _ | _ | _ | _ | _
  case null => simp [departing, entries, hevent, Value.getD, Value.get?, bind, Except.bind]
  all_goals
    rw [hevent] at h
    cases h

/-- **A change of folders keeps the root in place**, whether it succeeds or fails. -/
theorem Rooted.after_change (hs : s.Rooted) (ps : Params) :
    (Happening.after s (.message .didChangeWorkspaceFolders ps)).Rooted := by
  refine Happening.after_of_ensures (Happening.ensures_message.2 ?_)
  rcases hevent : (arg ps "event").isNull with _ | _
  · refine (ensures_didChangeWorkspaceFolders_reorganised hs hevent).mono
      (fun _ _ h => hs.reorganised h) ?_
    rintro _ _ ⟨taken, hpartly⟩
    exact (hs.gains (.refl _) fun _ hf => (mem_of_mem_without hf).1).joinsPartly hpartly
  · rw [Ensures, handle_of_isNull hevent]
    exact hs

theorem Listed.reorganised (hl : s.Listed) {ps : Params} (h : s.Reorganised ps t)
    (hfolders : t.folders ≠ [])
    (hnew : ∀ uri ∈ arriving ps, Value.lookup uri (without (departing ps) s.folders) = none) :
    t.Listed ∧
      ((¬ ∃ uri ∈ departing ps, s.rootUri = .str uri) → t.rootUri = s.rootUri ∧ t.root = s.root) ∧
      ((∃ uri ∈ departing ps, s.rootUri = .str uri) →
        ∃ name, t.rootUri = .str name ∧ Heir ps t.folders name) := by
  obtain ⟨uri, r, huri, hr, hlookup⟩ := hl
  obtain ⟨s₁, s₂, _, host, hjoins, hgone, hstays, -, -, -, -, rfl⟩ := h
  by_cases hloses : ∃ uri ∈ departing ps, s.rootUri = .str uri
  · -- another folder has become the root, since there is one
    rcases hgone hloses with ⟨hnil, rfl⟩ | ⟨name, n, hn, hheir, rfl⟩
    · exact absurd hnil hfolders
    refine ⟨⟨name, n, rfl, rfl, hn⟩, fun hnot => absurd hloses hnot, fun _ => ⟨name, rfl, ?_⟩⟩
    refine hheir.imp_right fun hleast => ⟨hleast.1, mem_of_least? hleast.2, fun other hother => ?_⟩
    exact not_lt_of_least? hleast.2 hother
  · -- the root stays, and no folder that comes takes its place
    obtain rfl := hstays hloses
    have heq := hjoins.eq
    have hstill : Value.lookup uri (without (departing ps) s.folders) = some r := by
      rw [lookup_without, if_neg fun hmem => hloses ⟨uri, hmem, huri⟩, hlookup]
    have hnot : uri ∉ arriving ps := by
      intro hmem
      cases (hnew uri hmem).symm.trans hstill
    have hroot : s₂.rootUri = s.rootUri ∧ s₂.root = s.root := by
      rw [heq]
      exact ⟨rfl, rfl⟩
    refine ⟨⟨uri, r, hroot.1.trans huri, hroot.2.trans hr, ?_⟩, fun _ => hroot,
      fun h => absurd h hloses⟩
    exact (hjoins.lookup_of_not_mem hnot).trans hstill

/-! ## Whatever happens -/

/-- The invariant of every run. -/
theorem Rooted.after (hs : s.Rooted) (hp : s.host.Primed) {e : Happening}
    (he : ∀ ps, e ≠ .message .start ps) : (Happening.after s e).Rooted := by
  rcases h : e.regroups with _ | _
  · exact hs.of_stays (stays_of_deeds (Happening.deeds_after hp h))
  · rcases e with ⟨method, ps⟩ | _ | _
    case message =>
      rcases method
      case start => exact absurd rfl (he ps)
      case didChangeWorkspaceFolders => exact hs.after_change ps
      all_goals cases h
    all_goals cases h

theorem Listed.after (hl : s.Listed) (hs : s.Rooted) (hp : s.host.Primed) {e : Happening}
    (he : ∀ ps, e ≠ .message .start ps) (ho : s.Orderly e) :
    (Happening.after s e).Listed ∧ s.Inherits e := by
  rcases h : e.regroups with _ | _
  · have hstays := stays_of_deeds (Happening.deeds_after hp h)
    obtain ⟨uri, r, huri, hr, hlookup⟩ := hl
    refine ⟨⟨uri, r, hstays.rootUri.trans huri, hstays.root.trans hr, ?_⟩,
      fun _ => ⟨hstays.rootUri, hstays.root⟩, ?_⟩
    · rw [hstays.folders, hlookup]
    · rintro ps rfl
      cases h
  · rcases e with ⟨method, ps⟩ | _ | _
    case message =>
      rcases method
      case start => exact absurd rfl (he ps)
      case didChangeWorkspaceFolders =>
        obtain ⟨hruns, hnew⟩ := ho
        obtain ⟨v, t, hrun, hfolders⟩ := hruns.exists_ok
        rw [Inherits, Happening.after_of_ok hrun]
        rcases hevent : (arg ps "event").isNull with _ | _
        · have hreorganised :=
            (ensures_didChangeWorkspaceFolders_reorganised hs hevent).ok hrun
          obtain ⟨hlisted, hstays, hgone⟩ := hl.reorganised hreorganised hfolders hnew
          refine ⟨hlisted, hstays, ?_⟩
          rintro _ heq hloses
          cases heq
          exact hgone hloses
        · obtain rfl : t = s := by
            cases hrun.symm.trans (handle_of_isNull hevent s)
            rfl
          refine ⟨hl, fun _ => ⟨rfl, rfl⟩, ?_⟩
          rintro _ _ ⟨uri, huri, -⟩
          rw [departing_of_isNull hevent] at huri
          cases huri
      all_goals cases h
    all_goals cases h

/-- **The root is one workspace in every run.** From a start on, whatever happens but another
start, and whether or not the server succeeds, the root, the configuration in force and the URI of
the root agree. If moreover every change of folders succeeds, leaves a folder and adds only new
ones, then the root is always the workspace of the folder with its URI, and it changes only when
that folder goes: to the first folder that comes, if it carries a URI, and else to the least of
those that there are. -/
theorem root_agrees_and_is_inherited {machine : Machine} {engines : Engines} {checksParent : Bool}
    {ps : Params} {answer : Value} {s : Session}
    (hstart : handle ps .start (fresh machine engines checksParent) = .ok answer s)
    {es : List Happening} (hes : ∀ e ∈ es, ∀ ps, e ≠ .message .start ps) :
    (es.foldl Happening.after s).Agrees ∧
      (Always Happening.after Orderly s es →
        (es.foldl Happening.after s).Listed ∧ Always Happening.after Inherits s es) := by
  have hprimed : s.host.Primed :=
    Happening.after_of_ok hstart ▸ Happening.primed_after (primed_fresh _ _ _) _
  have hrooted := rooted_of_start hstart
  have hlisted : s.Listed := listed_of_start hstart
  have hmoving : Always Happening.after (fun _ e => ∀ ps, e ≠ .message .start ps) s es :=
    Always.of_mem fun e he _ => hes e he
  have hstep : ∀ (s : Session) (e : Happening), s.Rooted ∧ s.host.Primed →
      (∀ ps, e ≠ .message .start ps) →
      (Happening.after s e).Rooted ∧ (Happening.after s e).host.Primed := fun s e hs he =>
    ⟨hs.1.after hs.2 he, Happening.primed_after hs.2 e⟩
  refine ⟨(Always.inv hstep ⟨hrooted, hprimed⟩ hmoving).1.agrees, fun horderly => ?_⟩
  have hlisting : ∀ (s : Session) (e : Happening), (s.Rooted ∧ s.host.Primed) ∧ s.Listed →
      (∀ ps, e ≠ .message .start ps) ∧ s.Orderly e →
      ((Happening.after s e).Rooted ∧ (Happening.after s e).host.Primed) ∧
        (Happening.after s e).Listed := fun s e hs he =>
    ⟨hstep s e hs.1 he.1, (hs.2.after hs.1.1 hs.1.2 he.1 he.2).1⟩
  have hall := hmoving.and horderly
  refine ⟨(Always.inv hlisting ⟨⟨hrooted, hprimed⟩, hlisted⟩ hall).2, ?_⟩
  exact Always.of_inv (fun s e hs he _ => hlisting s e hs he)
    (fun s e hs he => (hs.2.after hs.1.1 hs.1.2 he.1 he.2).2) ⟨⟨hrooted, hprimed⟩, hlisted⟩ hall
    hall

/-- Folders come and go: the root goes and another folder comes first, then that goes again and
leaves two others, of which the lesser by name is the last to have come. -/
def comings : List Happening := [
  .message .didChangeWorkspaceFolders (regrouping ["file:///v"] ["file:///u"]),
  .message .didOpen (opening "file:///w/a.py" "x\n"),
  .message .didChangeWorkspaceFolders (regrouping ["file:///t", "file:///s"] ["file:///w"]),
  .fire 0,
  .message .didChangeWorkspaceFolders (regrouping [] ["file:///t"])]

theorem ensures_comings :
    Ensures (handle (starting "file:///w" ["file:///u"]) .start) (fresh {} {} false)
      (fun _ s => Always Happening.after Orderly s comings ∧
        (comings.foldl Happening.after s).rootUri = .str "file:///s")
      fun _ _ => False := by
  decide +kernel

/-- The root is inherited twice. -/
theorem root_inherited_twice : ∃ answer s,
    handle (starting "file:///w" ["file:///u"]) .start (fresh {} {} false) = .ok answer s ∧
    (∀ e ∈ comings, ∀ ps, e ≠ .message .start ps) ∧ Always Happening.after Orderly s comings ∧
    (comings.foldl Happening.after s).rootUri = .str "file:///s" ∧
    (comings.foldl Happening.after s).Agrees ∧ (comings.foldl Happening.after s).Listed ∧
    Always Happening.after Inherits s comings := by
  obtain ⟨answer, s, hstart, horderly, huri⟩ := ensures_comings.exists_ok
  have hes : ∀ e ∈ comings, ∀ ps, e ≠ .message .start ps := by simp [comings]
  obtain ⟨hagrees, hrest⟩ := root_agrees_and_is_inherited hstart hes
  exact ⟨answer, s, hstart, hes, horderly, huri, hagrees, hrest horderly⟩

end Session
end LangServer
