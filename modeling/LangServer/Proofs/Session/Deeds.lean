import LangServer.Proofs.Completion.Offers
import LangServer.Proofs.Linting.Publishing
import LangServer.Proofs.Settings.Keeping

/-!
# What messages leave alone

Apart from a start and a change of folders, no message changes which workspaces a session has, which
of them is the root, or for which folders they are. Every such message works in small steps
(`Session.Deed`), whether it succeeds or fails: it works on the host without touching a document or
a workspace's folder, it writes on an open document, it opens or closes one, or it sets something
beside the host.

What plugins have offered for a document is lost only in a step for the URI that the message is
about (`busy`): when completions are asked for, or when the document is opened or closed. In all
other steps both plugins keep finding under every label what they found before (`Document.Keeps`).

The steps are known for hosts whose resolvers have only been used (`Host.Primed`), as they are
in every run.
-/

namespace LangServer

open Relation Completion

variable {r : Session → Session → Prop}

/-! ## What is written on documents -/

/-- The document is the same one, and under every label both plugins find what they found before. -/
structure Document.Keeps (d d' : Document) : Prop where
  origin : d'.origin = d.origin
  offers : outcome resolveItem d'.offers = outcome resolveItem d.offers
  proposals : outcome completeProposal d'.proposals = outcome completeProposal d.proposals

theorem Document.Keeps.refl (d : Document) : d.Keeps d := ⟨rfl, rfl, rfl⟩

theorem Document.Keeps.trans {d d' d'' : Document} (h1 : d.Keeps d') (h2 : d'.Keeps d'') :
    d.Keeps d'' :=
  ⟨h2.origin.trans h1.origin, h2.offers.trans h1.offers, h2.proposals.trans h1.proposals⟩

theorem Document.Keeps.rel_refl (d? : Option Document) : Option.Rel Document.Keeps d? d? := by
  rcases d? with _ | d
  · exact .none
  · exact .some (.refl d)

theorem Document.Keeps.rel_trans {d? d'? d''? : Option Document}
    (h1 : Option.Rel Document.Keeps d? d'?) (h2 : Option.Rel Document.Keeps d'? d''?) :
    Option.Rel Document.Keeps d? d''? := by
  rcases h1 with h1 | _
  · rcases h2 with h2 | _
    exact .some (h1.trans h2)
  · exact h2

theorem Document.keeps_of_change {fs : Files} {d d' : Document} {v : Value}
    (h : d.change fs v = .ok d') : d.Keeps d' := by
  have horigin := origin_of_change h
  rw [Document.change] at h
  obtain ⟨text, -, h⟩ := exists_of_bind_eq_ok h
  obtain ⟨range, -, h⟩ := exists_of_bind_eq_ok h
  split at h
  · obtain rfl := Except.ok.inj h
    exact ⟨horigin, rfl, rfl⟩
  · obtain ⟨start, -, h⟩ := exists_of_bind_eq_ok h
    obtain ⟨stop, -, h⟩ := exists_of_bind_eq_ok h
    obtain ⟨text, -, h⟩ := exists_of_bind_eq_ok h
    obtain rfl := Except.ok.inj h
    exact ⟨horigin, rfl, rfl⟩

theorem Workspace.blank_of_newDocument {m : Machine} {w : Workspace} {n : Nat} {uri : String}
    {source : Content} {version : Value} {d : Document}
    (h : w.newDocument m n uri source version = .ok d) :
    d.uri = uri ∧ d.offers = none ∧ d.proposals = none := by
  rw [newDocument] at h
  obtain ⟨path, -, h⟩ := exists_of_bind_eq_ok h
  obtain ⟨roots, -, h⟩ := exists_of_bind_eq_ok h
  rw [document] at h
  obtain ⟨path, -, h⟩ := exists_of_bind_eq_ok h
  split at h
  · cases h
  · rw [← Except.ok.inj h]
    exact ⟨rfl, rfl, rfl⟩

/-! ## What hooks do -/

/-- What the plugins that are called may write on a document. -/
def Hook.Writes : Hook → Document → Document → Prop
  | completions _ => fun d d' => d'.origin = d.origin
  | _ => Document.Keeps

theorem Hook.Writes.of_keeps {hook : Hook} {d d' : Document} (h : d.Keeps d') :
    hook.Writes d d' := by
  cases hook with
  | completions => exact h.origin
  | _ => exact h

theorem Hook.Writes.trans {hook : Hook} {d d' d'' : Document} (h1 : hook.Writes d d')
    (h2 : hook.Writes d' d'') : hook.Writes d d'' := by
  cases hook with
  | completions => exact Eq.trans h2 h1
  | _ => exact Document.Keeps.trans h1 h2

/-- The plugins work on the host, and write on the document what the hook allows. -/
structure Desk.Written (hook : Hook) (desk desk' : Desk) : Prop where
  host : ReflTransGen Host.Work desk.host desk'.host
  document : ∀ d', desk'.document = some d' → ∃ d, desk.document = some d ∧ hook.Writes d d'

namespace Desk.Written

variable {hook : Hook} {desk desk' desk'' : Desk}

theorem of_along (h : ReflTransGen (Desk.Along Host.Work) desk desk') :
    Desk.Written hook desk desk' := by
  refine ⟨Desk.host_of_along h, fun d' hd' => ⟨d', ?_, .of_keeps (.refl d')⟩⟩
  rw [← Desk.document_of_along h, hd']

theorem trans (h1 : Desk.Written hook desk desk') (h2 : Desk.Written hook desk' desk'') :
    Desk.Written hook desk desk'' := by
  refine ⟨h1.host.trans h2.host, fun d'' hd'' => ?_⟩
  obtain ⟨d', hd', hwrites'⟩ := h2.document d'' hd''
  obtain ⟨d, hd, hwrites⟩ := h1.document d' hd'
  exact ⟨d, hd, hwrites.trans hwrites'⟩

theorem of_document {d d' : Document} (hhost : ReflTransGen Host.Work desk.host desk'.host)
    (hd : desk.document = some d) (hd' : desk'.document = some d') (hwrites : hook.Writes d d') :
    Desk.Written hook desk desk' := by
  refine ⟨hhost, fun d'' hd'' => ⟨d, hd, ?_⟩⟩
  obtain rfl := Option.some_inj.1 (hd'.symm.trans hd'')
  exact hwrites

end Desk.Written

theorem Job.ensures_document_of_none {desk : Desk} (hnone : desk.document = none) :
    Ensures Job.document desk (fun _ _ => False) fun _ t => t = desk := by
  simp only [Job.document, ensures_bind, ensures_get, hnone]
  rfl

namespace Hook

/-- **What one plugin does** when it is called. -/
theorem written_implementation? {c : Caller} {p : Plugin} {hook : Hook} {job : Job Value}
    (hjob : implementation? c p hook = some job) {desk : Desk} (hp : desk.host.Primed) :
    Ensures job desk (fun _ t => desk.Written hook t) fun _ t => desk.Written hook t := by
  have hnone : ∀ f : Document → Job Value, desk.document = none → Ensures (Job.document >>= f) desk
      (fun _ t => desk.Written hook t) fun _ t => desk.Written hook t := by
    intro f hd
    exact (Job.ensures_document_of_none hd).bind (fun _ _ h => h.elim)
      fun _ _ h => h ▸ .of_along .refl
  cases hcompletion : hook.isCompletion with
  | false =>
    exact (moves_implementation? hjob hcompletion desk).mono (fun _ _ h => .of_along h)
      fun _ _ h => .of_along h
  | true =>
    cases hook with
    | completions position =>
      rcases hd : desk.document with _ | d
      · cases p <;> cases hjob
        · rw [Completion.completions, Job.pathValue, bind_assoc]
          exact hnone _ hd
        · exact hnone _ hd
      · cases p <;> cases hjob
        · refine (ensures_completions c position hd hp).mono ?_ fun _ _ h => .of_along h
          rintro v t ⟨hhost, names, -, ⟨-, -, hd'⟩ | ⟨items, extra, -, -, -, hd'⟩⟩
          · exact .of_document hhost hd hd' rfl
          · exact .of_document hhost hd hd' rfl
        · refine (ensures_proposals c position hd).mono ?_ fun _ _ h => .of_along h
          rintro v t ⟨hhost, ⟨-, hd'⟩ | ⟨found, eager, -, -, hd'⟩⟩
          · exact .of_document hhost hd hd' rfl
          · exact .of_document hhost hd hd' rfl
    | resolveCompletion item =>
      rcases hd : desk.document with _ | d
      · cases p <;> cases hjob
        · exact hnone _ hd
        · exact hnone _ hd
      · cases p <;> cases hjob
        · refine (ensures_resolveCompletion item hd).mono ?_ fun _ _ h => h.1 ▸ .of_along .refl
          rintro v t ⟨offers, hresolve, rfl⟩
          have hsame := outcome_resolveOffer resolveItem_resolveItem hresolve
          exact .of_document .refl hd rfl ⟨rfl, hsame, rfl⟩
        · refine (ensures_resolveProposal item hd).mono ?_ fun _ _ h => h.1 ▸ .of_along .refl
          rintro v t ⟨proposals, hresolve, rfl⟩
          have hsame := outcome_resolveOffer completeProposal_completeProposal hresolve
          exact .of_document .refl hd rfl ⟨rfl, rfl, hsame⟩
    | _ => cases hcompletion

/-- **What a hook does**, whichever plugins are called. -/
theorem written_call (hook : Hook) (c : Caller) (plugins : List Plugin) (desk : Desk)
    (hp : desk.host.Primed) : desk.Written hook (hook.call c plugins desk).2 := by
  have hmoves : Moves (fun desk desk' : Desk => desk.host.Primed → desk.Written hook desk')
      (hook.perform c plugins) := by
    refine moves_perform fun p _ job hjob desk => ?_
    by_cases hp : desk.host.Primed
    · exact (written_implementation? hjob hp).mono (fun _ _ h => .single fun _ => h)
        fun _ _ h => .single fun _ => h
    · exact Ensures.of_forall (fun _ _ => .single fun h => absurd h hp)
        fun _ _ => .single fun h => absurd h hp
  have hsteps := reflTransGen_call hmoves desk
  generalize (hook.call c plugins desk).2 = desk' at hsteps ⊢
  induction hsteps with
  | refl => exact .of_along .refl
  | tail _ hstep ih => exact ih.trans (hstep (hp.steps ih.host))

end Hook

/-! ## Hosts whose documents and folders stay -/

namespace Host

/-- Every document is as it was, and every workspace is for the folder that it was for. -/
structure Spares (h h' : Host) : Prop where
  length_le : h.spaces.length ≤ h'.spaces.length
  documentAt : ∀ n uri, h'.documentAt n uri = h.documentAt n uri
  siteAt : ∀ n, h'.siteAt n = h.siteAt n
  primed : h.Primed → h'.Primed

variable {h h' h'' : Host}

theorem Spares.refl (h : Host) : h.Spares h := ⟨Nat.le_refl _, fun _ _ => rfl, fun _ => rfl, id⟩

theorem Spares.trans (h1 : h.Spares h') (h2 : h'.Spares h'') : h.Spares h'' :=
  ⟨Nat.le_trans h1.length_le h2.length_le,
    fun n uri => (h2.documentAt n uri).trans (h1.documentAt n uri),
    fun n => (h2.siteAt n).trans (h1.siteAt n), fun hp => h2.primed (h1.primed hp)⟩

theorem spares_of_steps (hsteps : ReflTransGen Spares h h') : h.Spares h' := by
  induction hsteps with
  | refl => exact .refl h
  | tail _ hstep ih => exact ih.trans hstep

theorem spares_of_work (hsteps : ReflTransGen Work h h') : h.Spares h' := by
  have hintact := intact_of_steps hsteps
  exact ⟨hintact.length_le, hintact.documentAt, hintact.siteAt, fun hp => hp.steps hsteps⟩

theorem Spares.of_spaces (hspaces : h'.spaces = h.spaces) (hsame : h.SameResolvers h') :
    h.Spares h' := by
  refine ⟨Nat.le_of_eq (by rw [hspaces]), fun n uri => ?_, fun n => ?_, fun hp => ?_⟩
  · rw [Host.documentAt, Host.documentAt, hspaces]
  · rw [Host.siteAt, Host.siteAt, hspaces]
  · exact hp.of_eq hsame.labels hsame.snippets

theorem siteAt_withDocuments (h : Host) (n : Nat)
    (f : List (String × Document) → List (String × Document)) (m : Nat) :
    (h.withDocuments n f).siteAt m = h.siteAt m := by
  rw [Host.siteAt, Host.siteAt, withDocuments, List.getElem?_modify]
  rcases h.spaces[m]? with _ | w
  · rfl
  · simp only [Option.map_eq_map, Option.map_some, Option.bind_some]
    split <;> rfl

/-- Every document is open under its own URI. -/
def Named (h : Host) : Prop := ∀ n uri d, h.documentAt n uri = some d → d.uri = uri

theorem Named.put (hh : h.Named) {n : Nat} (hn : n < h.spaces.length) {uri : String} {d : Document}
    (hd : d.uri = uri) : (h.put n uri d).Named := by
  intro m v e he
  rw [documentAt_put hn] at he
  split at he
  · rename_i hmv
    rw [← Option.some_inj.1 he, hd, hmv.2]
  · exact hh m v e he

theorem Named.remove (hh : h.Named) (n : Nat) (uri : String) : (h.remove n uri).Named := by
  intro m v e he
  rw [documentAt_remove] at he
  split at he
  · cases he
  · exact hh m v e he

theorem Updated.spares {n : Nat} {client : Value} {revision : Nat} {fault? : Option Fault}
    (hupdated : h.Updated n client revision fault? h') : h.Spares h' := by
  have hext := hupdated.extends
  obtain ⟨hw, hc⟩ := hupdated
  exact ⟨hext.length_le, hext.documentAt, siteAt_set hw rfl rfl (by rw [hc]; rfl),
    fun hp => hp.of_eq rfl rfl⟩

end Host

/-! ## Steps of a session -/

namespace Session

/-- What the server does in one step of a message, other than to its folders. -/
inductive Deed (busy : String → Prop) : Session → Session → Prop where
  | spared {s : Session} {h : Host} (hspares : s.host.Spares h) : Deed busy s { s with host := h }
  /-- A document is edited or written on. -/
  | kept {s : Session} {n : Nat} {uri : String} {d d' : Document}
      (hd : s.host.documentAt n uri = some d) (hkeeps : d.Keeps d') :
      Deed busy s { s with host := s.host.put n uri d' }
  /-- Completions are offered for a document. -/
  | offered {s : Session} {n : Nat} {uri : String} {d d' : Document} (hbusy : busy uri)
      (hd : s.host.documentAt n uri = some d) (horigin : d'.origin = d.origin) :
      Deed busy s { s with host := s.host.put n uri d' }
  | opened {s : Session} {n : Nat} {uri : String} {d : Document} (hbusy : busy uri)
      (hn : n < s.host.spaces.length) (huri : d.uri = uri) :
      Deed busy s { s with host := s.host.put n uri d }
  | closed {s : Session} {n : Nat} {uri : String} (hbusy : busy uri) :
      Deed busy s { s with host := s.host.remove n uri }
  /-- Something else than the host changes. -/
  | aside (s : Session) (timers : Timers Errand) (sent : List Value) (isShutDown isClosed : Bool) :
      Deed busy s { s with timers, sent, isShutDown, isClosed }

/-- What the server does from a host whose resolvers have only been used. -/
def Serves (busy : String → Prop) (s t : Session) : Prop :=
  s.host.Primed → ReflTransGen (Deed busy) s t

variable {busy : String → Prop} {s t u : Session} {α : Type}

theorem Deed.serves (h : Deed busy s t) : Serves busy s t := fun _ => .single h

theorem Deed.primed (h : Deed busy s t) (hp : s.host.Primed) : t.host.Primed := by
  rcases h with hspares | _ | _ | _ | _ | _
  · exact hspares.primed hp
  all_goals exact hp.of_eq rfl rfl

/-- The folders, the root and the configuration in force are the same, and every workspace is for
the folder that it was for. -/
structure Stays (s t : Session) : Prop where
  rootUri : t.rootUri = s.rootUri
  config : t.config = s.config
  root : t.root = s.root
  folders : t.folders = s.folders
  siteAt : ∀ n, t.host.siteAt n = s.host.siteAt n

theorem Deed.stays (h : Deed busy s t) : s.Stays t := by
  rcases h with hspares | _ | _ | _ | _ | _
  · exact ⟨rfl, rfl, rfl, rfl, hspares.siteAt⟩
  case aside => exact ⟨rfl, rfl, rfl, rfl, fun _ => rfl⟩
  all_goals exact ⟨rfl, rfl, rfl, rfl, Host.siteAt_withDocuments _ _ _⟩

theorem Deed.named (h : Deed busy s t) (hs : s.host.Named) : t.host.Named := by
  have hput : ∀ {n uri d d'}, s.host.documentAt n uri = some d → d'.origin = d.origin →
      (s.host.put n uri d').Named := by
    intro n uri d d' hd horigin
    refine hs.put (Host.lt_of_documentAt hd) ?_
    exact (congrArg Origin.uri horigin).trans (hs n uri d hd)
  rcases h with hspares | ⟨hd, hkeeps⟩ | ⟨-, hd, horigin⟩ | ⟨-, hn, huri⟩ | _ | _
  · intro n uri d hd
    rw [hspares.documentAt] at hd
    exact hs n uri d hd
  · exact hput hd hkeeps.origin
  · exact hput hd horigin
  · exact hs.put hn huri
  · exact hs.remove _ _
  · exact hs

/-- **What was offered for a document is kept**, unless the step is about its URI. -/
theorem Deed.rel_documentAt (h : Deed busy s t) {uri : String} (hbusy : ¬ busy uri) (n : Nat) :
    Option.Rel Document.Keeps (s.host.documentAt n uri) (t.host.documentAt n uri) := by
  have hother : ∀ {m v}, busy v → ¬ (n = m ∧ uri = v) := fun hb hnu => hbusy (hnu.2 ▸ hb)
  rcases h with hspares | ⟨he, hkeeps⟩ | ⟨hb, he, -⟩ | ⟨hb, hlt, -⟩ | hb | _
  · rw [hspares.documentAt]
    exact Document.Keeps.rel_refl _
  · rw [Host.documentAt_put (Host.lt_of_documentAt he)]
    split
    · rename_i hnu
      rw [hnu.1, hnu.2, he]
      exact .some hkeeps
    · exact Document.Keeps.rel_refl _
  · rw [Host.documentAt_put (Host.lt_of_documentAt he), if_neg (hother hb)]
    exact Document.Keeps.rel_refl _
  · rw [Host.documentAt_put hlt, if_neg (hother hb)]
    exact Document.Keeps.rel_refl _
  · rw [Host.documentAt_remove, if_neg (hother hb)]
    exact Document.Keeps.rel_refl _
  · exact Document.Keeps.rel_refl _

theorem Stays.trans (h1 : s.Stays t) (h2 : t.Stays u) : s.Stays u :=
  ⟨h2.rootUri.trans h1.rootUri, h2.config.trans h1.config, h2.root.trans h1.root,
    h2.folders.trans h1.folders, fun n => (h2.siteAt n).trans (h1.siteAt n)⟩

theorem stays_of_deeds (hsteps : ReflTransGen (Deed busy) s t) : s.Stays t := by
  induction hsteps with
  | refl => exact ⟨rfl, rfl, rfl, rfl, fun _ => rfl⟩
  | tail _ hdeed ih => exact ih.trans hdeed.stays

theorem primed_of_deeds (hsteps : ReflTransGen (Deed busy) s t) (hp : s.host.Primed) :
    t.host.Primed := by
  induction hsteps with
  | refl => exact hp
  | tail _ hdeed ih => exact hdeed.primed ih

theorem named_of_deeds (hsteps : ReflTransGen (Deed busy) s t) (hs : s.host.Named) :
    t.host.Named := by
  induction hsteps with
  | refl => exact hs
  | tail _ hdeed ih => exact hdeed.named ih

theorem rel_documentAt_of_deeds (hsteps : ReflTransGen (Deed busy) s t) {uri : String}
    (hbusy : ¬ busy uri) (n : Nat) :
    Option.Rel Document.Keeps (s.host.documentAt n uri) (t.host.documentAt n uri) := by
  induction hsteps with
  | refl => exact Document.Keeps.rel_refl _
  | tail _ hdeed ih => exact Document.Keeps.rel_trans ih (hdeed.rel_documentAt hbusy n)

theorem serves_of_steps (hsteps : ReflTransGen (Serves busy) s t) : Serves busy s t := by
  intro hp
  induction hsteps with
  | refl => exact .refl
  | tail _ hstep ih => exact ih.trans (hstep (primed_of_deeds ih hp))

theorem moves_liftAct_spares {x : Act α} (hx : Moves Host.Spares x) :
    Moves (Serves busy) (liftM x : Serve α) := by
  intro s
  rw [ensures_liftAct]
  exact (hx s.host).mono
    (fun _ _ h => .single (Deed.serves (.spared (Host.spares_of_steps h))))
    fun _ _ h => .single (Deed.serves (.spared (Host.spares_of_steps h)))

theorem moves_spaceFor (uri : Value) : Moves r (spaceFor uri) :=
  fun s => (ensures_spaceFor s uri).mono (fun _ _ h => h.1 ▸ .refl) fun _ _ h => h.1 ▸ .refl

/-- What hooks are called with is looked up, and a document that is to be kept is one that is open.
-/
theorem ensures_settingFor_read (s : Session) (uri : Value) : Ensures (settingFor uri) s
      (fun now t => t = s ∧ ∀ u, now.openAs = some u → uri = .str u ∧
        ∃ d, now.document = some d ∧ s.host.documentAt now.caller.space u = some d)
      fun _ t => t = s := by
  have hplain : ∀ (space : Option Nat), Ensures (do
      let config ← require (← get).config
      return { caller := ⟨config, ← require space⟩ } : Serve Setting) s
      (fun now t => t = s ∧ ∀ u, now.openAs = some u → uri = .str u ∧
        ∃ d, now.document = some d ∧ s.host.documentAt now.caller.space u = some d)
      fun _ t => t = s := by
    intro space
    simp only [ensures_bind, ensures_get, ensures_require, ensures_pure]
    exact ⟨fun _ _ => ⟨fun _ _ => ⟨trivial, fun _ h => by cases h⟩, fun _ => trivial⟩,
      fun _ => trivial⟩
  rw [settingFor]
  refine (ensures_spaceFor s uri).bind ?_ fun _ _ h => h.1
  rintro space s ⟨rfl, -, -⟩
  split
  · rename_i u
    split
    · exact hplain space
    · simp only [Host.document, Host.newDocument, ensures_bind, ensures_get, ensures_require,
        ensures_liftAct, Host.ensures_space]
      refine ⟨fun n _ => ⟨fun w hw => ?_, fun _ => trivial⟩, fun _ => trivial⟩
      rcases hd : Value.lookup u w.documents with _ | d
      · simp only [ensures_bind, ensures_get, ensures_liftExcept, Host.ensures_space, hw,
          ensures_pure]
        refine ⟨fun _ hw' => ⟨fun d _ => ⟨fun r _ => ⟨fun w' hw'' => ⟨trivial, fun _ hopen => ?_⟩,
          fun _ => trivial⟩, fun _ => trivial⟩, fun _ _ => trivial⟩, fun _ => trivial⟩
        obtain rfl := Option.some_inj.1 hw''
        rw [hd] at hopen
        cases hopen
      · simp only [ensures_pure]
        refine ⟨fun r _ => ⟨fun w' hw' => ⟨trivial, fun u' hopen => ?_⟩, fun _ => trivial⟩,
          fun _ => trivial⟩
        obtain rfl := Option.some_inj.1 (hw.symm.trans hw')
        rw [hd, Option.isSome_some, if_pos rfl] at hopen
        obtain rfl := Option.some_inj.1 hopen
        refine ⟨rfl, d, rfl, ?_⟩
        rw [Host.documentAt, hw, Option.bind_some, hd]
  · exact hplain space

theorem moves_idleHook (uri : Value) : Moves r (idleHook uri) := by
  intro s
  rw [idleHook]
  exact (ensures_settingFor_read s uri).bind (fun _ _ h => h.1 ▸ .refl) fun _ _ h => h ▸ .refl

/-- **Calling a hook** works on the host and writes on the document, if that is open. -/
theorem moves_hook (h : Hook) (uri : Value)
    (hbusy : ∀ u position, uri = .str u → h = .completions position → busy u) :
    Moves (Serves busy) (hook h uri) := by
  intro s
  by_cases hp : s.host.Primed
  · rw [hook]
    refine (ensures_settingFor_read s uri).bind ?_ fun _ _ h => h ▸ .refl
    rintro now s ⟨rfl, hopen⟩
    simp only [plugins, ensures_bind, ensures_get, ensures_pure, ensures_liftAct,
      Host.ensures_config_iff, ensures_set]
    refine ⟨fun config _ => ?_, fun _ => .refl⟩
    have hwritten := h.written_call now.caller
      (s.host.machine.loaded.filter fun p => config.runs s.host.machine p)
      ⟨s.host, now.document⟩ hp
    generalize h.call now.caller _ _ = result at hwritten ⊢
    obtain ⟨answer, desk⟩ := result
    have hspares : Deed busy s { s with host := desk.host } :=
      .spared (Host.spares_of_work hwritten.host)
    dsimp only
    rcases hu : now.openAs with _ | u
    · exact .single hspares.serves
    rcases hd' : desk.document with _ | d'
    · exact .single hspares.serves
    obtain ⟨d₀, hd₀, hwrites⟩ := hwritten.document d' hd'
    obtain ⟨huri, d, hd, hat⟩ := hopen u hu
    obtain rfl := Option.some_inj.1 (hd.symm.trans hd₀)
    have hat' : desk.host.documentAt now.caller.space u = some d := by
      rw [(Host.spares_of_work hwritten.host).documentAt, hat]
    simp only [ensures_bind, ensures_liftAct, Host.ensures_storeDocument, ensures_pure]
    refine ⟨fun _ => ?_, fun hle => absurd (Host.lt_of_documentAt hat') (Nat.not_lt.2 hle)⟩
    refine (ReflTransGen.single hspares.serves).tail (Deed.serves ?_)
    cases h with
    | completions position => exact .offered (hbusy u position huri rfl) hat' hwrites
    | _ => exact .kept hat' hwrites
  · exact Ensures.of_forall (fun _ _ => .single fun h => absurd h hp)
      fun _ _ => .single fun h => absurd h hp

/-! ## Messages -/

theorem moves_requestLint (uri : Value) (isSaved : Bool) :
    Moves (Serves busy) (requestLint uri isSaved) := by
  refine Moves.ite (Moves.throw _) (Moves.modify fun s => Deed.serves ?_)
  exact .aside s _ s.sent s.isShutDown s.isClosed

theorem moves_close : Moves (Serves busy) close :=
  Moves.modify fun s => Deed.serves (.aside s s.timers s.sent s.isShutDown true)

theorem moves_notify (method : String) (params : Value) :
    Moves (Serves busy) (notify method params) := by
  refine Moves.modify fun s => ?_
  split
  · exact fun _ => .refl
  · exact Deed.serves (.aside s s.timers _ s.isShutDown s.isClosed)

/-- A lint calls the linters, and tells the editor. -/
theorem moves_lintNow {uri : Value} {isSaved : Bool} (hhook : Moves r (hook (.lint isSaved) uri))
    (hnotify : ∀ method params, Moves r (notify method params)) :
    Moves r (lintNow uri isSaved) := by
  have hopen : ∀ n, Moves r (isOpen n uri) := by
    intro n
    cases uri with
    | str => exact (moves_liftAct_space n).bind fun _ => Moves.pure _
    | _ => exact Moves.pure _
  refine (moves_spaceFor uri).bind fun space => (moves_require space).bind fun n =>
    (hopen n).bind fun _ => Moves.ite ?_ (Moves.pure _)
  exact hhook.bind fun _ => (Moves.ofExcept _).bind fun _ => hnotify _ _

/-- The message is about a document: it asks for its completions, opens or closes it. -/
def Disturbs (method : Rpc.Method) (ps : Params) (uri : String) : Prop :=
  method ∈ [.completion, .didOpen, .didClose] ∧ documentUri? ps = some uri

section

variable (ps : Params)

theorem moves_uriArg_bind {f : Value → Serve α}
    (hf : ∀ v, (arg ps "textDocument").item "uri" = .ok v → Moves r (f v)) :
    Moves r (uriArg ps >>= f) := by
  intro s
  rw [ensures_bind, uriArg, ensures_liftExcept]
  exact ⟨fun v hv => hf v hv s, fun _ _ => .refl⟩

theorem moves_uriArg_hook (h : Hook) (hh : ∀ position, h ≠ .completions position) :
    Moves (Serves busy) (uriArg ps >>= hook h) :=
  moves_uriArg_bind ps fun v _ => moves_hook h v fun _ position _ hc => absurd hc (hh position)

theorem moves_uriArg_flatHook (h : Hook) (hh : ∀ position, h ≠ .completions position) :
    Moves (Serves busy) (uriArg ps >>= flatHook h) :=
  moves_uriArg_bind ps fun v _ =>
    (moves_hook h v fun _ position _ hc => absurd hc (hh position)).bind fun _ => Moves.ofExcept _

theorem moves_didOpen : Moves (Serves (Disturbs .didOpen ps)) (didOpen ps) := by
  refine moves_uriArg_bind ps fun v hv => (moves_spaceFor v).bind fun space =>
    (moves_require space).bind fun n => ?_
  intro s
  simp only [ensures_bind, ensures_liftExcept, Value.textOr_eq_ok_iff]
  refine ⟨fun uri huri => ⟨fun text _ => ⟨fun version _ => ?_, fun _ _ => .refl⟩, fun _ _ => .refl⟩,
    fun _ _ => .refl⟩
  subst huri
  have hbusy : Disturbs .didOpen ps uri := ⟨by decide, documentUri?_eq_some_iff.2 hv⟩
  rw [ensures_liftAct, Host.ensures_openDocument]
  refine ⟨fun w hw => ⟨fun d hd => ?_, fun _ _ => .refl⟩, fun _ => .refl⟩
  obtain ⟨hlt, -⟩ := List.getElem?_eq_some_iff.1 hw
  have hopened : Deed (Disturbs .didOpen ps) s { s with host := s.host.put n uri d } :=
    .opened hbusy hlt (Workspace.blank_of_newDocument hd).1
  have hrest := (moves_idleHook (r := Serves (Disturbs .didOpen ps)) (.str uri)).bind fun _ =>
    (moves_requestLint (.str uri) true).bind fun _ => Moves.pure Value.null
  simpa only [ensures_bind] using hrest.head hopened.serves

theorem moves_didChange : Moves (Serves busy) (didChange ps) := by
  refine moves_uriArg_bind ps fun v _ => (moves_spaceFor v).bind fun space =>
    (Moves.ofExcept _).bind fun changes => ?_
  refine (Moves.forIn (fun change => ?_) changes).bind fun _ =>
    (moves_requestLint _ _).bind fun _ => Moves.pure _
  refine (moves_require space).bind fun n => (Moves.ofExcept _).bind fun uri =>
    (Moves.ofExcept _).bind fun version => Moves.bind ?_ fun _ => Moves.pure _
  intro s
  rw [ensures_liftAct, Host.ensures_changeDocument]
  refine ⟨fun d hd => ⟨fun d' hd' => ?_, fun _ _ => .refl⟩, fun _ _ => .refl, fun _ => .refl⟩
  have hkeeps := Document.keeps_of_change hd'
  exact .single (Deed.serves (.kept hd ⟨hkeeps.origin, hkeeps.offers, hkeeps.proposals⟩))

theorem moves_didClose : Moves (Serves (Disturbs .didClose ps)) (didClose ps) := by
  refine moves_uriArg_bind ps fun v hv => (moves_spaceFor v).bind fun space =>
    (moves_require space).bind fun n => ?_
  intro s
  simp only [ensures_bind, ensures_liftExcept, Value.textOr_eq_ok_iff]
  refine ⟨fun uri huri => ?_, fun _ _ => .refl⟩
  subst huri
  rw [ensures_liftAct, Host.ensures_closeDocument]
  refine ⟨fun d _ => .single (Deed.serves (.closed ⟨by decide, ?_⟩)), fun _ _ => .refl,
    fun _ => .refl⟩
  exact documentUri?_eq_some_iff.2 hv

theorem moves_completion : Moves (Serves (Disturbs .completion ps)) (completion ps) := by
  refine moves_uriArg_bind ps fun v hv => Moves.bind ?_ fun _ => Moves.pure _
  refine (moves_hook _ v ?_).bind fun _ => Moves.ofExcept _
  rintro uri _ rfl -
  exact ⟨by decide, documentUri?_eq_some_iff.2 hv⟩

theorem moves_didChangeConfiguration_serves : Moves (Serves busy) (didChangeConfiguration ps) := by
  have hcount : Moves Host.Spares Host.newRevision :=
    (Moves.modify fun _ => .of_spaces rfl ⟨rfl, rfl⟩).bind fun _ =>
      Moves.get.bind fun _ => Moves.pure _
  exact moves_didChangeConfiguration_of (fun _ => moves_requestLint _ _) moves_liftAct_spares
    hcount Host.Updated.spares ps

theorem moves_didChangeWatchedFiles_serves : Moves (Serves busy) (didChangeWatchedFiles ps) :=
  moves_didChangeWatchedFiles_of (fun _ => moves_requestLint _ _)
    (fun _ => Deed.serves (.spared (.of_spaces rfl ⟨rfl, rfl⟩))) ps

/-- **What a message does**, other than a start or a change of folders. -/
theorem moves_handle {method : Rpc.Method} (hstart : method ≠ .start)
    (hfolders : method ≠ .didChangeWorkspaceFolders) :
    Moves (Serves (Disturbs method ps)) (handle ps method) := by
  have hidle : ∀ {busy : String → Prop} (uri v : Value), Moves (Serves busy) (do
      idleHook uri
      return v : Serve Value) := fun uri v => (moves_idleHook uri).bind fun _ => Moves.pure _
  cases method
  case start => exact absurd rfl hstart
  case didChangeWorkspaceFolders => exact absurd rfl hfolders
  case started => exact hidle _ _
  case executeCommand => exact hidle _ _
  case shutdown =>
    exact (Moves.modify fun s => Deed.serves (.aside s s.timers s.sent true s.isClosed)).bind
      fun _ => Moves.pure _
  case exit => exact moves_close.bind fun _ => Moves.pure _
  case resolveCompletion =>
    refine (Moves.ofExcept _).bind fun uri => moves_hook _ _ ?_
    rintro _ _ - h
    cases h
  case didOpen => exact moves_didOpen ps
  case didChange => exact moves_didChange ps
  case didClose => exact moves_didClose ps
  case didSave =>
    exact moves_uriArg_bind ps fun v _ => (moves_requestLint v true).bind fun _ => Moves.pure _
  case codeAction => exact moves_uriArg_bind ps fun v _ => hidle v _
  case codeLens => exact moves_uriArg_bind ps fun v _ => hidle v _
  case completion => exact moves_completion ps
  case documentHighlight =>
    exact moves_uriArg_bind ps fun v _ => ((moves_hook _ v fun _ _ _ h => by cases h).bind fun _ =>
      Moves.ofExcept _).bind fun _ => Moves.pure _
  case hover =>
    exact moves_uriArg_bind ps fun v _ => (moves_hook _ v fun _ _ _ h => by cases h).bind fun _ =>
      Moves.pure _
  case references =>
    exact (Moves.ofExcept _).bind fun _ => moves_uriArg_flatHook ps _ fun _ h => by cases h
  case didChangeConfiguration => exact moves_didChangeConfiguration_serves ps
  case didChangeWatchedFiles => exact moves_didChangeWatchedFiles_serves ps
  case definition | documentSymbol | foldingRange =>
    exact moves_uriArg_flatHook ps _ fun _ h => by cases h
  all_goals exact moves_uriArg_hook ps _ fun _ h => by cases h

end

end Session

/-! ## Whatever happens -/

namespace Happening

variable {s : Session} {e : Happening}

/-- The session after what happens, whether the server succeeds or fails. -/
def after (s : Session) (e : Happening) : Session :=
  match e.act s with
  | .ok _ t | .error _ t => t

theorem after_of_ensures {P : Session → Prop}
    (h : Ensures e.act s (fun _ t => P t) fun _ t => P t) : P (after s e) := by
  rw [after]
  rcases hrun : e.act s with ⟨_, t⟩ | ⟨f, t⟩
  · exact h.ok hrun
  · exact h.error hrun

theorem ensures_message {method : Rpc.Method} {ps : Session.Params} {good : Session → Prop}
    {bad : Fault → Session → Prop} :
    Ensures (act (.message method ps)) s (fun _ t => good t) bad ↔
      Ensures (Session.handle ps method) s (fun _ t => good t) bad := by
  simp only [act, ensures_bind, ensures_pure]

theorem after_of_ok {method : Rpc.Method} {ps : Session.Params} {answer : Value} {t : Session}
    (h : Session.handle ps method s = .ok answer t) : after s (.message method ps) = t := by
  have hact : act (.message method ps) s = .ok () t := by
    show EStateM.bind _ _ _ = _
    rw [EStateM.bind, h]
    rfl
  rw [after, hact]

/-- Is it a start or a change of folders? -/
def regroups : Happening → Bool
  | message .start _ | message .didChangeWorkspaceFolders _ => true
  | _ => false

/-- It is a message that opens or closes a document or asks for its completions. -/
def Disturbs (e : Happening) (uri : String) : Prop :=
  match e with
  | message method ps => Session.Disturbs method ps uri
  | _ => False

/-- Of the errands that come due, only a lint does anything. -/
theorem moves_fire
    (htaken : ∀ s due place, r s (Session.taking s due place))
    (hlint : ∀ uri isSaved, Moves r (Session.lintNow uri isSaved)) (place : Nat) :
    Moves r (act (.fire place)) := by
  intro s
  have hstays : act (.fire place) s = .ok () s → Ensures (act (.fire place)) s
      (fun _ t => ReflTransGen r s t) fun _ t => ReflTransGen r s t := by
    intro hrun
    rw [Ensures, hrun]
  rcases hw : s.timers.waiting[place]? with _ | ⟨due, ⟨uri, isSaved⟩ | pid⟩
  · exact hstays (by simp [act, hw])
  · have hrun : act (.fire place) s = Session.lintNow uri isSaved (s.taking due place) := by
      simp [act, hw]
    have hlinted := (hlint uri isSaved).head (htaken s due place)
    rw [Ensures, hrun]
    exact hlinted
  · exact hstays (by simp [act, hw])

/-- **What happens in steps**, other than a start or a change of folders. -/
theorem moves_act (h : e.regroups = false) : Moves (Session.Serves e.Disturbs) e.act := by
  rcases e with ⟨method, ps⟩ | place | ⟨files, time, engines⟩
  · refine Moves.bind (Session.moves_handle ps ?_ ?_) fun _ => Moves.pure _
    · rintro rfl
      cases h
    · rintro rfl
      cases h
  · refine moves_fire (fun s _ _ => Session.Deed.serves ?_) (fun uri isSaved => ?_) place
    · exact .aside s _ s.sent s.isShutDown s.isClosed
    · refine Session.moves_lintNow (Session.moves_hook _ _ ?_) Session.moves_notify
      rintro _ _ - h
      cases h
  · have hworld : ∀ s : Session, Session.Serves (Disturbs (.world files time engines)) s { s with
        host := { s.host with engines, machine := { s.host.machine with files, time } } } :=
      fun s =>
      Session.Deed.serves (.spared (.of_spaces rfl ⟨rfl, rfl⟩))
    exact Moves.modify hworld

theorem deeds_after (hp : s.host.Primed) (h : e.regroups = false) :
    ReflTransGen (Session.Deed e.Disturbs) s (after s e) :=
  after_of_ensures ((moves_act h s).mono (fun _ _ ht => Session.serves_of_steps ht hp) fun _ _ ht =>
    Session.serves_of_steps ht hp)

/-- **A start or a change of folders** leaves the resolvers as they are. -/
theorem primed_after_regroups (hp : s.host.Primed) (h : e.regroups = true) :
    (after s e).host.Primed := by
  have hmoves : Moves Session.Keeps e.act := by
    rcases e with ⟨method, ps⟩ | place | ⟨files, time, engines⟩
    case message =>
      rcases method
      case start => exact (Session.moves_start ps).bind fun _ => Moves.pure _
      case didChangeWorkspaceFolders =>
        exact (Session.moves_didChangeWorkspaceFolders ps).bind fun _ => Moves.pure _
      all_goals cases h
    all_goals cases h
  have hsame : s.host.SameResolvers (after s e).host :=
    after_of_ensures (P := fun t => s.host.SameResolvers t.host)
      ((hmoves s).mono (fun _ _ ht => (Session.keeps_of_steps ht).host.toSameResolvers)
        fun _ _ ht => (Session.keeps_of_steps ht).host.toSameResolvers)
  exact hp.of_eq hsame.labels hsame.snippets

theorem primed_after (hp : s.host.Primed) (e : Happening) : (after s e).host.Primed := by
  rcases h : e.regroups with _ | _
  · exact Session.primed_of_deeds (deeds_after hp h) hp
  · exact primed_after_regroups hp h

end Happening

theorem Session.primed_fresh (machine : Machine) (engines : Engines) (checksParent : Bool) :
    (fresh machine engines checksParent).host.Primed :=
  ⟨⟨[], List.forall_mem_nil _, rfl⟩, [], rfl⟩

end LangServer
