import LangServer.Proofs.Linting.Answers
import LangServer.Proofs.Linting.Pending

/-!
# Is what the client sees up to date?

A lint does not run when it is asked for but later, and until then the client sees what was found in
an older text, or with older settings. This module follows a server from its start, while messages
about documents, settings and files come in, waiting lints run in any order, and the world changes.
Beside the session a `Screen` keeps the settings that the client sent last, and for every document
what it looked like, and under which settings, when it was linted for the client last.

`Screen.Tended` is the invariant: of every document one lint waits at most, and of an open document
one waits unless the client has seen a lint of it as it is. Every message keeps it
(`Screen.Tended.message`), and so does a lint that runs (`Screen.Tended.fire`).
-/

namespace LangServer

open Session (Params publication)

/-! ## Runs with lints -/

/-- What happens to a server that has been started. -/
inductive Happening where
  /-- A message of the client. -/
  | message (method : Rpc.Method) (ps : Params)
  /-- The lint that waits at a place in the list comes due. -/
  | fire (place : Nat)
  /-- Files change, the clock, and what the engines answer. -/
  | world (files : Files) (time : Int) (engines : Engines)

namespace Happening

/-- What the server does. -/
def act : Happening → Serve Unit
  | message method ps => do
    let _ ← Session.handle ps method
    return ()
  | fire place => fun s =>
    match s.timers.waiting[place]? with
    | some ⟨due, .lint uri isSaved⟩ => Session.lintNow uri isSaved (s.taking due place)
    | _ => .ok () s
  | world files time engines => modify fun s => { s with
      host := { s.host with engines, machine := { s.host.machine with files, time } } }

/-- The settings of the client, when they were `client` before. -/
def clientAfter (client : Value) : Happening → Value
  | message .didChangeConfiguration ps =>
    (Host.serverPart (Session.arg ps "settings")).toOption.getD client
  | _ => client

/-- The messages that a client sends about documents, settings and files. -/
def methods : List Rpc.Method :=
  [.didOpen, .didChange, .didSave, .didClose, .didChangeConfiguration, .didChangeWatchedFiles]

end Happening

/-- The document that the next lint is of, if the one at a place comes due. -/
def Session.firing? (s : Session) (place : Nat) : Option String :=
  match s.timers.waiting[place]? with
  | some ⟨_, .lint (.str uri) _⟩ => some uri
  | _ => none

/-- Nothing is sent, and no findings are remembered. -/
structure Session.Silent (s t : Session) : Prop where
  sent : t.sent = s.sent
  lastFindings : t.host.lastFindings = s.host.lastFindings

/-- What the client was told about: a document as it was linted, and the settings then. -/
structure Shown where
  document : Document
  client : Value

/-- A session, and what the client has sent and seen. -/
structure Screen where
  session : Session
  /-- The settings that the client sent last. -/
  client : Value := .object []
  /-- For the documents that were linted for the client since they were opened, the last lint. -/
  shown : String → Option Shown := fun _ => none

namespace Screen

/-- The session after what happens. -/
def after (w : Screen) (e : Happening) : Session :=
  match e.act w.session with
  | .ok _ s => s
  | .error _ s => s

/-- What the client has seen after what happens. A document that is opened was not seen yet, and
one that is linted is seen if the server sends something. -/
def seen (w : Screen) : Happening → String → Option Shown
  | .message .didOpen ps, uri => if Session.documentUri? ps = some uri then none else w.shown uri
  | .fire place, uri =>
    if w.session.firing? place = some uri ∧ (w.after (.fire place)).sent ≠ w.session.sent then
      (w.session.openDocument? uri).map (⟨·, w.client⟩)
    else w.shown uri
  | _, uri => w.shown uri

def step (w : Screen) (e : Happening) : Screen where
  session := w.after e
  client := e.clientAfter w.client
  shown := w.seen e

/-- A message is one about documents, settings or files, and its handler succeeds. -/
def Goes (w : Screen) : Happening → Prop
  | .message method ps => method ∈ Happening.methods ∧
    Ensures (Session.handle ps method) w.session (fun _ _ => True) fun _ _ => False
  | _ => True

/-- What is published is what the linters found together that are switched on, called with the open
document as it stands by a server that obeys the client's settings. Findings are remembered only
when the lint is for a saved document, and only those in its file. -/
def Publishes (w : Screen) (e : Happening) (uri : String) (listed : List Value) : Prop :=
  ∃ place due isSaved n d r config found desk, e = .fire place ∧
    w.session.timers.waiting[place]? = some ⟨due, .lint (.str uri) isSaved⟩ ∧
    w.session.spaceOf? uri = some n ∧ w.session.host.documentAt n uri = some d ∧
    w.session.config = some r ∧ w.session.host.configAt r = some config ∧
    w.session.host.Obeys w.client w.session.Holds ∧
    Linted ⟨r, n⟩ isSaved (Plugin.linters.filter fun p => config.runs w.session.host.machine p)
      ⟨w.session.host, if uri.isEmpty then none else some d⟩ found desk ∧
    listed = found.getD [] ∧ ∀ path, Value.lookup path (w.after e).host.lastFindings =
        Value.lookup path w.session.host.lastFindings ∨ isSaved = true ∧ d.path = path

/-- Nothing is sent or remembered but what is published. -/
def SendsOnly (w : Screen) (e : Happening) : Prop :=
  w.session.Silent (w.step e).session ∨ ∃ uri listed,
    (w.step e).session.sent = w.session.sent ++ [publication uri listed] ∧ w.Publishes e uri listed

/-- Every open document is seen as it is, under the settings that the client sent last. -/
def UpToDate (w : Screen) : Prop :=
  ∀ n uri d, w.session.host.documentAt n uri = some d → w.shown uri = some ⟨d, w.client⟩

/-! ## The invariant -/

/-- Every open document is where it is looked for, and a lint of it waits or it is seen as it is. -/
structure Tended (w : Screen) : Prop where
  sound : w.session.Sound
  isOpen : w.session.isClosed = false
  root_ne_none : w.session.root ≠ none
  folder : ∀ n, w.session.Holds n → ∃ name, (name, n) ∈ w.session.folders
  configured : ∀ n, w.session.Holds n → (w.session.host.configAt n).isSome = true
  obeys : w.session.host.Obeys w.client w.session.Holds
  oneEach : w.session.OneEach
  current : ∀ n uri d, w.session.host.documentAt n uri = some d → w.session.spaceOf? uri = some n ∧
    (w.session.Pending (.str uri) ∨ w.shown uri = some ⟨d, w.client⟩)

namespace Tended

variable {w : Screen} {t : Session} {client : Value} {shown : String → Option Shown}

/-- The invariant is kept where folders, root and connection stay. -/
theorem next (ht : w.Tended)
    (heq : t = { w.session with host := t.host, timers := t.timers, sent := t.sent })
    (hlen : w.session.host.spaces.length ≤ t.host.spaces.length)
    (hconfig : ∀ n, (t.host.configAt n).isSome = (w.session.host.configAt n).isSome)
    (hobeys : t.host.Obeys client w.session.Holds) (hone : t.OneEach)
    (hcurrent : ∀ n uri d, t.host.documentAt n uri = some d → w.session.spaceOf? uri = some n ∧
      (t.Pending (.str uri) ∨ shown uri = some ⟨d, client⟩)) : Tended ⟨t, client, shown⟩ := by
  generalize t.host = host, t.timers = timers, t.sent = sent at *
  subst heq
  refine ⟨⟨fun n hn => ?_, ht.sound.config_eq, ht.sound.folders_eq_nil⟩, ht.isOpen, ht.root_ne_none,
    ht.folder, fun n hn => ?_, hobeys, hone, hcurrent⟩
  · exact Nat.lt_of_lt_of_le (ht.sound.lt_of_holds n hn) hlen
  · exact (hconfig n).trans (ht.configured n hn)

/-- What messages do: the host changes, and then lints are asked for. Nothing is sent. -/
theorem asks (ht : w.Tended) {host : Host} (hasks : Session.Asks { w.session with host } t)
    (hlen : w.session.host.spaces.length ≤ host.spaces.length)
    (hconfig : ∀ n, (host.configAt n).isSome = (w.session.host.configAt n).isSome)
    (hobeys : host.Obeys client w.session.Holds)
    (hfindings : host.lastFindings = w.session.host.lastFindings)
    (hcurrent : ∀ n uri d, host.documentAt n uri = some d → w.session.spaceOf? uri = some n ∧
      (t.Pending (.str uri) ∨ shown uri = some ⟨d, client⟩)) :
    Tended ⟨t, client, shown⟩ ∧ w.session.Silent t := by
  have hone := hasks.oneEach ht.oneEach
  have heq := hasks.eq
  generalize t.timers = timers at heq
  subst heq
  exact ⟨ht.next rfl hlen hconfig hobeys hone hcurrent, rfl, hfindings⟩

theorem still (ht : w.Tended) {host : Host} (hasks : Session.Asks { w.session with host } t)
    {n : Nat} {uri : String} {d : Document} (hd : w.session.host.documentAt n uri = some d) :
    w.session.spaceOf? uri = some n ∧
      (t.Pending (.str uri) ∨ w.shown uri = some ⟨d, w.client⟩) :=
  (ht.current n uri d hd).imp_right (Or.imp_left (hasks.pending _))

/-! ## Messages -/

section

variable {ps : Params} {v : Value}

theorem didOpen (ht : w.Tended) (hrun : Session.didOpen ps w.session = .ok v t) :
    Tended ⟨t, w.client, w.seen (.message .didOpen ps)⟩ ∧ w.session.Silent t := by
  obtain ⟨uri, n, space, text, version, d, hdoc, hn, hspace, -, -, rfl⟩ :=
    (Session.ensures_didOpen_asking w.session ps).ok hrun
  obtain ⟨hlt, -⟩ := List.getElem?_eq_some_iff.1 hspace
  have hasks :=
    Session.asks_asking { w.session with host := w.session.host.put n uri d } (.str uri) true
  have hconfig := Host.configAt_withDocuments w.session.host n (Value.insert uri d)
  refine ht.asks hasks (Nat.le_of_eq (Host.length_withDocuments _).symm)
    (fun m => congrArg _ (hconfig m)) (ht.obeys.congr rfl hconfig fun _ he => he) rfl ?_
  intro m u d' hd'
  rw [Host.documentAt_put hlt] at hd'
  split at hd'
  · rename_i hmu
    rw [hmu.1, hmu.2]
    exact ⟨hn, .inl (Session.pending_asking _ _ _)⟩
  · rename_i hmu
    have hm := (ht.current m u d' hd').1
    have hne : ¬ Session.documentUri? ps = some u := by
      intro hu
      obtain rfl : uri = u := Option.some_inj.1 (hdoc.symm.trans hu)
      exact hmu ⟨Option.some_inj.1 (hm.symm.trans hn), rfl⟩
    rw [seen, if_neg hne]
    exact ht.still hasks hd'

theorem didChange (ht : w.Tended) (hrun : Session.didChange ps w.session = .ok v t) :
    Tended ⟨t, w.client, w.shown⟩ ∧ w.session.Silent t := by
  obtain ⟨uri, host, hedited, rfl⟩ := (Session.ensures_didChange_edits w.session ps).ok hrun
  have hasks := Session.asks_asking { w.session with host } uri false
  refine ht.asks hasks (Nat.le_of_eq hedited.length.symm)
    (fun m => congrArg _ (hedited.configAt m))
    (ht.obeys.congr hedited.configs hedited.configAt fun _ he => hedited.cache ▸ he)
    hedited.lastFindings ?_
  intro n u d hd
  by_cases hu : uri = .str u
  · -- the document is another one now, and a lint of it was asked for
    have hsome := hedited.isSome_documentAt n u
    rw [hd, Option.isSome_some] at hsome
    obtain ⟨d', hd'⟩ := Option.isSome_iff_exists.1 hsome.symm
    refine ⟨(ht.current n u d' hd').1, .inl ?_⟩
    rw [hu]
    exact Session.pending_asking _ _ _
  · rw [hedited.documentAt n u hu] at hd
    exact ht.still hasks hd

theorem didSave (ht : w.Tended) (hrun : Session.didSave ps w.session = .ok v t) :
    Tended ⟨t, w.client, w.shown⟩ ∧ w.session.Silent t := by
  have hasks := (Session.ensures_didSave w.session ps).ok hrun
  exact ht.asks hasks (Nat.le_refl _) (fun _ => rfl) ht.obeys rfl fun n u d hd => ht.still hasks hd

theorem didClose (ht : w.Tended) (hrun : Session.didClose ps w.session = .ok v t) :
    Tended ⟨t, w.client, w.shown⟩ ∧ w.session.Silent t := by
  obtain ⟨uri, n, d, -, -, -, rfl⟩ := (Session.ensures_didClose ht.sound ps).ok hrun
  have hasks := Session.Asks.refl { w.session with host := w.session.host.remove n uri }
  have hconfig := Host.configAt_withDocuments w.session.host n (Value.erase uri)
  refine ht.asks hasks (Nat.le_of_eq (Host.length_withDocuments _).symm)
    (fun m => congrArg _ (hconfig m)) (ht.obeys.congr rfl hconfig fun _ he => he) rfl ?_
  intro m u d' hd'
  rw [Host.documentAt_remove] at hd'
  split at hd'
  · cases hd'
  · exact ht.still hasks hd'

theorem didChangeConfiguration (ht : w.Tended)
    (hrun : Session.didChangeConfiguration ps w.session = .ok v t) :
    Tended ⟨t, Happening.clientAfter w.client (.message .didChangeConfiguration ps), w.shown⟩ ∧
      w.session.Silent t := by
  obtain ⟨client, hclient, hinstructed, hasks, hpending⟩ :=
    (Session.ensures_didChangeConfiguration ht.sound ht.obeys.toNumbered ht.root_ne_none ht.folder
      ps).ok hrun
  rw [Happening.clientAfter, hclient]
  refine ht.asks hasks hinstructed.length_le hinstructed.isSome_configAt hinstructed.obeys
    hinstructed.lastFindings ?_
  intro n u d hd
  rw [hinstructed.documentAt] at hd
  have hn := (ht.current n u d hd).1
  exact ⟨hn, .inl (hpending n u d (Session.holds_of_spaceOf? hn) hd)⟩

theorem didChangeWatchedFiles (ht : w.Tended)
    (hrun : Session.didChangeWatchedFiles ps w.session = .ok v t) :
    Tended ⟨t, w.client, w.shown⟩ ∧ w.session.Silent t := by
  obtain ⟨cache, hcache, hasks⟩ := (Session.ensures_didChangeWatchedFiles w.session ps).ok hrun
  exact ht.asks hasks (Nat.le_refl _) (fun _ => rfl) (ht.obeys.congr rfl (fun _ => rfl) hcache)
    rfl fun n u d hd => ht.still hasks hd

/-- **A message keeps the invariant**, and publishes nothing. -/
theorem message (ht : w.Tended) {method : Rpc.Method} (hgoes : w.Goes (.message method ps)) :
    (w.step (.message method ps)).Tended ∧
      w.session.Silent (w.step (.message method ps)).session := by
  obtain ⟨v, t, hrun, -⟩ := hgoes.2.exists_ok
  have hafter : w.after (.message method ps) = t := by
    have hact : Happening.act (.message method ps) w.session = .ok () t := by
      show EStateM.bind _ _ _ = _
      rw [EStateM.bind, hrun]
      rfl
    rw [after, hact]
  rw [step, hafter]
  have hmethod := hgoes.1
  simp only [Happening.methods, List.mem_cons, List.not_mem_nil, or_false] at hmethod
  rcases hmethod with rfl | rfl | rfl | rfl | rfl | rfl
  · exact ht.didOpen hrun
  · exact ht.didChange hrun
  · exact ht.didSave hrun
  · exact ht.didClose hrun
  · exact ht.didChangeConfiguration hrun
  · exact ht.didChangeWatchedFiles hrun

end

theorem world (ht : w.Tended) (files : Files) (time : Int) (engines : Engines) :
    (w.step (.world files time engines)).Tended ∧
      w.session.Silent (w.step (.world files time engines)).session :=
  ht.asks (Session.Asks.refl _) (Nat.le_refl _) (fun _ => rfl)
    (ht.obeys.congr rfl (fun _ => rfl) fun _ he => he) rfl fun n u d hd => ht.current n u d hd

/-! ## Lints -/

variable {place : Nat} {due : Int} {isSaved : Bool}

theorem fire_closed (ht : w.Tended) {uri : Value}
    (hplace : w.session.timers.waiting[place]? = some ⟨due, .lint uri isSaved⟩)
    (hclosed : ∀ u, uri = .str u → w.session.openDocument? u = none) :
    (w.step (.fire place)).Tended ∧ w.session.Silent (w.step (.fire place)).session := by
  have hlint := Session.ensures_lintNow_of_closed (s := w.session.taking due place) hclosed isSaved
  have hafter : w.after (.fire place) = w.session.taking due place := by
    simp only [after, Happening.act, hplace]
    cases hrun : Session.lintNow uri isSaved (w.session.taking due place) with
    | ok _ t => exact hlint.ok hrun
    | error _ t => exact hlint.error hrun
  have hsent : (w.after (.fire place)).sent = w.session.sent := by rw [hafter]; rfl
  have hseen : w.seen (.fire place) = w.shown := by
    funext u
    rw [seen, if_neg fun h => h.2 hsent]
  refine ⟨?_, hsent, by rw [step, hafter]; rfl⟩
  rw [step, hafter, hseen]
  refine ht.next rfl (Nat.le_refl _) (fun _ => rfl) ht.obeys (ht.oneEach.taking due place)
    fun n u d hd => ?_
  obtain ⟨hn, hcurrent⟩ := ht.current n u d hd
  refine ⟨hn, hcurrent.imp_left fun hp => hp.taking hplace ?_⟩
  rintro rfl
  have hnone := hclosed u rfl
  rw [Session.openDocument?, hn, Option.bind_some] at hnone
  cases hnone.symm.trans hd

theorem fire_open (ht : w.Tended) {uri : String} {d : Document} {n : Nat}
    (hplace : w.session.timers.waiting[place]? = some ⟨due, .lint (.str uri) isSaved⟩)
    (hn : w.session.spaceOf? uri = some n) (hd : w.session.host.documentAt n uri = some d) :
    (w.step (.fire place)).Tended ∧ ∃ listed,
      (w.step (.fire place)).session.sent = w.session.sent ++ [publication uri listed] ∧
      w.Publishes (.fire place) uri listed := by
  obtain ⟨r, hr⟩ := Option.ne_none_iff_exists'.1 ht.root_ne_none
  have hconfig : w.session.config = some r := ht.sound.config_eq.trans hr
  obtain ⟨config, hc⟩ := Option.isSome_iff_exists.1 (ht.configured r (Or.inl hr))
  have hlint := Session.ensures_lintNow (s := w.session.taking due place) hn hd hconfig hc ht.isOpen
    isSaved
  obtain ⟨_, t, hrun, found, desk, host, hlinted, hspared, hremembered, rfl⟩ := hlint.exists_ok
  have hafter : w.after (.fire place) = { w.session.taking due place with
      host, sent := w.session.sent ++ [publication uri (found.getD [])] } := by
    simp only [after, Happening.act, hplace, hrun]
    rfl
  have hmore : (w.after (.fire place)).sent ≠ w.session.sent := by
    rw [hafter]
    exact fun h => List.cons_ne_nil _ _ (List.append_right_eq_self.1 h)
  have hfiring : w.session.firing? place = some uri := by rw [Session.firing?, hplace]
  refine ⟨?_, found.getD [], ?_, place, due, isSaved, n, d, r, config, found, desk, rfl, hplace, hn,
    hd, hconfig, hc, ht.obeys, hlinted, rfl, ?_⟩
  · rw [step, hafter]
    refine ht.next rfl hspared.length_le hspared.isSome_configAt (hspared.obeys _ _ ht.obeys)
      (ht.oneEach.taking due place) fun m u d' hd' => ?_
    have hsame : w.session.host.documentAt m u = some d' := (hspared.documentAt m u).symm.trans hd'
    obtain ⟨hm, hcurrent⟩ := ht.current m u d' hsame
    refine ⟨hm, ?_⟩
    by_cases hu : uri = u
    · right
      rw [seen, if_pos ⟨hu ▸ hfiring, hmore⟩, Session.openDocument?, hm, Option.bind_some, hsame]
      rfl
    · rw [seen, if_neg fun h => hu (Option.some_inj.1 (hfiring.symm.trans h.1))]
      exact hcurrent.imp_left fun hp => hp.taking hplace fun h => hu (Value.str.inj h)
  · rw [step, hafter]
  · rw [hafter]
    exact hremembered

/-- **A lint that comes due keeps the invariant**, and publishes what it found if the document is
open. -/
theorem fire (ht : w.Tended) (place : Nat) :
    (w.step (.fire place)).Tended ∧ w.SendsOnly (.fire place) := by
  by_cases hlint : ∃ due uri isSaved,
      w.session.timers.waiting[place]? = some ⟨due, .lint uri isSaved⟩
  · obtain ⟨due, uri, isSaved, hplace⟩ := hlint
    by_cases hclosed : ∀ u, uri = .str u → w.session.openDocument? u = none
    · exact (ht.fire_closed hplace hclosed).imp_right Or.inl
    · simp only [not_forall] at hclosed
      obtain ⟨u, rfl, hopen⟩ := hclosed
      obtain ⟨d, hd⟩ := Option.ne_none_iff_exists'.1 hopen
      obtain ⟨n, hn, hd⟩ := Option.bind_eq_some_iff.1 hd
      obtain ⟨hkept, listed, hsent, hpublishes⟩ := ht.fire_open hplace hn hd
      exact ⟨hkept, .inr ⟨u, listed, hsent, hpublishes⟩⟩
  · -- no lint waits there
    have hact : Happening.act (.fire place) w.session = .ok () w.session := by
      simp only [Happening.act]
      split
      · rename_i due uri isSaved hplace
        exact absurd ⟨due, uri, isSaved, hplace⟩ hlint
      · rfl
    have hafter : w.after (.fire place) = w.session := by rw [after, hact]
    have hseen : w.seen (.fire place) = w.shown := by
      funext u
      rw [seen, if_neg fun h => h.2 (by rw [hafter])]
    have hstep : w.step (.fire place) = w := by
      rw [step, hafter, hseen]
      rfl
    rw [SendsOnly, hstep]
    exact ⟨ht, .inl ⟨rfl, rfl⟩⟩

/-- **Whatever happens keeps the invariant**, and all that is sent was found by a lint. -/
theorem step (ht : w.Tended) {e : Happening} (hgoes : w.Goes e) :
    (w.step e).Tended ∧ w.SendsOnly e := by
  cases e with
  | message method ps => exact (ht.message hgoes).imp_right Or.inl
  | fire place => exact ht.fire place
  | world files time engines => exact (ht.world files time engines).imp_right Or.inl

theorem upToDate (ht : w.Tended) (hrest : ∀ uri, ¬ w.session.Pending uri) : w.UpToDate :=
  fun n uri d hd => (ht.current n uri d hd).2.resolve_left (hrest _)

theorem of_start {machine : Machine} {engines : Engines} {checksParent : Bool} {ps : Params}
    {answer : Value} {s : Session}
    (hstart : Session.handle ps .start (Session.fresh machine engines checksParent) = .ok answer s)
    (hopen : s.isClosed = false) : Tended { session := s } := by
  have hs := Session.sound_fresh machine engines checksParent
  obtain ⟨hregrouped, hroot⟩ := (Session.ensures_start _ ps).ok hstart
  obtain ⟨name, n, hb⟩ := (Session.ensures_start_begun machine engines checksParent ps).ok hstart
  refine ⟨hregrouped.sound hs, hopen, hroot, ?_, hb.configured, hb.obeys, fun uri => ?_,
    fun m uri d hd => ?_⟩
  · rintro m (hm | hm)
    · obtain rfl := Option.some_inj.1 (hb.root.symm.trans hm)
      exact ⟨name, Value.mem_of_lookup hb.folder⟩
    · exact hm
  · have hnone : (s.timers.waiting.filter fun w => w.call.isLintOf uri) = [] :=
      List.filter_eq_nil_iff.2 fun w hw hlint => hb.idle uri ⟨w, hw, hlint⟩
    rw [hnone]
    exact Nat.zero_le 1
  · rw [hregrouped.host.documentAt] at hd
    cases hd

end Tended

/-! ## An old finding -/

instance (w : Screen) : (e : Happening) → Decidable (w.Goes e)
  | .message method ps => inferInstanceAs (Decidable (method ∈ Happening.methods ∧
      Ensures (Session.handle ps method) w.session (fun _ _ => True) fun _ _ => False))
  | .fire _ => .isTrue trivial
  | .world _ _ _ => .isTrue trivial

/-- Settings of a client that wants pylint and nothing else. -/
def onlyPylint : Params :=
  let enabled (b : Bool) : Value := .object [("enabled", .bool b)]
  [("settings", .object [("pylsp", .object [("plugins", .object [
    ("pylint", enabled true), ("pyflakes", enabled false), ("pycodestyle", enabled false),
    ("mccabe", enabled false)])])])]

/-- Engines of which pylint finds one thing in every file. -/
def complaining : Engines where
  linter := { out := r#"[{"line": 1, "column": 0, "type": "error", "symbol": "s", "# ++
    r#""message": "m", "message-id": "E1"}]"# }

/-- What it finds there. -/
def complaint : Diagnostic where
  source := "pylint"
  line := 0
  column := .int 0
  endColumn := 2
  message := "[s] m"
  severity := .error
  code := some (.str "E1")

/-- A document is opened and linted. Then pylint has nothing to find any more, and the document is
changed and linted again. -/
def edited : List Happening := [
  .message .didChangeConfiguration onlyPylint,
  .message .didOpen (Session.opening "file:///w/a.py" "x\n"),
  .fire 0,
  .world {} 0 {},
  .message .didChange [("textDocument", .object [("uri", .str "file:///w/a.py")]),
    ("contentChanges", .list [.object [("text", .str "y = 1\n")]])],
  .fire 0]

/-- What the run leaves, from a session on. -/
def afterEdit (s : Session) : Screen := edited.foldl step { session := s }

/-- **An old finding is published again.** No lint waits after the run, and the document has its
new text, in which pylint would find nothing if it looked. But the client was told last what was
found in the old one. -/
theorem old_finding_published :
    Ensures (Session.handle (Session.starting "file:///w" []) .start)
      (Session.fresh {} complaining false)
      (fun _ s => Always step Goes { session := s } edited ∧
        (afterEdit s).session.timers.waiting.length = 0 ∧
        ((afterEdit s).session.openDocument? "file:///w/a.py").bind
          (fun d => (d.read {}).toOption) = some "y = 1\n" ∧
        (afterEdit s).session.sent.getLast? =
          some (publication "file:///w/a.py" [complaint.toValue]) ∧
        Ensures (Lint.Pylint.lint ⟨0, 0⟩ true)
          ⟨(afterEdit s).session.host, (afterEdit s).session.openDocument? "file:///w/a.py"⟩
          (fun found _ => found.length = 0) fun _ _ => False)
      fun _ _ => False := by
  decide +kernel

/-! ## At rest -/

/-- **What the client sees is up to date once the server rests.** From a start on, as long as the
messages succeed: of every document one lint waits at most; only lints of open documents publish
anything, and what they publish is what the linters found; and where no lint waits, every open
document was seen as it is, under the client's last settings. Only pylint in the server does not
look at a document that was not saved, but finds in it what it found in the file before. -/
theorem upToDate_at_rest {machine : Machine} {engines : Engines} {checksParent : Bool} {ps : Params}
    {answer : Value} {s : Session}
    (hstart : Session.handle ps .start (Session.fresh machine engines checksParent) = .ok answer s)
    (hopen : s.isClosed = false) {es : List Happening}
    (hes : Always step Goes { session := s } es) :
    Always step (fun w e => (w.step e).session.OneEach ∧ w.SendsOnly e ∧
      ((∀ uri, ¬ (w.step e).session.Pending uri) → (w.step e).UpToDate)) { session := s } es ∧
    ∀ c isSaved desk found desk', Lint.Pylint.lint c isSaved desk = .ok found desk' →
      Lint.Pylint.IsProgram c desk.host ∨ Lint.Pylint.FromFile isSaved desk found desk' := by
  refine ⟨?_, fun c isSaved desk found desk' hrun =>
    ((Lint.Pylint.ensures_lint c isSaved desk).ok hrun).imp And.left And.right⟩
  refine Always.of_inv (fun w e ht hgoes _ => (ht.step hgoes).1) (fun w e ht hgoes => ?_)
    (Tended.of_start hstart hopen) hes hes
  obtain ⟨hkept, hsends⟩ := ht.step hgoes
  exact ⟨hkept.oneEach, hsends, hkept.upToDate⟩

theorem ensures_edited : Ensures (Session.handle (Session.starting "file:///w" []) .start)
    (Session.fresh {} complaining false)
    (fun _ s => s.isClosed = false ∧ Always step Goes { session := s } edited ∧
      (afterEdit s).session.sent.length = 2 ∧ (afterEdit s).session.timers.waiting.length = 0)
    fun _ _ => False := by
  decide +kernel

/-- The run with the old finding is one: it sends two messages, and then the server rests. -/
theorem upToDate_after_edit : ∃ answer s,
    Session.handle (Session.starting "file:///w" []) .start (Session.fresh {} complaining false) =
      .ok answer s ∧ s.isClosed = false ∧ Always step Goes { session := s } edited ∧
    (afterEdit s).session.sent.length = 2 ∧ (afterEdit s).session.timers.waiting.length = 0 ∧
    Always step (fun w e => (w.step e).session.OneEach ∧ w.SendsOnly e ∧
      ((∀ uri, ¬ (w.step e).session.Pending uri) → (w.step e).UpToDate))
      { session := s } edited := by
  obtain ⟨answer, s, hstart, hopen, hes, hsent, hwaiting⟩ := ensures_edited.exists_ok
  exact ⟨answer, s, hstart, hopen, hes, hsent, hwaiting, (upToDate_at_rest hstart hopen hes).1⟩

end Screen
end LangServer
