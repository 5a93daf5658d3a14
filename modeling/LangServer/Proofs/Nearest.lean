import LangServer.Proofs.Members
import LangServer.Server.Session

/-!
# The folder that a document belongs to

A document is looked for in the folder that agrees best with its URI.  Agreement counts the parts
that are equal place by place, so that it says more than it should: a folder that *contains* the
document agrees in all its parts (`agreement_eq_length_iff`), but parts that are equal behind one
that is not count as well.

* `nearest?_cases` says which folder is taken: the first of those that agree best, among the folders
  that come into question at all (`Matches`).
* So the innermost folder around a document is taken just if it has no `Rival`, which is a folder
  somewhere else with at least as many equal parts (`innermost_iff_no_rival`).
-/

namespace LangServer.Workspace

/-! ## Agreement -/

theorem agreement_le_length (as bs : List (List Char)) : agreement as bs ≤ as.length := by
  fun_induction agreement as bs with
  | case1 a as b bs ih =>
    rw [List.length_cons]
    split <;> omega
  | case2 => exact Nat.zero_le _

theorem agreement_eq_length_iff {as bs : List (List Char)} :
    agreement as bs = as.length ↔ as <+: bs := by
  fun_induction agreement as bs with
  | case1 a as b bs ih =>
    have hle := agreement_le_length as bs
    rw [List.cons_prefix_cons, ← ih, List.length_cons]
    by_cases h : a = b
    · simp only [h, beq_self_eq_true, if_true, true_and]
      omega
    · simp only [h, beq_iff_eq, if_false, false_and, iff_false]
      omega
  | case2 as bs h =>
    cases as with
    | nil => simp
    | cons a as =>
      cases bs with
      | nil => simp
      | cons b bs => exact absurd rfl (h a as b bs rfl)

/-! ## Which folder is taken -/

/-- The folder comes into question for a URI: it has no more parts, and agrees with it somewhere. -/
def Matches (folder uri : String) : Prop :=
  (Path.parts folder.toList).length ≤ (Path.parts uri.toList).length ∧
    0 < agreement (Path.parts folder.toList) (Path.parts uri.toList)

/-- How well a folder agrees with a URI. -/
def score (folder uri : String) : Nat :=
  agreement (Path.parts folder.toList) (Path.parts uri.toList)

/-- Of the folders that come into question, the folder is the first that agrees best. -/
def Leads (uri : String) (folders : List String) (w : String) : Prop :=
  ∃ before after, folders = before ++ w :: after ∧ Matches w uri ∧
    (∀ v ∈ before, Matches v uri → score v uri < score w uri) ∧
    ∀ v ∈ after, Matches v uri → score v uri ≤ score w uri

theorem Leads.mem {uri w : String} {folders : List String} (h : Leads uri folders w) :
    w ∈ folders := by
  obtain ⟨before, after, rfl, -⟩ := h
  exact List.mem_append_right _ List.mem_cons_self

theorem Leads.matches {uri w : String} {folders : List String} (h : Leads uri folders w) :
    Matches w uri := by
  obtain ⟨_, _, -, hmatches, -⟩ := h
  exact hmatches

theorem Leads.score_le {uri w v : String} {folders : List String} (h : Leads uri folders w)
    (hmem : v ∈ folders) (hv : Matches v uri) : score v uri ≤ score w uri := by
  obtain ⟨before, after, rfl, -, hbefore, hafter⟩ := h
  rcases List.mem_append.1 hmem with hmem | hmem
  · exact Nat.le_of_lt (hbefore v hmem hv)
  · rcases List.mem_cons.1 hmem with rfl | hmem
    · exact Nat.le_refl _
    · exact hafter v hmem hv

theorem Leads.cons {uri w first : String} {folders : List String} (h : Leads uri folders w)
    (hfirst : Matches first uri → score first uri < score w uri) :
    Leads uri (first :: folders) w := by
  obtain ⟨before, after, rfl, hmatches, hbefore, hafter⟩ := h
  exact ⟨first :: before, after, rfl, hmatches, List.forall_mem_cons.2 ⟨hfirst, hbefore⟩, hafter⟩

/-- Does a folder take the place of the best folder so far? -/
theorem nearestFrom_cons (uri : String) (best : Option (Nat × String)) (first : String)
    (rest : List String) :
    (nearestFrom (Path.parts uri.toList) best (first :: rest) =
        nearestFrom (Path.parts uri.toList) (some (score first uri, first)) rest ∧
      Matches first uri ∧ ∀ m b, best = some (m, b) → m < score first uri) ∨
    nearestFrom (Path.parts uri.toList) best (first :: rest) =
        nearestFrom (Path.parts uri.toList) best rest ∧
      (Matches first uri → ∃ m b, best = some (m, b) ∧ score first uri ≤ m) := by
  obtain ⟨better, hbetter, hstep⟩ : ∃ better : Bool,
      (better = true ↔ Matches first uri ∧ ∀ m b, best = some (m, b) → m < score first uri) ∧
      nearestFrom (Path.parts uri.toList) best (first :: rest) = nearestFrom
        (Path.parts uri.toList) (if better then some (score first uri, first) else best) rest := by
    refine ⟨_, ?_, rfl⟩
    rw [Bool.and_eq_true, Bool.and_eq_true, decide_eq_true_eq, decide_eq_true_eq]
    refine and_congr_right fun _ => ?_
    cases best with
    | none => simp
    | some best =>
      rw [decide_eq_true_eq]
      exact ⟨fun hlt m b hm => (Prod.mk.inj (Option.some_inj.1 hm)).1 ▸ hlt,
        fun h => h best.1 best.2 rfl⟩
  rw [hstep]
  cases better with
  | true => exact .inl ⟨rfl, hbetter.1 rfl⟩
  | false =>
    refine .inr ⟨rfl, fun hmatches => Classical.byContradiction fun hworse => ?_⟩
    refine Bool.false_ne_true (hbetter.2 ⟨hmatches, fun m b hm => Nat.lt_of_not_le fun hle => ?_⟩)
    exact hworse ⟨m, b, hm, hle⟩

/-- The search keeps the best folder so far, or takes the first that agrees best of those to come,
which then agrees better. -/
theorem nearestFrom_cases (uri : String) (best : Option (Nat × String)) (folders : List String) :
    (nearestFrom (Path.parts uri.toList) best folders = best ∧
      ∀ v ∈ folders, Matches v uri → ∃ m b, best = some (m, b) ∧ score v uri ≤ m) ∨
    ∃ w, nearestFrom (Path.parts uri.toList) best folders = some (score w uri, w) ∧
      Leads uri folders w ∧ ∀ m b, best = some (m, b) → m < score w uri := by
  induction folders generalizing best with
  | nil => exact .inl ⟨rfl, fun _ hmem => absurd hmem List.not_mem_nil⟩
  | cons first rest ih =>
    rcases nearestFrom_cons uri best first rest with ⟨heq, hmatches, hbetter⟩ | ⟨heq, hworse⟩
    · rw [heq]
      refine .inr ?_
      rcases ih (some (score first uri, first)) with ⟨heq, hrest⟩ | ⟨w, heq, hleads, hbest⟩
      · refine ⟨first, heq, ⟨[], rest, rfl, hmatches, by simp, fun v hmem hv => ?_⟩, hbetter⟩
        obtain ⟨m, b, hm, hle⟩ := hrest v hmem hv
        rwa [(Prod.mk.inj (Option.some_inj.1 hm)).1]
      · have hlt := hbest _ _ rfl
        exact ⟨w, heq, hleads.cons fun _ => hlt, fun m b hm => Nat.lt_trans (hbetter m b hm) hlt⟩
    · rw [heq]
      rcases ih best with ⟨heq, hrest⟩ | ⟨w, heq, hleads, hbest⟩
      · exact .inl ⟨heq, List.forall_mem_cons.2 ⟨hworse, hrest⟩⟩
      · refine .inr ⟨w, heq, hleads.cons fun hfirst => ?_, hbest⟩
        obtain ⟨m, b, hm, hle⟩ := hworse hfirst
        exact Nat.lt_of_le_of_lt hle (hbest m b hm)

/-- **The first folder that agrees best is taken**, and none if none comes into question. -/
theorem nearest?_cases (uri : String) (folders : List String) :
    (nearest? uri folders = none ∧ ∀ v ∈ folders, ¬ Matches v uri) ∨
      ∃ w, nearest? uri folders = some w ∧ Leads uri folders w := by
  rw [nearest?]
  rcases nearestFrom_cases uri none folders with ⟨heq, hnone⟩ | ⟨w, heq, hleads, -⟩
  · rw [heq]
    refine .inl ⟨rfl, fun v hmem hv => ?_⟩
    obtain ⟨_, _, h, -⟩ := hnone v hmem hv
    cases h
  · rw [heq]
    exact .inr ⟨w, rfl, hleads⟩

theorem leads_of_nearest? {uri w : String} {folders : List String}
    (h : nearest? uri folders = some w) : Leads uri folders w := by
  rcases nearest?_cases uri folders with ⟨hnone, -⟩ | ⟨w', hw', hleads⟩
  · cases h.symm.trans hnone
  · exact Option.some_inj.1 (hw'.symm.trans h) ▸ hleads

theorem matches_of_nearest? {uri folder : String} {folders : List String}
    (h : nearest? uri folders = some folder) : folder ∈ folders ∧ Matches folder uri :=
  ⟨(leads_of_nearest? h).mem, (leads_of_nearest? h).matches⟩

theorem not_matches_of_nearest? {uri : String} {folders : List String}
    (h : nearest? uri folders = none) {folder : String} (hfolder : folder ∈ folders) :
    ¬ Matches folder uri := by
  rcases nearest?_cases uri folders with ⟨-, hnone⟩ | ⟨w, hw, -⟩
  · exact hnone folder hfolder
  · cases h.symm.trans hw

/-! ## The innermost folder -/

/-- The document lies in the folder: the folder's parts begin those of the URI. -/
def Contains (folder uri : String) : Prop :=
  Path.parts folder.toList <+: Path.parts uri.toList

/-- The folder is one that contains the document, and none of those has more parts. -/
def Innermost (uri : String) (folders : List String) (w : String) : Prop :=
  w ∈ folders ∧ Contains w uri ∧ ∀ v ∈ folders, Contains v uri →
    (Path.parts v.toList).length ≤ (Path.parts w.toList).length

/-- A folder that does not contain the document but agrees with its URI in as many parts as any
folder has that does, and in more than such a folder has that comes before it. -/
def Rival (uri : String) (folders : List String) (v : String) : Prop :=
  ∃ before after, folders = before ++ v :: after ∧ Matches v uri ∧ ¬ Contains v uri ∧
    (∀ w ∈ folders, Contains w uri → (Path.parts w.toList).length ≤ score v uri) ∧
    ∀ w ∈ before, Contains w uri → (Path.parts w.toList).length < score v uri

variable {uri v w : String} {folders : List String}

theorem Contains.score_eq (h : Contains w uri) : score w uri = (Path.parts w.toList).length :=
  agreement_eq_length_iff.2 h

theorem Contains.matches (h : Contains w uri) (hw : Path.parts w.toList ≠ []) : Matches w uri := by
  refine ⟨h.length_le, ?_⟩
  have hscore : agreement _ _ = _ := h.score_eq
  rw [hscore]
  exact List.length_pos_iff.2 hw

theorem Matches.parts_ne_nil (h : Matches w uri) : Path.parts w.toList ≠ [] := by
  intro hnil
  have hpos := h.2
  have hle := agreement_le_length (Path.parts w.toList) (Path.parts uri.toList)
  rw [hnil, List.length_nil] at hle
  rw [hnil] at hpos
  omega

theorem eq_or_mem_of_append_cons {α : Type} {a b : α} {as as' bs bs' : List α}
    (h : as ++ a :: as' = bs ++ b :: bs') : a = b ∨ a ∈ bs ∨ b ∈ as := by
  rcases List.append_eq_append_iff.1 h with ⟨cs, rfl, hcs⟩ | ⟨cs, rfl, hcs⟩
  · cases cs with
    | nil => exact .inl (List.cons.inj hcs).1
    | cons c cs => exact .inr (Or.inl (by simp [(List.cons.inj hcs).1]))
  · cases cs with
    | nil => exact .inl (List.cons.inj hcs).1.symm
    | cons c cs => exact .inr (Or.inr (by simp [(List.cons.inj hcs).1]))

theorem Leads.rival (h : Leads uri folders w) (hw : ¬ Contains w uri) : Rival uri folders w := by
  have hle : ∀ v ∈ folders, Contains v uri → (Path.parts v.toList).length ≤ score w uri := by
    intro v hmem hv
    by_cases hnil : Path.parts v.toList = []
    · simp [hnil]
    · exact hv.score_eq ▸ h.score_le hmem (hv.matches hnil)
  obtain ⟨before, after, heq, hmatches, hbefore, -⟩ := h
  refine ⟨before, after, heq, hmatches, hw, hle, fun v hmem hv => ?_⟩
  by_cases hnil : Path.parts v.toList = []
  · rw [hnil]
    exact hmatches.2
  · exact hv.score_eq ▸ hbefore v hmem (hv.matches hnil)

theorem Leads.not_rival (h : Leads uri folders w) (hw : Contains w uri) (v : String) :
    ¬ Rival uri folders v := by
  rintro ⟨before', after', heq', hmatches', hv, hall, hbefore'⟩
  have hmem : v ∈ folders := heq' ▸ List.mem_append_right _ List.mem_cons_self
  have hle := h.score_le hmem hmatches'
  have hge := hall w h.mem hw
  have hscore := hw.score_eq
  obtain ⟨before, after, heq, -, hbefore, -⟩ := h
  rcases eq_or_mem_of_append_cons (heq.symm.trans heq') with rfl | hmem | hmem
  · exact hv hw
  · have hlt := hbefore' w hmem hw
    omega
  · have hlt := hbefore v hmem hmatches'
    omega

/-- **The innermost folder around a document is taken just if it has no rival.** A folder without
parts is not taken. The folder that is taken is the one whose workspace the document is looked for
in. -/
theorem innermost_iff_no_rival (uri : String) (folders : List String) :
    ((∃ w, nearest? uri folders = some w ∧ Innermost uri folders w) ↔
      (∃ w ∈ folders, Contains w uri ∧ Path.parts w.toList ≠ []) ∧
        ∀ v, ¬ Rival uri folders v) ∧
    ∀ s : Session, s.folders.map (·.1) = folders → ∀ w, nearest? uri folders = some w →
      ∃ n, Value.lookup w s.folders = some n ∧ s.spaceOf? uri = some n := by
  refine ⟨⟨?_, ?_⟩, ?_⟩
  · rintro ⟨w, hnear, hmem, hw, -⟩
    have hleads := leads_of_nearest? hnear
    exact ⟨⟨w, hmem, hw, hleads.matches.parts_ne_nil⟩, hleads.not_rival hw⟩
  · rintro ⟨⟨v, hmem, hv, hnil⟩, hrival⟩
    rcases nearest?_cases uri folders with ⟨-, hnone⟩ | ⟨w, hnear, hleads⟩
    · exact absurd (hv.matches hnil) (hnone v hmem)
    have hw : Contains w uri := Classical.byContradiction fun hw => hrival w (hleads.rival hw)
    refine ⟨w, hnear, hleads.mem, hw, fun v hmem hv => ?_⟩
    by_cases hnil : Path.parts v.toList = []
    · simp [hnil]
    · rw [← hv.score_eq, ← hw.score_eq]
      exact hleads.score_le hmem (hv.matches hnil)
  · rintro s rfl w hnear
    obtain ⟨hmem, -⟩ := matches_of_nearest? hnear
    cases hlookup : Value.lookup w s.folders with
    | none => exact absurd hmem (Value.lookup_eq_none_iff.1 hlookup)
    | some n =>
      refine ⟨n, rfl, ?_⟩
      rw [Session.spaceOf?, hnear]
      dsimp only
      rw [hlookup]
      rfl

instance (folder uri : String) : Decidable (Contains folder uri) :=
  inferInstanceAs (Decidable (Path.parts folder.toList <+: Path.parts uri.toList))

/-- A document in one user's folder is looked for in a project of another user, whose path has the
same names further down. -/
theorem neighbour_taken_for_innermost :
    let uri := "file:///home/ann/work/src/a.py"
    let folders := ["file:///home/ann", "file:///home/bob/work/src"]
    Contains "file:///home/ann" uri ∧ ¬ Contains "file:///home/bob/work/src" uri ∧
      nearest? uri folders = some "file:///home/bob/work/src" ∧
      ¬ ∀ v, ¬ Rival uri folders v := by
  intro uri folders
  have hann : Contains "file:///home/ann" uri := by decide +kernel
  have hbob : ¬ Contains "file:///home/bob/work/src" uri := by decide +kernel
  have hnear : nearest? uri folders = some "file:///home/bob/work/src" := by decide +kernel
  refine ⟨hann, hbob, hnear, fun hrival => ?_⟩
  obtain ⟨w, hw, -, hcontains, -⟩ := (innermost_iff_no_rival uri folders).1.2
    ⟨⟨_, List.mem_cons_self, hann, by decide +kernel⟩, hrival⟩
  exact hbob (Option.some_inj.1 (hnear.symm.trans hw) ▸ hcontains)

end LangServer.Workspace
