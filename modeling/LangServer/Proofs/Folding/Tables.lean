import LangServer.Folding.Ranges
import Mathlib.Data.List.Induction
import Mathlib.Data.List.Nodup
import Mathlib.Order.Bounds.Basic

/-!
# Tables of ranges

Ranges are kept by their first line, and a first line is there once (`Ranges.Distinct`). Both ways
to fill a table, from a syntax tree and from indentation, come to the same: of all ranges that were
found with a first line, the longest is kept (`Ranges.Longest`).

* `Ranges.Longest.add` is for ranges that come in any order, one at a time.
* `Ranges.longest_ofBlocks` is for ranges in the order of their last lines, where the last one
  stays.
* `Ranges.mem_merge_iff` says what is left when two tables are joined.
-/

namespace LangServer.Folding.Ranges

variable {rs : Ranges} {s e : Int}

/-- Every first line is there once. -/
def Distinct (rs : Ranges) : Prop := (rs.map Prod.fst).Nodup

theorem distinct_nil : Distinct [] := List.nodup_nil

/-! ## Looking up -/

theorem get?_eq_none_iff : rs.get? s = none ↔ s ∉ rs.map Prod.fst := by
  induction rs with
  | nil => simp [get?]
  | cons r rs ih =>
    rw [get?]
    split <;> simp_all [eq_comm]

theorem mem_of_get? (h : rs.get? s = some e) : (s, e) ∈ rs := by
  induction rs with
  | nil => cases h
  | cons r rs ih =>
    rw [get?] at h
    split at h
    · next hs =>
      cases h
      exact hs ▸ List.mem_cons_self
    · exact List.mem_cons_of_mem _ (ih h)

theorem Distinct.get?_eq_some_iff (h : Distinct rs) : rs.get? s = some e ↔ (s, e) ∈ rs := by
  refine ⟨mem_of_get?, fun hmem => ?_⟩
  induction rs with
  | nil => cases hmem
  | cons r rs ih =>
    obtain ⟨hr, hrs⟩ := List.nodup_cons.1 h
    rw [get?]
    rcases List.mem_cons.1 hmem with rfl | hmem
    · rw [if_pos rfl]
    · have hne : r.1 ≠ s := fun heq => hr (heq ▸ List.mem_map_of_mem hmem)
      rw [if_neg hne, ih hrs hmem]

theorem get?_insert (start stop : Int) :
    (rs.insert start stop).get? s = if start = s then some stop else rs.get? s := by
  induction rs with
  | nil => rfl
  | cons r rs ih =>
    rw [insert]
    split
    · next h =>
      rw [get?, get?, h]
      split <;> rfl
    · next h =>
      rw [get?, get?, ih]
      split
      · next hs => rw [if_neg fun hstart => h (hs.trans hstart.symm)]
      · rfl

theorem map_fst_insert (start stop : Int) :
    (rs.insert start stop).map Prod.fst =
      if start ∈ rs.map Prod.fst then rs.map Prod.fst else rs.map Prod.fst ++ [start] := by
  induction rs with
  | nil => rfl
  | cons r rs ih =>
    rw [insert]
    split
    · next h => simp [h]
    · next h =>
      rw [List.map_cons, ih, List.map_cons]
      by_cases hmem : start ∈ rs.map Prod.fst
      · rw [if_pos hmem, if_pos (List.mem_cons_of_mem _ hmem)]
      · rw [if_neg hmem, if_neg fun hcons => (List.mem_cons.1 hcons).elim (h ·.symm) hmem]
        rfl

theorem Distinct.insert (h : Distinct rs) (start stop : Int) : Distinct (rs.insert start stop) := by
  rw [Distinct, map_fst_insert]
  split
  · exact h
  · next hstart =>
    refine List.nodup_append.2 ⟨h, List.nodup_singleton _, fun a ha b hb => ?_⟩
    rintro rfl
    exact hstart (List.mem_singleton.1 hb ▸ ha)

/-! ## The longest of the ranges found -/

/-- The table has, for each first line, the longest of the ranges that were found. -/
structure Longest (found : List (Int × Int)) (rs : Ranges) : Prop where
  distinct : Distinct rs
  subset : rs ⊆ found
  covers : ∀ s e, (s, e) ∈ found → ∃ e', (s, e') ∈ rs ∧ e ≤ e'

theorem longest_nil : Longest [] [] := ⟨distinct_nil, List.Subset.refl _, by simp⟩

variable {found : List (Int × Int)}

theorem Longest.mem_iff (h : Longest found rs) :
    (s, e) ∈ rs ↔ IsGreatest {e | (s, e) ∈ found} e := by
  have hle : ∀ {e e'}, (s, e) ∈ rs → (s, e') ∈ found → e' ≤ e := by
    intro e e' he he'
    obtain ⟨e'', hmem, hle⟩ := h.covers s e' he'
    rw [← h.distinct.get?_eq_some_iff] at he hmem
    rw [he, Option.some_inj] at hmem
    rwa [hmem]
  constructor
  · exact fun hmem => ⟨h.subset hmem, fun e' he' => hle hmem he'⟩
  · rintro ⟨he, hgreatest⟩
    obtain ⟨e', hmem, hle⟩ := h.covers s e he
    rwa [Int.le_antisymm hle (hgreatest (h.subset hmem))]

theorem Longest.insert (h : Longest found rs) {stop : Int} (hmem : (s, stop) ∈ found ++ [(s, e)])
    (hle : e ≤ stop) (hstop : ∀ e', (s, e') ∈ rs → e' ≤ stop) :
    Longest (found ++ [(s, e)]) (rs.insert s stop) := by
  have hdistinct := h.distinct.insert s stop
  have hiff : ∀ a b, (a, b) ∈ rs.insert s stop ↔ if s = a then stop = b else (a, b) ∈ rs := by
    intro a b
    rw [← hdistinct.get?_eq_some_iff, get?_insert, ← h.distinct.get?_eq_some_iff]
    split <;> simp
  refine ⟨hdistinct, fun r hr => ?_, fun a b hab => ?_⟩
  · rw [hiff r.1 r.2] at hr
    split at hr
    · next hs =>
      obtain ⟨a, b⟩ := r
      cases hs
      cases hr
      exact hmem
    · exact List.mem_append_left _ (h.subset hr)
  · by_cases hs : s = a
    · subst hs
      refine ⟨stop, (hiff s stop).2 (by rw [if_pos rfl]), ?_⟩
      rcases List.mem_append.1 hab with hab | hab
      · obtain ⟨e', he', hle'⟩ := h.covers s b hab
        exact hle'.trans (hstop e' he')
      · cases List.mem_singleton.1 hab
        exact hle
    · have hab : (a, b) ∈ found := by
        rcases List.mem_append.1 hab with hab | hab
        · exact hab
        · cases List.mem_singleton.1 hab
          exact absurd rfl hs
      obtain ⟨e', he', hle'⟩ := h.covers a b hab
      exact ⟨e', (hiff a e').2 (by rwa [if_neg hs]), hle'⟩

/-- A range with more than one line is added. Its first line may not be negative, since a first
line that is not there yet counts as if its range ended at line `-1`. -/
theorem Longest.add (h : Longest found rs) (hs : 0 ≤ s) :
    Longest (found ++ if s < e then [(s, e)] else []) (rs.add (s, e)) := by
  rw [Ranges.add]
  split
  · next hlt =>
    cases hget : rs.get? s with
    | none =>
      have hnot := get?_eq_none_iff.1 hget
      rw [Option.getD_none, Int.max_eq_right (by omega)]
      exact h.insert (by simp) le_rfl fun e' he' => (hnot (List.mem_map_of_mem he')).elim
    | some e' =>
      have he' := mem_of_get? hget
      rw [Option.getD_some]
      refine h.insert ?_ (Int.le_max_right ..) fun e'' he'' => ?_
      · rcases Int.le_total e' e with hle | hle
        · rw [Int.max_eq_right hle]
          simp
        · rw [Int.max_eq_left hle]
          exact List.mem_append_left _ (h.subset he')
      · rw [← h.distinct.get?_eq_some_iff, hget, Option.some_inj] at he''
        exact he'' ▸ Int.le_max_left ..
  · rwa [List.append_nil]

/-- Blocks that are closed one after the other: of those with the same first line the longest
stays, since it is the last. -/
theorem longest_ofBlocks {blocks : List (Nat × Nat)} (h : blocks.Pairwise (·.2 ≤ ·.2)) :
    Longest (blocks.map fun b => ((b.1 : Int), (b.2 : Int))) (ofBlocks blocks) := by
  induction blocks using List.reverseRecOn with
  | nil => exact longest_nil
  | append_singleton blocks b ih =>
    obtain ⟨hblocks, -, hlast⟩ := List.pairwise_append.1 h
    have ih := ih hblocks
    rw [ofBlocks, List.foldl_append, List.map_append]
    refine ih.insert (by simp) le_rfl fun e' he' => ?_
    obtain ⟨b', hb', heq⟩ := List.mem_map.1 (ih.subset he')
    rw [← (Prod.mk.inj heq).2]
    exact Int.ofNat_le.2 (hlast b' hb' b (List.mem_singleton_self b))

/-! ## Joining and sorting -/

variable {tree indentation : Ranges}

/-- What two tables have when they are joined: a range of the tree, if its first line is not in the
other table, or a range of the indentation. -/
theorem mem_merge_iff (h : Distinct indentation) :
    (s, e) ∈ tree.merge indentation ↔
      ((s, e) ∈ tree ∧ s ∉ indentation.map Prod.fst) ∨
        ∃ e', (s, e') ∈ indentation ∧ e = if s ∈ tree.map Prod.fst then max e' s else e' := by
  have hrest : (s, e) ∈ indentation.filter (fun r : Int × Int => (tree.get? r.1).isNone) ↔
      (s, e) ∈ indentation ∧ s ∉ tree.map Prod.fst := by
    rw [List.mem_filter, Option.isNone_iff_eq_none, get?_eq_none_iff]
  rw [merge, List.mem_append, List.mem_map]
  refine (or_congr (c := ((s, e) ∈ tree ∧ s ∉ indentation.map Prod.fst) ∨
    ∃ e', (s, e') ∈ indentation ∧ s ∈ tree.map Prod.fst ∧ e = max e' s) ?_ hrest).trans ?_
  · constructor
    · rintro ⟨⟨a, b⟩, hr, heq⟩
      cases hget : indentation.get? a with
      | none =>
        simp only [hget] at heq
        cases heq
        exact .inl ⟨hr, get?_eq_none_iff.1 hget⟩
      | some e' =>
        simp only [hget] at heq
        cases heq
        exact .inr ⟨e', mem_of_get? hget, List.mem_map_of_mem hr, rfl⟩
    · rintro (⟨hr, hs⟩ | ⟨e', he', hs, rfl⟩)
      · exact ⟨(s, e), hr, by simp only [get?_eq_none_iff.2 hs]⟩
      · obtain ⟨⟨a, b⟩, hr, rfl⟩ := List.mem_map.1 hs
        exact ⟨(a, b), hr, by simp only [h.get?_eq_some_iff.2 he']⟩
  · by_cases hs : s ∈ tree.map Prod.fst <;> simp [hs]

theorem merge_nil (rs : Ranges) : rs.merge [] = rs := by
  rw [merge, List.filter_nil, List.append_nil]
  exact List.map_id rs

theorem map_fst_merge : (tree.merge indentation).map Prod.fst =
    tree.map Prod.fst ++ (indentation.map Prod.fst).filter (· ∉ tree.map Prod.fst) := by
  have hrest : ((indentation.filter fun r : Int × Int => (tree.get? r.1).isNone).map Prod.fst) =
      (indentation.map Prod.fst).filter (· ∉ tree.map Prod.fst) := by
    rw [List.filter_map]
    refine congrArg _ (List.filter_congr fun r _ => ?_)
    rw [Bool.eq_iff_iff, Option.isNone_iff_eq_none, get?_eq_none_iff, Function.comp,
      decide_eq_true_iff]
  rw [merge, List.map_append, List.map_map]
  refine congrArg₂ _ (List.map_congr_left fun r _ => ?_) hrest
  rw [Function.comp]
  cases h : get? r.1 indentation <;> simp [h]

theorem Distinct.merge (htree : Distinct tree) (hindentation : Distinct indentation) :
    Distinct (tree.merge indentation) := by
  rw [Distinct, map_fst_merge]
  refine List.nodup_append.2 ⟨htree, hindentation.filter _, fun a ha b hb => ?_⟩
  rintro rfl
  simp [ha] at hb

theorem Distinct.pairwise_sort (h : Distinct rs) : rs.sort.Pairwise (·.1 < ·.1) := by
  have hsorted : rs.sort.Pairwise fun a b => decide (a.1 ≤ b.1) = true := by
    refine List.pairwise_mergeSort ?_ ?_ rs
    · simp only [decide_eq_true_eq]
      exact fun a b c => Int.le_trans
    · simp only [Bool.or_eq_true, decide_eq_true_eq]
      exact fun a b => Int.le_total a.1 b.1
  have hdistinct : rs.sort.Pairwise (·.1 ≠ ·.1) :=
    List.pairwise_map.1 (((List.mergeSort_perm ..).map Prod.fst).nodup_iff.2 h)
  exact (hsorted.and hdistinct).imp fun h =>
    lt_of_le_of_ne (of_decide_eq_true h.1) h.2

theorem mem_sort {r : Int × Int} : r ∈ rs.sort ↔ r ∈ rs := (List.mergeSort_perm ..).mem_iff

end LangServer.Folding.Ranges
