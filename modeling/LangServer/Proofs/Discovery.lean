import LangServer.Proofs.Path

/-!
# Finding files upwards

`Files.nearest` looks for files by name in the directory of a path, then in the directory around it,
and so on up to a root. `Ascent` lists these directories, and `FirstFind` says what it means to
take the names from the first of them that has any. Main statement (`nearest_takes_first_find`):
for a path in the root or anywhere below it that is what the search answers, and what it answers is
settled by those directories alone.

The search spells its directories as texts, the root with ever fewer parts joined to it, and with a
dot when there are none; `visited` lists the texts, and `location_visited_chain` says where they
lead.
-/

namespace LangServer

variable {dirs : List (List Char)}

namespace Path

/-- The directories from `d` up to `root`, the nearest first. -/
inductive Ascent (root : List Char) : List Char → List (List Char) → Prop
  | here : Ascent root root [root]
  | up {d : List Char} {dirs : List (List Char)} (h : d ≠ root)
    (above : Ascent root (dirname d) dirs) : Ascent root d (d :: dirs)

/-- The texts that the parts, in reverse, and ever fewer of them, spell. -/
def visited : List (List Char) → List (List Char)
  | [] => []
  | part :: rest => joinAll (part :: rest).reverse :: visited rest

section

variable {root : List Char} {base names : List (List Char)}

theorem Ascent.exists_names (hbase : ∀ n ∈ base, IsName n)
    (hnames : ∀ n ∈ names, IsName n) (h : Ascent (rooted base) (rooted names) dirs) :
    ∃ below, names = base ++ below := by
  generalize hd : rooted names = d at h
  induction h generalizing names with
  | here => exact ⟨[], by simpa using rooted_injective hnames hbase hd⟩
  | up hne _ ih =>
    subst hd
    rcases List.eq_nil_or_concat names with rfl | ⟨front, n, rfl⟩
    · -- The root directory is its own directory, so the way up would have to end there.
      obtain ⟨below, hbelow⟩ := @ih [] (by simp) rfl
      obtain ⟨rfl, rfl⟩ := List.append_eq_nil_iff.mp hbelow.symm
      exact absurd rfl hne
    · rw [List.concat_eq_append] at hnames ih ⊢
      have hfront : ∀ m ∈ front, IsName m := fun m hm => hnames m (by simp [hm])
      obtain ⟨below, rfl⟩ := ih hfront (dirname_rooted hfront (hnames n (by simp))).symm
      exact ⟨below ++ [n], by simp⟩

theorem isAbsolute_foldl_join (hroot : isAbsolute root)
    (below : List (List Char)) : isAbsolute (below.foldl join root) := by
  induction below generalizing root with
  | nil => exact hroot
  | cons n below ih => exact ih (isAbsolute_join hroot)

theorem way_foldl_join (hroot : isAbsolute root)
    (hnames : ∀ n ∈ names, IsName n) : way (names.foldl join root) = way root ++ names := by
  induction names generalizing root with
  | nil => simp
  | cons n names ih =>
    rw [List.foldl_cons, ih (isAbsolute_join hroot) fun m hm => hnames m (by simp [hm]),
      way_join_name hroot (hnames n (by simp))]
    simp

theorem lead_foldl_join (hroot : isAbsolute root)
    (hnames : ∀ n ∈ names, isAbsolute n = false) : lead (names.foldl join root) = lead root := by
  induction names generalizing root with
  | nil => rfl
  | cons n names ih =>
    rw [List.foldl_cons, ih (isAbsolute_join hroot) fun m hm => hnames m (by simp [hm]),
      lead_join hroot (hnames n (by simp))]

theorem exists_of_mem_visited {root a : List Char} {parts : List (List Char)}
    (h : a ∈ visited (parts ++ [root])) :
    ∃ joined, joined ⊆ parts ∧ a = joined.foldl join root := by
  induction parts with
  | nil => exact ⟨[], by simp, by simpa [visited, joinAll] using h⟩
  | cons part parts ih =>
    rw [List.cons_append, visited, List.mem_cons] at h
    rcases h with rfl | h
    · exact ⟨(part :: parts).reverse, by simp, by simp [joinAll]⟩
    · obtain ⟨joined, hjoined, rfl⟩ := ih h
      exact ⟨joined, List.subset_cons_of_subset _ hjoined, rfl⟩

theorem location_visited (hroot : isAbsolute root) (hnames : ∀ n ∈ names, IsName n)
    (h : Ascent (rooted (way root)) (rooted (way root ++ names)) dirs) :
    (visited (names.reverse ++ [root])).map location = dirs := by
  have hway : ∀ n ∈ way root, IsName n := fun n hn => isName_of_mem_way hn
  generalize hd : rooted (way root ++ names) = d at h
  induction h generalizing names with
  | here =>
    obtain rfl : names = [] := by
      simpa using rooted_injective (by simpa [or_imp, forall_and] using ⟨hway, hnames⟩) hway hd
    simp [visited, joinAll, location_eq hroot]
  | up hne _ ih =>
    subst hd
    rcases List.eq_nil_or_concat names with rfl | ⟨front, n, rfl⟩
    · simp at hne
    · rw [List.concat_eq_append] at hnames ih ⊢
      have hfront : ∀ m ∈ front, IsName m := fun m hm => hnames m (by simp [hm])
      have hup : rooted (way root ++ front) = dirname (rooted (way root ++ (front ++ [n]))) := by
        rw [← List.append_assoc, dirname_rooted _ (hnames n (by simp))]
        simpa [or_imp, forall_and] using ⟨hway, hfront⟩
      have hdeepest : joinAll (n :: (front.reverse ++ [root])).reverse =
          (front ++ [n]).foldl join root := by simp [joinAll]
      rw [List.reverse_append, List.reverse_singleton, List.singleton_append, List.cons_append,
        visited, List.map_cons, ih hfront hup, hdeepest,
        location_eq (isAbsolute_foldl_join hroot _), way_foldl_join hroot hnames]

end

theorem commonLength_append {α : Type} [BEq α] [LawfulBEq α] (as bs : List α) :
    commonLength as (as ++ bs) = as.length := by
  induction as with
  | nil => cases bs <;> rfl
  | cons a as ih => simp [commonLength, ih]

theorem relative_eq {p root : List Char} {below : List (List Char)} (hp : isAbsolute p)
    (hroot : isAbsolute root) (h : way p = way root ++ below) :
    relative p root = if below = [] then [['.']] else below := by
  rw [relative, steps_eq hp, steps_eq hroot, h, commonLength_append]
  cases below <;> simp

theorem isAbsolute_iff_outermost {p : List Char} : isAbsolute p ↔ outermost p ≠ [] := by
  cases p with
  | nil => simp [isAbsolute, outermost]
  | cons c p =>
    by_cases hc : c = '/'
    · simp [hc, isAbsolute, outermost]
    · simp [hc, isAbsolute, outermost]

theorem isAbsolute_dirname {p : List Char} (h : isAbsolute p) : isAbsolute (dirname p) := by
  rw [isAbsolute_iff_outermost] at h ⊢
  rwa [outermost_dirname]

/-- The parts that spell the directories from `dir` up to `root`, in reverse. -/
def chain (root dir : List Char) : List (List Char) := (relative dir root).reverse ++ [root]

/-- The texts spelled from a directory upwards lead to the directories up to the root, one by one.
In the root itself there is a dot to join, and the root is spelled twice. -/
theorem location_visited_chain {root dir : List Char}
    (hroot : isAbsolute root) (hdir : isAbsolute dir)
    (hup : Ascent (location root) (location dir) dirs) :
    (∀ a ∈ visited (chain root dir), isAbsolute a ∧ lead a = lead root) ∧
      ((visited (chain root dir)).map location = dirs ∨
        ∃ d, dirs = [d] ∧ (visited (chain root dir)).map location = [d, d]) := by
  rw [location_eq hroot, location_eq hdir] at hup
  obtain ⟨below, hbelow⟩ :=
    hup.exists_names (fun n hn => isName_of_mem_way hn) (fun n hn => isName_of_mem_way hn)
  have hnames : ∀ n ∈ below, IsName n := fun n hn =>
    isName_of_mem_way (p := dir) (by simp [hbelow, hn])
  have hvisited := location_visited hroot hnames (hbelow ▸ hup)
  have hparts : ∀ p ∈ relative dir root, isAbsolute p = false := by
    rw [relative_eq hdir hroot hbelow]
    split
    · simp [isAbsolute]
    · exact fun n hn => not_isAbsolute_of_isName (hnames n hn)
  refine ⟨fun a ha => ?_, ?_⟩
  · obtain ⟨joined, hjoined, rfl⟩ := exists_of_mem_visited ha
    exact ⟨isAbsolute_foldl_join hroot _,
      lead_foldl_join hroot fun p hp => hparts p (List.mem_reverse.mp (hjoined hp))⟩
  · rw [chain, relative_eq hdir hroot hbelow]
    split
    · next hnil =>
      subst hnil
      have hdot : location (join root ['.']) = location root := by
        rw [location_eq (isAbsolute_join hroot), way_join_dot hroot, location_eq hroot]
      exact .inr ⟨location root, hvisited.symm, by simp [visited, joinAll, hdot]⟩
    · exact .inl hvisited

end Path

namespace Files
open LangServer.Path

variable {fs : Files} {names : List String}

/-- The names that are there in the first of the directories that has any of them, and none if none
has. -/
def FirstFind (fs : Files) (names : List String) (dirs found : List (List Char)) : Prop :=
  (∃ nearer d farther, dirs = nearer ++ d :: farther ∧ (∀ e ∈ nearer, fs.present e names = []) ∧
    fs.present d names ≠ [] ∧ found = fs.present d names) ∨
  ((∀ d ∈ dirs, fs.present d names = []) ∧ found = [])

theorem FirstFind.head {d : List Char} (dirs : List (List Char)) (h : fs.present d names ≠ []) :
    fs.FirstFind names (d :: dirs) (fs.present d names) :=
  .inl ⟨[], d, dirs, rfl, by simp, h, rfl⟩

theorem firstFind_cons_iff {d : List Char} {dirs found : List (List Char)}
    (h : fs.present d names = []) :
    fs.FirstFind names (d :: dirs) found ↔ fs.FirstFind names dirs found := by
  constructor
  · rintro (⟨nearer, e, farther, hdirs, hnearer, he, hfound⟩ | ⟨hnone, hfound⟩)
    · cases nearer with
      | nil =>
        obtain ⟨rfl, -⟩ := List.cons.inj hdirs
        exact absurd h he
      | cons _ nearer =>
        exact .inl ⟨nearer, e, farther, (List.cons.inj hdirs).2,
          fun a ha => hnearer a (by simp [ha]), he, hfound⟩
    · exact .inr ⟨fun a ha => hnone a (by simp [ha]), hfound⟩
  · rintro (⟨nearer, e, farther, rfl, hnearer, he, hfound⟩ | ⟨hnone, hfound⟩)
    · exact .inl ⟨d :: nearer, e, farther, rfl, by simpa using ⟨h, hnearer⟩, he, hfound⟩
    · exact .inr ⟨by simpa using ⟨h, hnone⟩, hfound⟩

theorem FirstFind.of_twice {d : List Char} {found : List (List Char)}
    (h : fs.FirstFind names [d, d] found) : fs.FirstFind names [d] found := by
  by_cases hd : fs.present d names = []
  · exact (firstFind_cons_iff hd).mp h
  · rcases h with ⟨nearer, e, farther, hdirs, -, -, rfl⟩ | ⟨hnone, -⟩
    · obtain rfl : d = e := by
        have he : e ∈ [d, d] := by simp [hdirs]
        simpa [eq_comm] using he
      exact .head [] hd
    · exact absurd (hnone d (by simp)) hd

/-! ## The search over the texts -/

theorem firstFind_searchUp (fs : Files) (names : List String) (parts : List (List Char)) :
    fs.FirstFind names (visited parts) (fs.searchUp names parts) := by
  induction parts with
  | nil => exact .inr ⟨by simp [visited], rfl⟩
  | cons part rest ih =>
    rw [visited, searchUp]
    split
    · next h => exact (firstFind_cons_iff h).mpr ih
    · next h => exact .head _ h

theorem searchUp_congr {fs' : Files} {parts : List (List Char)}
    (h : ∀ a ∈ visited parts, fs'.present a names = fs.present a names) :
    fs'.searchUp names parts = fs.searchUp names parts := by
  induction parts with
  | nil => rfl
  | cons part rest ih =>
    rw [searchUp, searchUp, h _ (by simp [visited]), ih fun a ha => h a (by simp [visited, ha])]

/-! ## The search over where they lead -/

theorem location_join_name {a n : List Char} (ha : isAbsolute a) (hn : IsName n) :
    location (join a n) = join (location a) n := by
  rw [location_eq (isAbsolute_join ha), way_join_name ha hn, location_eq ha,
    join_rooted (fun m hm => isName_of_mem_way hm) hn]

theorem isThere_join_location (fs : Files) {a n : List Char} (ha : isAbsolute a) (hn : IsName n) :
    fs.isThere (join (location a) n) = fs.isThere (join a n) := by
  have habs : isAbsolute (location a) := by rw [location_eq ha]; rfl
  refine fs.isThere_congr (join_name_ne_nil _ hn) (join_name_ne_nil _ hn)
    (iff_of_false (getLast?_join_name _ hn) (getLast?_join_name _ hn)) ?_
  rw [location_eq (isAbsolute_join habs), location_eq (isAbsolute_join ha), way_join_name habs hn,
    way_join_name ha hn, location_eq ha, way_rooted fun m hm => isName_of_mem_way hm]

theorem map_location_present (fs : Files) {a : List Char} (ha : isAbsolute a)
    (hnames : ∀ n ∈ names, IsName n.toList) :
    (fs.present a names).map location = fs.present (location a) names := by
  induction names with
  | nil => rfl
  | cons n names ih =>
    have hn := hnames n (by simp)
    have ih := ih fun m hm => hnames m (by simp [hm])
    simp only [present, List.map_cons, List.filter_cons, isThere_join_location fs ha hn] at ih ⊢
    split
    · rw [List.map_cons, location_join_name ha hn, ih]
    · exact ih

theorem FirstFind.map_location {dirs found : List (List Char)} (h : fs.FirstFind names dirs found)
    (hdirs : ∀ d ∈ dirs, isAbsolute d) (hnames : ∀ n ∈ names, IsName n.toList) :
    fs.FirstFind names (dirs.map location) (found.map location) := by
  have hnil : ∀ d ∈ dirs, fs.present d names = [] → fs.present (location d) names = [] :=
    fun d hd hnone => by rw [← map_location_present fs (hdirs d hd) hnames, hnone]; rfl
  rcases h with ⟨nearer, d, farther, rfl, hnearer, hd, rfl⟩ | ⟨hnone, rfl⟩
  · have hpresent := map_location_present fs (hdirs d (by simp)) hnames
    refine .inl ⟨nearer.map location, location d, farther.map location, by simp, ?_, ?_, hpresent⟩
    · simpa using fun e he => hnil e (by simp [he]) (hnearer e he)
    · simpa [← hpresent] using hd
  · exact .inr ⟨by simpa using fun d hd => hnil d hd (hnone d hd), rfl⟩

theorem FirstFind.exists_dir {dirs found : List (List Char)} {f : List Char}
    (h : fs.FirstFind names dirs found) (hf : f ∈ found) : ∃ d ∈ dirs, f ∈ fs.present d names := by
  rcases h with ⟨nearer, d, farther, rfl, -, -, rfl⟩ | ⟨-, rfl⟩
  · exact ⟨d, by simp, hf⟩
  · simp at hf

theorem present_congr {fs' : Files} {a : List Char} (ha : isAbsolute a)
    (hnames : ∀ n ∈ names, IsName n.toList)
    (h : ∀ n ∈ names, fs'.isThere (join (location a) n.toList) =
      fs.isThere (join (location a) n.toList)) :
    fs'.present a names = fs.present a names := by
  refine List.filter_congr fun p hp => ?_
  obtain ⟨n, hn, rfl⟩ := List.mem_map.mp hp
  rw [← isThere_join_location fs' ha (hnames n hn), ← isThere_join_location fs ha (hnames n hn)]
  exact h n hn

/-! ## The search from a path -/

theorem nearest_eq (fs : Files) {root path : String} (names : List String)
    (hroot : isAbsolute root.toList) (hpath : isAbsolute path.toList) :
    fs.nearest root path names = .ok
      ((fs.searchUp names (chain root.toList (dirname path.toList))).map String.ofList) := by
  obtain ⟨r, hr⟩ := exists_eq_cons_of_isAbsolute hroot
  obtain ⟨p, hp⟩ := exists_eq_cons_of_isAbsolute hpath
  obtain ⟨d, hd⟩ := exists_eq_cons_of_isAbsolute (isAbsolute_dirname hpath)
  rw [hp] at hd
  simp [nearest, chain, hr, hp, hd]

/-- For a path in the root or below it, the search upwards gives the names that are there in the
nearest directory that has any. Other directories than those from the path up to the root make no
difference. -/
theorem nearest_takes_first_find (fs : Files) {root path : String} {names : List String}
    {dirs : List (List Char)} (hroot : isAbsolute root.toList) (hpath : isAbsolute path.toList)
    (hup : Ascent (location root.toList) (location (dirname path.toList)) dirs)
    (hnames : ∀ n ∈ names, IsName n.toList) :
    ∃ found, fs.nearest root path names = .ok found ∧
      fs.FirstFind names dirs (found.map fun f => location f.toList) ∧
      (lead root.toList = ['/'] → ∀ f ∈ found, normalize f.toList = location f.toList) ∧
      ∀ fs' : Files,
        (∀ d ∈ dirs, ∀ n ∈ names, fs'.isThere (join d n.toList) = fs.isThere (join d n.toList)) →
        fs'.nearest root path names = .ok found := by
  obtain ⟨hspelled, hvisited⟩ := location_visited_chain hroot (isAbsolute_dirname hpath) hup
  have hfirst := firstFind_searchUp fs names (chain root.toList (dirname path.toList))
  refine ⟨_, nearest_eq fs names hroot hpath, ?_, fun hlead f hf => ?_, fun fs' hsame => ?_⟩
  · have hlocated := hfirst.map_location (fun a ha => (hspelled a ha).1) hnames
    rw [List.map_map, Function.comp_def]
    simp only [String.toList_ofList]
    rcases hvisited with hdirs | ⟨d, rfl, hdirs⟩
    · rwa [hdirs] at hlocated
    · rw [hdirs] at hlocated
      exact FirstFind.of_twice hlocated
  · obtain ⟨p, hp, rfl⟩ := List.mem_map.mp hf
    obtain ⟨a, ha, hpa⟩ := hfirst.exists_dir hp
    obtain ⟨n, hn, rfl⟩ := List.mem_map.mp (List.mem_filter.mp hpa).1
    rw [String.toList_ofList]
    refine normalize_eq_location ?_
    rw [lead_join (hspelled a ha).1 (not_isAbsolute_of_isName (hnames n hn)), (hspelled a ha).2,
      hlead]
  · rw [nearest_eq fs' names hroot hpath, searchUp_congr fun a ha => ?_]
    refine present_congr (hspelled a ha).1 hnames fun n hn => hsame _ ?_ n hn
    have hmem := List.mem_map_of_mem (f := location) ha
    rcases hvisited with hdirs | ⟨d, rfl, hdirs⟩
    · rwa [hdirs] at hmem
    · simpa [hdirs] using hmem

/-- The file next to the path counts, not those further up and not the one above the root. -/
theorem nearest_settings_file :
    let fs : Files := ⟨[("/tox.ini", ""), ("/w/tox.ini", ""), ("/w/a/setup.cfg", "")]⟩
    let dirs := ["/w/a/b".toList, "/w/a".toList, "/w".toList]
    let names := ["tox.ini", "setup.cfg"]
    Ascent (location "/w".toList) (location (dirname "/w/a/b/c.py".toList)) dirs ∧
      ∃ found, fs.nearest "/w" "/w/a/b/c.py" names = .ok found ∧
        fs.FirstFind names dirs (found.map fun f => location f.toList) ∧
        (∀ f ∈ found, normalize f.toList = location f.toList) ∧
        Files.nearest ⟨[("/w/tox.ini", ""), ("/w/a/setup.cfg", "")]⟩ "/w" "/w/a/b/c.py" names =
          .ok found := by
  intro fs dirs names
  have hroot : location "/w".toList = "/w".toList := by decide +kernel
  have hdir : location (dirname "/w/a/b/c.py".toList) = "/w/a/b".toList := by decide +kernel
  have hb : dirname "/w/a/b".toList = "/w/a".toList := by decide +kernel
  have ha : dirname "/w/a".toList = "/w".toList := by decide +kernel
  have hup : Ascent (location "/w".toList) (location (dirname "/w/a/b/c.py".toList)) dirs := by
    rw [hroot, hdir]
    refine .up (by decide +kernel) ?_
    rw [hb]
    refine .up (by decide +kernel) ?_
    rw [ha]
    exact .here
  have hnames : ∀ n ∈ names, IsName n.toList := by decide +kernel
  obtain ⟨found, hfound, hfirst, hnormal, hframe⟩ :=
    nearest_takes_first_find fs (by decide +kernel) (by decide +kernel) hup hnames
  exact ⟨hup, found, hfound, hfirst, hnormal (by decide +kernel), hframe _ (by decide +kernel)⟩

end Files
end LangServer
