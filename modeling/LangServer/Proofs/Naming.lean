import LangServer.Proofs.Path
import LangServer.Workspace

/-!
# Which modules have a name

A module's dotted name is found by climbing from its directory for as long as there is a package
file. The climb is a loop without a bound, and `Climbs` says what it comes to when it comes to an
end. Directories of directories come to rest at the slashes a path begins with, or at the empty
path, and nothing stops the climb there: it ends if and only if one of the directories that enclose
the path, that outermost one included, is no package (`naming_ends_iff`). The bound that
`Files.climb` counts down is met in the other case only (`climbs_iff`); making a document then
reports an endless search.

Relative paths are read from a working directory, so a module without a directory is named unless
the working directory has a package file.
-/

namespace LangServer

open LangServer.Path

variable {isPackage : List Char → Bool} {dir : List Char} {names found : List (List Char)}

/-- The climb from a directory, with the names so far, ends with the names `found`. -/
inductive Climbs (isPackage : List Char → Bool) :
    List Char → List (List Char) → List (List Char) → Prop
  | stop {dir : List Char} {names : List (List Char)} (h : isPackage dir = false) :
    Climbs isPackage dir names names
  | up {dir : List Char} {names found : List (List Char)} (h : isPackage dir = true)
    (above : Climbs isPackage (dirname dir) (basename dir :: names) found) :
    Climbs isPackage dir names found

/-- A directory is a package, and so is every directory that the climb can come to. -/
def AllPackages (isPackage : List Char → Bool) (dir : List Char) : Prop :=
  ∀ k, isPackage (dirname^[k] dir) = true

theorem allPackages_iff :
    AllPackages isPackage dir ↔ ∀ k < dir.length + 1, isPackage (dirname^[k] dir) = true := by
  refine ⟨fun h k _ => h k, fun h k => ?_⟩
  by_cases hk : k < dir.length + 1
  · exact h k hk
  · have hlast := h dir.length (by omega)
    rw [iterate_dirname_of_length_le (Nat.le_refl _)] at hlast
    rwa [iterate_dirname_of_length_le (by omega)]

instance (isPackage : List Char → Bool) (dir : List Char) : Decidable (AllPackages isPackage dir) :=
  decidable_of_iff _ allPackages_iff.symm

theorem allPackages_dirname_iff {path : List Char} :
    AllPackages isPackage (dirname path) ↔ ∀ d, Encloses d path → isPackage d = true := by
  refine ⟨fun h d hd => ?_, fun h k => h _ (encloses_iff_exists.mpr ⟨k, rfl⟩)⟩
  obtain ⟨k, rfl⟩ := encloses_iff_exists.mp hd
  exact h k

/-! ## The loop and its bound -/

theorem Climbs.not_allPackages (h : Climbs isPackage dir names found) :
    ¬AllPackages isPackage dir := by
  induction h with
  | stop hstop => exact fun hall => absurd (hall 0) (by simp [hstop])
  | up _ _ ih => exact fun hall => ih fun k => hall (k + 1)

theorem climbs_of_climb {fuel : Nat} (h : Files.climb isPackage fuel dir names = some found) :
    Climbs isPackage dir names found := by
  induction fuel generalizing dir names with
  | zero =>
    rw [Files.climb] at h
    split at h
    · contradiction
    · next hstop => exact Option.some.inj h ▸ .stop (by simpa using hstop)
  | succ fuel ih =>
    rw [Files.climb] at h
    split at h
    · next hup => exact .up hup (ih h)
    · next hstop => exact Option.some.inj h ▸ .stop (by simpa using hstop)

theorem Climbs.climb (h : Climbs isPackage dir names found) (fuel : Nat) :
    Files.climb isPackage fuel dir names = none ∨
      Files.climb isPackage fuel dir names = some found := by
  induction h generalizing fuel with
  | stop hstop => cases fuel <;> simp [Files.climb, hstop]
  | up hup _ ih =>
    cases fuel with
    | zero => simp [Files.climb, hup]
    | succ fuel => simpa [Files.climb, hup] using ih fuel

theorem climb_eq_none_iff {fuel : Nat} : Files.climb isPackage fuel dir names = none ↔
    ∀ k < fuel + 1, isPackage (dirname^[k] dir) = true := by
  induction fuel generalizing dir names with
  | zero => cases hdir : isPackage dir <;> simp [Files.climb, hdir]
  | succ fuel ih =>
    cases hdir : isPackage dir with
    | false => simpa [Files.climb, hdir] using ⟨0, by omega, hdir⟩
    | true =>
      simp only [Files.climb, hdir, if_true, ih]
      refine ⟨fun h k hk => ?_, fun h k hk => h (k + 1) (by omega)⟩
      cases k with
      | zero => exact hdir
      | succ k => exact h k (by omega)

theorem climb_eq_none_iff_allPackages :
    Files.climb isPackage (dir.length + 1) dir names = none ↔ AllPackages isPackage dir := by
  rw [climb_eq_none_iff, allPackages_iff]
  refine ⟨fun h k hk => h k (by omega), fun h k hk => ?_⟩
  exact allPackages_iff.mpr h k

theorem climbs_iff : Climbs isPackage dir names found ↔
    Files.climb isPackage (dir.length + 1) dir names = some found := by
  refine ⟨fun h => (h.climb _).resolve_left fun hnone => ?_, climbs_of_climb⟩
  exact h.not_allPackages (climb_eq_none_iff_allPackages.mp hnone)

theorem exists_climbs_iff (names : List (List Char)) :
    (∃ found, Climbs isPackage dir names found) ↔ ¬AllPackages isPackage dir := by
  refine ⟨fun ⟨_, h⟩ => h.not_allPackages, fun h => ?_⟩
  have hsome : Files.climb isPackage (dir.length + 1) dir names ≠ none :=
    fun hnone => h (climb_eq_none_iff_allPackages.mp hnone)
  exact (Option.ne_none_iff_exists'.mp hsome).imp fun found hfound => climbs_iff.mpr hfound

/-! ## Packages in a file system -/

/-- Is a directory a package, when relative paths are read from the directory `wd`? -/
def Files.isPackageFrom (fs : Files) (wd dir : List Char) : Bool :=
  fs.isThere (join wd (join dir packageFile))

theorem location_join_root (p : List Char) : location (join ['/'] p) = location p := by
  cases habs : isAbsolute p with
  | true => rw [join_of_isAbsolute _ habs]
  | false =>
    have hjoin : isAbsolute (join ['/'] p) = true := isAbsolute_join rfl
    simp [location, absolute, habs, hjoin]

theorem Files.isName_packageFile : IsName packageFile := by decide +kernel

theorem Files.isPackageFrom_root (fs : Files) : fs.isPackageFrom ['/'] = fs.isPackage := by
  funext dir
  have hne := join_name_ne_nil dir isName_packageFile
  refine fs.isThere_congr ?_ hne ?_ (location_join_root _)
  · have habs : isAbsolute (join ['/'] (join dir packageFile)) = true := isAbsolute_join rfl
    obtain ⟨rest, hrest⟩ := exists_eq_cons_of_isAbsolute habs
    simp [hrest]
  · cases habs : isAbsolute (join dir packageFile) with
    | true => rw [join_of_isAbsolute _ habs]
    | false => rw [join_root habs, List.getLast?_append_of_ne_nil _ hne]

theorem Files.dotted?_eq_none_iff {fs : Files} {path : String} :
    fs.dotted? path = none ↔ AllPackages fs.isPackage (dirname path.toList) := by
  rw [dotted?, Option.map_eq_none_iff, climb_eq_none_iff_allPackages]

theorem Files.dotted?_eq_some_iff {fs : Files} {path name : String} :
    fs.dotted? path = some name ↔ ∃ names, Climbs fs.isPackage (dirname path.toList)
      [stem (basename path.toList)] names ∧
        name = String.ofList (List.intercalate ['.'] names) := by
  simp only [dotted?, Option.map_eq_some_iff, climbs_iff, eq_comm (a := name)]

/-- **Deriving the name of a module ends** if and only if some directory that encloses it is no
package, for instance the outermost one. Then the new document has that name; otherwise making the
document never ends. -/
theorem naming_ends_iff (fs : Files) (wd path : List Char) (m : Machine) (home : Nat) (uri : String)
    (source : Content) (version : Value) (searchPath : List String) :
    ((∃ names, Climbs (fs.isPackageFrom wd) (dirname path) [stem (basename path)] names) ↔
      ∃ d, Encloses d path ∧ fs.isPackageFrom wd d = false) ∧
    (fs.isPackageFrom wd (outermost path) = false →
      ∃ names, Climbs (fs.isPackageFrom wd) (dirname path) [stem (basename path)] names) ∧
    ((∃ fault, m.pathOf uri = .error fault ∧
        Workspace.document m home uri source version searchPath = .error fault) ∨
      ∃ p : String, m.pathOf uri = .ok p ∧
        (((∀ d, Encloses d p.toList → m.files.isPackageFrom ['/'] d = true) ∧
            Workspace.document m home uri source version searchPath =
              .error (.reported "EndlessSearch" "")) ∨
          ∃ names d, Climbs (m.files.isPackageFrom ['/']) (dirname p.toList)
              [stem (basename p.toList)] names ∧
            Workspace.document m home uri source version searchPath = .ok d ∧ d.path = p ∧
            d.dotName = String.ofList (List.intercalate ['.'] names))) := by
  have hends : (∃ names, Climbs (fs.isPackageFrom wd) (dirname path) [stem (basename path)] names) ↔
      ∃ d, Encloses d path ∧ fs.isPackageFrom wd d = false := by
    rw [exists_climbs_iff, allPackages_dirname_iff]
    simp only [not_forall, Bool.not_eq_true, exists_prop]
  refine ⟨hends, fun houter => hends.mpr ⟨_, .inl rfl, houter⟩, ?_⟩
  cases hpath : m.pathOf uri with
  | error fault =>
    refine .inl ⟨fault, rfl, ?_⟩
    simp only [Workspace.document, hpath]
    rfl
  | ok p =>
    refine .inr ⟨p, rfl, ?_⟩
    rw [Files.isPackageFrom_root]
    cases hdotted : m.files.dotted? p with
    | none =>
      refine .inl ⟨allPackages_dirname_iff.mp (Files.dotted?_eq_none_iff.mp hdotted), ?_⟩
      simp only [Workspace.document, hpath, bind, Except.bind, hdotted]
      rfl
    | some name =>
      obtain ⟨names, hclimbs, rfl⟩ := Files.dotted?_eq_some_iff.mp hdotted
      refine .inr ⟨names, ?_⟩
      simp only [Workspace.document, hpath, bind, Except.bind, hdotted]
      exact ⟨_, hclimbs, rfl, rfl, rfl⟩

/-- With a package file in the root directory the modules there have no name. -/
theorem root_package_never_named :
    let fs : Files := ⟨[("/__init__.py", "")]⟩
    (∀ d, Encloses d "/a.py".toList → fs.isPackageFrom ['/'] d = true) ∧
      (¬∃ names, Climbs (fs.isPackageFrom ['/']) (dirname "/a.py".toList)
        [stem (basename "/a.py".toList)] names) ∧
      Workspace.document { files := fs } 0 "file:///a.py" (.text "") .null [] =
        .error (.reported "EndlessSearch" "") := by
  intro fs
  have hall : AllPackages (fs.isPackageFrom ['/']) (dirname "/a.py".toList) := by decide +kernel
  have hpath : ({ files := fs : Machine }).pathOf "file:///a.py" = .ok "/a.py" := by decide +kernel
  obtain ⟨hends, -, hdoc⟩ := naming_ends_iff fs ['/'] "/a.py".toList { files := fs } 0
    "file:///a.py" (.text "") .null []
  refine ⟨allPackages_dirname_iff.mp hall, fun h => ?_, ?_⟩
  · obtain ⟨d, hd, hstops⟩ := hends.mp h
    rw [allPackages_dirname_iff.mp hall d hd] at hstops
    cases hstops
  · rcases hdoc with ⟨fault, herr, _⟩ | ⟨p, hp, ⟨_, hendless⟩ | ⟨names, _, hclimbs, _⟩⟩
    · rw [hpath] at herr
      contradiction
    · exact hendless
    · obtain rfl : "/a.py" = p := Except.ok.inj (hpath.symm.trans hp)
      exact absurd hall hclimbs.not_allPackages

end LangServer
