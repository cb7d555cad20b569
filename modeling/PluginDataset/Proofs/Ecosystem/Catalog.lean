import PluginDataset.Proofs.Ecosystem.Candidates
import PluginDataset.Proofs.Files.PlainNames

/-!
# The catalog

The catalog of an installation has the names of the candidates in its searched directories. As no
entry has a separator in its name, these are names that a file can be looked up by.

## Main results

* `FileSystem.mem_catalog`: the names of the catalog are those of the candidates.
* `FileSystem.isModuleName_of_mem_catalog`: they have the form of module names.
* `FileSystem.bytes_ne_nil_of_mem_searchDirectories`: the path of a searched directory is not empty.
-/

namespace PluginDataset

namespace FileSystem

variable {fs : FileSystem} {name : String}

/-! ## Searched directories -/

theorem mem_of_mem_dropSame {seen paths : List Path} {p : Path} (h : p ∈ dropSame seen paths) :
    p ∈ paths := by
  induction paths generalizing seen with
  | nil => exact h
  | cons q rest ih =>
    rw [dropSame] at h
    split at h
    · exact List.mem_cons_of_mem q (ih h)
    · rcases List.mem_cons.1 h with rfl | h
      · exact List.mem_cons_self
      · exact List.mem_cons_of_mem q (ih h)

theorem bytes_branch_ne_nil {p : Path} (hp : p.bytes ≠ []) (names : List FileName) :
    (p.branch names).bytes ≠ [] := by
  induction names generalizing p with
  | nil => exact hp
  | cons n rest ih => exact ih (bytes_child_ne_nil hp n)

section

variable {root p : Path}

/-- The directories of a root that leads to a directory. -/
theorem directoriesOf_of_find {place : Place} {entries : List (FileName × Node)}
    (h : fs.find .use root = .ok (place, .directory entries)) : fs.directoriesOf root =
      (if fs.isPlainDirectory root then [root] else []) ++
        (Node.directory entries).branches.map root.branch := by
  have hlook : fs.look? root = some (.directory entries) := by
    rw [look?, h]
    rfl
  rw [directoriesOf, hlook]
  dsimp only
  split <;> rfl

/-- Only a root that leads to a directory has directories. -/
theorem exists_find_of_mem_directoriesOf (h : p ∈ fs.directoriesOf root) :
    ∃ place entries, fs.find .use root = .ok (place, .directory entries) := by
  by_cases hroot : fs.isDirectory root = true
  · exact isDirectory_iff.1 hroot
  · rw [isDirectory] at hroot
    rw [directoriesOf] at h
    split at h
    · next hlook => simp [hlook] at hroot
    · exact absurd h List.not_mem_nil

/-- The directories of a root are the root, unless it is a link, and its visible directories. -/
theorem mem_directoriesOf_iff {place : Place} {entries : List (FileName × Node)}
    (h : fs.find .use root = .ok (place, .directory entries)) : p ∈ fs.directoriesOf root ↔
      (fs.isPlainDirectory root = true ∧ p = root) ∨
        ∃ names ∈ (Node.directory entries).branches, p = root.branch names := by
  rw [directoriesOf_of_find h, List.mem_append, List.mem_map]
  constructor
  · rintro (hp | ⟨names, hnames, rfl⟩)
    · by_cases hplain : fs.isPlainDirectory root = true
      · rw [if_pos hplain] at hp
        exact .inl ⟨hplain, List.mem_singleton.1 hp⟩
      · simp [hplain] at hp
    · exact .inr ⟨names, hnames, rfl⟩
  · rintro (⟨hplain, rfl⟩ | ⟨names, hnames, rfl⟩)
    · simp [hplain]
    · exact .inr ⟨names, hnames, rfl⟩

/-- A directory of a root is written as the root with names behind it. -/
theorem exists_branch_of_mem_directoriesOf (h : p ∈ fs.directoriesOf root) :
    ∃ place entries names, fs.find .use root = .ok (place, .directory entries) ∧
      p = root.branch names ∧ (names = [] ∨ names ∈ (Node.directory entries).branches) := by
  obtain ⟨place, entries, hfind⟩ := exists_find_of_mem_directoriesOf h
  obtain ⟨_, rfl⟩ | ⟨names, hnames, rfl⟩ := (mem_directoriesOf_iff hfind).1 h
  · exact ⟨place, entries, [], hfind, rfl, .inl rfl⟩
  · exact ⟨place, entries, names, hfind, rfl, .inr hnames⟩

end

/-- A searched directory has a path that is not empty. -/
theorem bytes_ne_nil_of_mem_searchDirectories {roots : List Path} {p : Path}
    (h : p ∈ fs.searchDirectories roots) : p.bytes ≠ [] := by
  obtain ⟨root, _, hp⟩ := List.mem_flatMap.1 (mem_of_mem_dropSame h)
  obtain ⟨_, _, names, hfind, rfl, _⟩ := exists_branch_of_mem_directoriesOf hp
  exact bytes_branch_ne_nil (bytes_ne_nil_of_find hfind) names

/-! ## The catalog -/

@[simp]
theorem mem_dropRepeats {names : List String} : name ∈ dropRepeats names ↔ name ∈ names := by
  fun_induction dropRepeats names with
  | case1 => rfl
  | case2 => rfl
  | case3 x rest ih =>
    rw [ih]
    simp
  | case4 x y rest hne ih =>
    rw [List.mem_cons, ih]
    exact List.mem_cons.symm

theorem mem_moduleNames {directory : Path} : name ∈ fs.moduleNames directory ↔
    ∃ names entry, fs.list directory = .ok names ∧ entry ∈ names ∧
      fs.candidate? directory entry = some name := by
  rw [moduleNames]
  cases hlist : fs.list directory with
  | error e => simp
  | ok names => simp [sortNames]

/-- The names of the catalog are those of the candidates in its directories. -/
theorem mem_catalog {roots lookups paths : List Path} :
    name ∈ (fs.ecosystem roots lookups).catalog paths ↔
      ∃ directory ∈ paths, ∃ names entry, fs.list directory = .ok names ∧ entry ∈ names ∧
        fs.candidate? directory entry = some name := by
  have hnames : (fs.ecosystem roots lookups).moduleNames = fs.moduleNames := rfl
  rw [Ecosystem.catalog, hnames, mem_dropRepeats, sortNames, List.mem_mergeSort, List.mem_flatMap]
  exact exists_congr fun directory => and_congr_right fun _ => mem_moduleNames

/-- The names of the catalog have the form of module names. -/
theorem isModuleName_of_mem_catalog (hfs : fs.HasPlainNames) {roots lookups paths : List Path}
    (h : name ∈ (fs.ecosystem roots lookups).catalog paths) : IsModuleName name := by
  obtain ⟨_, _, names, entry, hlist, hentry, hcandidate⟩ := mem_catalog.1 h
  exact isModuleName_of_candidate? (hfs.notMem hlist hentry) hcandidate

end FileSystem

end PluginDataset
