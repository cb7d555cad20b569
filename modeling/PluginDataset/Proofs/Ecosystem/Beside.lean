import Mathlib.Data.List.Basic
import Mathlib.Data.List.Find
import PluginDataset.Proofs.Ecosystem.Branches
import PluginDataset.Proofs.Ecosystem.Resolution
import PluginDataset.Proofs.Files.Beside

/-!
# Plugins beside a change

What is installed below some roots does not depend on what is outside of them. A change at a place
that is neither a root nor inside one shows in no answer: not in the searched directories, the names
of modules, their files, the lookup plugins, or the documentation.

## Main definitions

* `FileSystem.Searched` says what a searched directory is besides a path.

## Main results

* `FileSystem.searched_of_mem_searchDirectories`: searched directories are beside the change.
* `FileSystem.SameBeside.searchDirectories_eq`, `FileSystem.SameBeside.moduleNames_eq`,
  `FileSystem.SameBeside.resolveModule_eq`, `FileSystem.SameBeside.lookupPlugins_eq`: the answers.
* `FileSystem.SameBeside.extract_eq`: what becomes of a name of the catalog.
-/

namespace PluginDataset

theorem mapM_congr {α β : Type} {f g : α → Except Fault β} {items : List α}
    (h : ∀ a ∈ items, f a = g a) : items.mapM f = items.mapM g := by
  induction items with
  | nil => rfl
  | cons a rest ih =>
    obtain ⟨ha, hrest⟩ := List.forall_mem_cons.1 h
    rw [List.mapM_cons, List.mapM_cons, ha, ih hrest]

namespace FileSystem

variable {fs fs' : FileSystem} {place : Place}

/-! ## Searched directories -/

/-- Visible names lead from a directory to the directories below it. -/
theorem find_branch (hfs : fs.WellNamed) {p : Path} {q : Place} {n : Node}
    (h : fs.find .use p = .ok (q, n)) {names : List FileName}
    (hnames : n.kind? names = some .directory) :
    fs.LeadsToDirectory (p.branch names) (q ++ names) := by
  induction names generalizing p q n with
  | nil =>
    obtain ⟨entries, rfl⟩ := Node.kind_eq_directory.1 (by simpa using hnames)
    refine ⟨entries, ?_⟩
    rw [List.append_nil]
    exact h
  | cons name rest ih =>
    cases n with
    | file _ => simp [Node.kind?, Node.at?] at hnames
    | link _ => simp [Node.kind?, Node.at?] at hnames
    | directory entries =>
      rw [Node.kind?_cons] at hnames
      obtain ⟨child, hlookup, hchild⟩ := Option.bind_eq_some_iff.1 hnames
      obtain ⟨_, _, hat⟩ := leads_of_find h
      have hmem := (Node.lookup_eq_some_iff_mem (hfs.distinct q entries hat)).1 hlookup
      have hplain : FileName.IsPlain name := hfs.plain q entries hat _ hmem
      have hlink : ∀ target, child ≠ .link target := by
        rintro target rfl
        cases rest <;> simp [Node.kind?, Node.at?, Node.kind] at hchild
      have hfound := find_child h hplain hlookup hlink
      rw [List.append_cons]
      exact ih hfound hchild

/-- What is below a directory beside a place is beside it as well. -/
theorem Beside.branch {p : Path} (h : fs.Beside place p) {names : List FileName}
    (hnames : ∀ n ∈ names, FileName.IsPlain n) : fs.Beside place (p.branch names) := by
  induction names generalizing p with
  | nil => exact h
  | cons name rest ih =>
    obtain ⟨hname, hrest⟩ := List.forall_mem_cons.1 hnames
    exact ih (h.child hname) hrest

/-- A directory beside a place that has been found by its path. -/
structure Searched (fs : FileSystem) (place : Place) (directory : Path) : Prop where
  beside : fs.Beside place directory
  leads : ∃ q, fs.LeadsToDirectory directory q

/-- Roots that are beside a place have all their directories there. -/
theorem searched_of_mem_searchDirectories (hfs : fs.WellNamed) {roots : List Path}
    (hroots : ∀ root ∈ roots, root.bytes ≠ [] → fs.Beside place root) {directory : Path}
    (h : directory ∈ fs.searchDirectories roots) : fs.Searched place directory := by
  obtain ⟨root, hroot, hdirectory⟩ := List.mem_flatMap.1 (mem_of_mem_dropSame h)
  obtain ⟨q, entries, names, hfind, rfl, hnames⟩ := exists_branch_of_mem_directoriesOf hdirectory
  have hbeside := hroots root hroot (bytes_ne_nil_of_find hfind)
  obtain rfl | hnames := hnames
  · exact ⟨hbeside, q, entries, hfind⟩
  · obtain ⟨_, _, hat⟩ := leads_of_find hfind
    obtain ⟨_, hkind, _⟩ := (Node.mem_branches_iff (hfs.distinct.of_at? hat)).1 hnames
    exact ⟨hbeside.branch (hfs.isPlain_of_kind? hat hkind), _, find_branch hfs hfind hkind⟩

namespace SameBeside

variable (h : SameBeside place fs fs')

include h

theorem directoriesOf_eq {root : Path} (hroot : root.bytes ≠ [] → fs.Beside place root) :
    fs'.directoriesOf root = fs.directoriesOf root := by
  by_cases hempty : root.bytes = []
  · have hlook (f : FileSystem) : f.look? root = none := by
      rw [look?, FileSystem.find, goal, if_pos hempty]
      rfl
    rw [directoriesOf, directoriesOf, hlook, hlook]
  · rw [directoriesOf, directoriesOf, h.look?_eq (hroot hempty),
      h.isPlainDirectory_eq (hroot hempty)]

theorem searchDirectories_eq {roots : List Path}
    (hroots : ∀ root ∈ roots, root.bytes ≠ [] → fs.Beside place root) :
    fs'.searchDirectories roots = fs.searchDirectories roots := by
  rw [searchDirectories, searchDirectories,
    List.flatMap_congr fun root hroot => h.directoriesOf_eq (hroots root hroot)]

/-- A searched directory lists the same names as before. -/
theorem list_eq_of_searched {directory : Path} (hdirectory : fs.Searched place directory) :
    ∃ names, fs.list directory = .ok names ∧ fs'.list directory = .ok names := by
  obtain ⟨q, entries, hfind⟩ := hdirectory.leads
  refine ⟨entries.map (·.1), ?_, ?_⟩
  · rw [list, hfind]
  · rw [list, h.find_of_find hdirectory.beside hfind]

/-! ## Modules -/

theorem candidate?_eq {directory : Path} (hdirectory : fs.Beside place directory)
    {entry : FileName} (hentry : entry.IsPlain) :
    fs'.candidate? directory entry = fs.candidate? directory entry := by
  have hchild := hdirectory.child hentry
  simp only [candidate?, h.isDirectory_eq hchild, h.isLink_eq hchild]

theorem moduleNames_eq (hfs : fs.WellNamed) {directory : Path}
    (hdirectory : fs.Searched place directory) :
    fs'.moduleNames directory = fs.moduleNames directory := by
  obtain ⟨names, hlist, hlist'⟩ := h.list_eq_of_searched hdirectory
  rw [moduleNames, moduleNames, hlist, hlist']
  dsimp only
  rw [List.filterMap_congr fun entry hentry =>
    h.candidate?_eq hdirectory.beside (hfs.isPlain_of_mem_list hlist hentry)]

theorem findByStem?_eq (name : String) {directory : Path}
    (hdirectory : fs.Searched place directory) :
    fs'.findByStem? name directory = fs.findByStem? name directory := by
  obtain ⟨names, hlist, hlist'⟩ := h.list_eq_of_searched hdirectory
  rw [findByStem?, findByStem?, hlist, hlist']

/-- A file of a module is found in the first of some searched directories, as before. -/
theorem find?_moduleFile_eq {name mark : String} (hname : IsModuleName name)
    (hmark : mark = "" ∨ mark = "_") {paths : List Path}
    (hpaths : ∀ directory ∈ paths, fs.Searched place directory) :
    (paths.map fun directory => directory.join (moduleFile mark name)).find? fs'.isFile =
      (paths.map fun directory => directory.join (moduleFile mark name)).find? fs.isFile := by
  refine List.find?_congr fun p hp => ?_
  obtain ⟨directory, hdirectory, rfl⟩ := List.mem_map.1 hp
  have hplain := isPlain_moduleFile hname.notMem hmark
  exact h.isFile_eq ((hpaths directory hdirectory).beside.child hplain)

theorem resolveModule_eq {name : String} (hname : IsModuleName name) {paths : List Path}
    (hpaths : ∀ directory ∈ paths, fs.Searched place directory) :
    fs'.resolveModule name paths = fs.resolveModule name paths := by
  have hstem : paths.findSome? (fs'.findByStem? name) = paths.findSome? (fs.findByStem? name) := by
    rw [← List.head?_filterMap, ← List.head?_filterMap,
      List.filterMap_congr fun directory hdirectory => h.findByStem?_eq name
        (hpaths directory hdirectory)]
  simp only [resolveModule, h.find?_moduleFile_eq hname (.inl rfl) hpaths,
    h.find?_moduleFile_eq hname (.inr rfl) hpaths, hstem]

/-- The names of the catalog are the same as before. -/
theorem catalog_eq (hfs : fs.WellNamed) {paths : List Path}
    (hpaths : ∀ directory ∈ paths, fs.Searched place directory)
    (moduleRoots lookupRoots : List Path) :
    (fs'.ecosystem moduleRoots lookupRoots).catalog paths =
      (fs.ecosystem moduleRoots lookupRoots).catalog paths := by
  rw [Ecosystem.catalog, Ecosystem.catalog]
  exact congrArg (fun names => dropRepeats (sortNames names))
    (List.flatMap_congr fun directory hdirectory =>
      h.moduleNames_eq hfs (hpaths directory hdirectory))

/-! ## Lookup plugins -/

theorem lookupsIn_eq (hfs : fs.WellNamed) {directory : Path}
    (hdirectory : fs.Searched place directory) :
    fs'.lookupsIn directory = fs.lookupsIn directory := by
  obtain ⟨names, hlist, hlist'⟩ := h.list_eq_of_searched hdirectory
  have hfile (entry : FileName) (hentry : entry ∈ names) :
      fs'.isFile (directory.child entry) = fs.isFile (directory.child entry) :=
    h.isFile_eq (hdirectory.beside.child (hfs.isPlain_of_mem_list hlist hentry))
  rw [lookupsIn, lookupsIn, hlist, hlist']
  dsimp only
  rw [List.filter_congr fun entry hentry => congrArg (· && _) (hfile entry hentry)]

theorem lookupPlugins_eq (hfs : fs.WellNamed) {roots : List Path}
    (hroots : ∀ root ∈ roots, root.bytes ≠ [] → fs.Beside place root) :
    fs'.lookupPlugins roots = fs.lookupPlugins roots := by
  rw [lookupPlugins, lookupPlugins, h.searchDirectories_eq hroots,
    mapM_congr fun directory hdirectory =>
      h.lookupsIn_eq hfs (searched_of_mem_searchDirectories hfs hroots hdirectory)]

/-! ## Extraction -/

/-- An entry of a searched directory is found as before. -/
theorem exists_find_child (hfs : fs.WellNamed) {directory : Path}
    (hdirectory : fs.Searched place directory) {names : List FileName}
    (hlist : fs.list directory = .ok names) {entry : FileName} (hentry : entry ∈ names) :
    fs.Beside place (directory.child entry) ∧
      ∃ found, fs.find .use (directory.child entry) = .ok found := by
  have hplain := hfs.isPlain_of_mem_list hlist hentry
  refine ⟨hdirectory.beside.child hplain, ?_⟩
  obtain ⟨q, entries, hfind⟩ := hdirectory.leads
  obtain ⟨_, _, hat⟩ := leads_of_find hfind
  rw [list, hfind] at hlist
  obtain rfl := Except.ok.inj hlist
  obtain ⟨⟨name, child⟩, hmem, rfl⟩ := List.mem_map.1 hentry
  have hlookup := (Node.lookup_eq_some_iff_mem (hfs.distinct q entries hat)).2 hmem
  refine ⟨_, find_child hfind hplain hlookup fun target hlink => ?_⟩
  refine h.noLinks (q ++ [name]) target ?_
  rw [kind?_concat hat, hlookup, hlink]
  rfl

theorem documentation_eq {p : Path} (hp : fs.Beside place p) {found : Place × Node}
    (hfind : fs.find .use p = .ok found) : fs'.documentation p = fs.documentation p := by
  rw [documentation, documentation, h.readText_eq hp hfind]

/-- What becomes of a name of the catalog is the same as before. -/
theorem extract_eq (hfs : fs.WellNamed) {moduleRoots : List Path} (lookupRoots : List Path)
    (hroots : ∀ root ∈ moduleRoots, root.bytes ≠ [] → fs.Beside place root)
    (exclude : List String) {name : String}
    (hname : name ∈ (fs.ecosystem moduleRoots lookupRoots).catalog
      (fs.searchDirectories moduleRoots)) :
    ((fs'.sources moduleRoots lookupRoots).extractor (fs.searchDirectories moduleRoots)
        exclude).extract name =
      ((fs.sources moduleRoots lookupRoots).extractor (fs.searchDirectories moduleRoots)
        exclude).extract name := by
  have hsearched : ∀ directory ∈ fs.searchDirectories moduleRoots, fs.Searched place directory :=
    fun _ hdirectory => searched_of_mem_searchDirectories hfs hroots hdirectory
  have hmodule : IsModuleName name := by
    obtain ⟨_, _, names, entry, hlist, hentry, hcandidate⟩ := mem_catalog.1 hname
    exact isModuleName_of_candidate? (hfs.isPlain_of_mem_list hlist hentry).notMem hcandidate
  refine Extractor.extract_congr rfl (h.resolveModule_eq hmodule hsearched) fun p hp => ?_
  obtain ⟨directory, hdirectory, names, entry, hlist, hentry, rfl, _⟩ :=
    exists_entry_of_resolveModule hmodule hp
  obtain ⟨hbeside, found, hfind⟩ :=
    h.exists_find_child hfs (hsearched directory hdirectory) hlist hentry
  exact ⟨h.isDirectory_eq hbeside, h.documentation_eq hbeside hfind⟩

end SameBeside

end FileSystem

end PluginDataset
