import PluginDataset.Proofs.Build.Exclusion
import PluginDataset.Proofs.Ecosystem.Catalog

/-!
# Resolution of catalogued modules

Resolution finds a file for every name, and asks less of it than the catalog does of a candidate. It
looks for the file of a module under its own name, then under its name as deprecated, and at last
for any entry with its stem. What is found is an entry of a searched directory that stands for the
name or is passed over.

## Main definitions

* `FileSystem.FindsOther` gives the ways in which an entry is found that is passed over.

## Main results

* `FileSystem.resolveModule_eq_some`: the three ways in which a module is found.
* `FileSystem.resolveModule_mem_list`: what is found for a name of the catalog.
* `FileSystem.resolveModule_eq_backup`: an entry that is found but stands for no module.
-/

namespace PluginDataset

/-! ## The file of a module -/

theorem bytes_moduleFile (mark name : String) : (moduleFile mark name).bytes =
    Utf8.encode (mark.toList ++ name.toList) ++ dot :: [0x70, 0x79] := by
  have hextension : Utf8.encode ".py".toList = dot :: [0x70, 0x79] := by decide
  rw [moduleFile, Path.ofString, String.toList_append, String.toList_append, Utf8.encode_append,
    hextension]

theorem text?_moduleFile (mark name : String) : FileName.text? (moduleFile mark name).bytes =
    some (mark.toList ++ name.toList ++ ".py".toList) := by
  rw [moduleFile, Path.ofString, FileName.text?, Utf8.decode?_encode, String.toList_append,
    String.toList_append]

/-- The end of the name is not one of those that are never modules. -/
theorem endsWith_py_eq_false (text : List Char) :
    ∀ suffix ∈ foreignSuffixes, endsWith (text ++ ".py".toList) suffix = false := by
  simp [foreignSuffixes, endsWith, List.isPrefixOf]

theorem append_py_notMem_housekeepingFiles (text : List Char) :
    text ++ ".py".toList ∉ housekeepingFiles := by
  have hlast : ∀ file ∈ housekeepingFiles, file.getLast? ≠ some 'y' := by decide
  intro h
  exact hlast _ h (by simp)

section

variable {mark name : String} (hname : IsModuleName name) (hmark : mark = "" ∨ mark = "_")

include hname

theorem stem_moduleFile : FileName.stem (moduleFile mark name).bytes =
    Utf8.encode (mark.toList ++ name.toList) := by
  rw [bytes_moduleFile]
  refine FileName.stem_append_dot ?_ (by decide)
  obtain ⟨c, cs, hcons⟩ := List.exists_cons_of_ne_nil hname.ne_nil
  rw [Utf8.encode_append, hcons]
  intro h
  exact Utf8.encode_cons_ne_nil c cs (List.append_eq_nil_iff.1 h).2

include hmark

theorem isModule_moduleFile : FileName.isModule name (moduleFile mark name).bytes = true := by
  rw [FileName.isModule_iff, stem_moduleFile hname]
  rcases hmark with rfl | rfl
  · exact .inl rfl
  · exact .inr rfl

end

theorem isPlain_moduleFile {mark name : String} (hname : slash ∉ FileName.ofString name)
    (hmark : mark = "" ∨ mark = "_") : FileName.IsPlain (moduleFile mark name).bytes := by
  have hlength : 3 ≤ (moduleFile mark name).bytes.length := by
    rw [bytes_moduleFile]
    simp
  refine ⟨?_, ?_, ?_, ?_⟩
  · intro h
    simp [h] at hlength
  · intro h
    simp [h] at hlength
  · intro h
    simp [h] at hlength
  · rw [bytes_moduleFile, Utf8.encode_append, List.mem_append, List.mem_append]
    rintro ((h | h) | h)
    · rcases hmark with rfl | rfl
      · exact absurd h (by decide)
      · exact absurd h (by decide)
    · exact hname h
    · exact absurd h (by decide)

namespace FileSystem

variable {fs : FileSystem} {directory : Path} {name : String}

theorem isDirectory_of_isFile {p : Path} (h : fs.isFile p = true) : fs.isDirectory p = false := by
  rw [isFile] at h
  rw [isDirectory]
  cases hlook : fs.look? p with
  | none => rfl
  | some n => cases n <;> simp_all

theorem find_of_isFile {p : Path} (h : fs.isFile p = true) :
    ∃ found, fs.find .use p = .ok found := by
  rw [isFile, look?] at h
  cases hfind : fs.find .use p with
  | error e => simp [hfind, Except.toOption] at h
  | ok found => exact ⟨found, rfl⟩

/-- A file of a module is passed over only if its name is hidden, or is a link after a mark. -/
theorem PassesOver.of_isFile {mark : String}
    (h : fs.PassesOver directory (moduleFile mark name).bytes)
    (hfile : fs.isFile (directory.join (moduleFile mark name)) = true) :
    (mark.toList ++ name.toList ++ ".py".toList).head? = some '.' ∨
      (mark.toList ++ name.toList ++ ".py".toList).head? = some '_' ∧
        fs.isLink (directory.join (moduleFile mark name)) = true := by
  have htext := text?_moduleFile mark name
  cases h with
  | notText h => exact absurd (h.symm.trans htext) (by simp)
  | directory h => exact absurd (h.symm.trans (isDirectory_of_isFile hfile)) (by decide)
  | hidden h hhidden =>
    obtain rfl := Option.some.inj (h.symm.trans htext)
    exact .inl hhidden
  | otherName h hmark hlink =>
    obtain rfl := Option.some.inj (h.symm.trans htext)
    exact .inr ⟨hmark, hlink⟩
  | foreign h hsuffix hends =>
    obtain rfl := Option.some.inj (h.symm.trans htext)
    exact absurd (hends.symm.trans (endsWith_py_eq_false _ _ hsuffix)) (by decide)
  | housekeeping h hmem =>
    obtain rfl := Option.some.inj (h.symm.trans htext)
    exact absurd hmem (append_py_notMem_housekeepingFiles _)

/-- A file of a module under its own name is passed over only if it is hidden. -/
theorem head?_of_passesOver (hname : IsModuleName name)
    (hfile : fs.isFile (directory.join (moduleFile "" name)) = true)
    (h : fs.PassesOver directory (moduleFile "" name).bytes) : name.toList.head? = some '.' := by
  obtain ⟨c, cs, hcons, hc⟩ := hname.exists_cons
  rcases h.of_isFile hfile with hhidden | ⟨hmark, _⟩
  · simpa [hcons] using hhidden
  · exact absurd hmark (by simpa [hcons] using hc)

/-- A file of a module under its name as deprecated is passed over only if it is a link. -/
theorem isLink_of_passesOver
    (hfile : fs.isFile (directory.join (moduleFile "_" name)) = true)
    (h : fs.PassesOver directory (moduleFile "_" name).bytes) :
    fs.isLink (directory.join (moduleFile "_" name)) = true := by
  rcases h.of_isFile hfile with hhidden | ⟨_, hlink⟩
  · exact absurd hhidden (by simp)
  · exact hlink

/-! ## Resolution -/

/-- Some directory has the file of a module after a mark. -/
theorem find?_moduleFile_eq_some {mark : String} {paths : List Path} {p : Path}
    (h : (paths.map fun directory => directory.join (moduleFile mark name)).find? fs.isFile =
      some p) : ∃ directory ∈ paths, p = directory.join (moduleFile mark name) ∧
        fs.isFile p = true := by
  obtain ⟨directory, hdirectory, heq⟩ := List.mem_map.1 (List.mem_of_find?_eq_some h)
  exact ⟨directory, hdirectory, heq.symm, List.find?_some h⟩

theorem find?_moduleFile_eq_none {mark : String} {paths : List Path}
    (h : (paths.map fun directory => directory.join (moduleFile mark name)).find? fs.isFile =
      none) : ∀ directory ∈ paths, fs.isFile (directory.join (moduleFile mark name)) = false := by
  intro directory hdirectory
  simpa using List.find?_eq_none.1 h _ (List.mem_map_of_mem hdirectory)

theorem findByStem?_eq_some {p : Path} (h : fs.findByStem? name directory = some p) :
    ∃ names entry, fs.list directory = .ok names ∧ entry ∈ names ∧
      entry.isModule name = true ∧ p = directory.child entry := by
  rw [findByStem?] at h
  split at h
  · simp at h
  · next names hlist =>
    obtain ⟨entry, hhead, heq⟩ := Option.map_eq_some_iff.1 h
    have hmem := List.mem_mergeSort.1 (List.mem_of_head? hhead)
    obtain ⟨hentry, hmodule⟩ := List.mem_filter.1 hmem
    exact ⟨names, entry, hlist, hentry, hmodule, heq.symm⟩

/-- A module is found as a file under its own name, or as a file under its name as deprecated, or
else, if no directory has such files, as any entry with its stem. -/
theorem resolveModule_eq_some {paths : List Path} {p : Path}
    (h : fs.resolveModule name paths = some p) :
    (∃ directory ∈ paths, p = directory.join (moduleFile "" name) ∧ fs.isFile p = true) ∨
      (∃ directory ∈ paths, p = directory.join (moduleFile "_" name) ∧ fs.isFile p = true) ∨
      (∀ directory ∈ paths, fs.isFile (directory.join (moduleFile "" name)) = false ∧
        fs.isFile (directory.join (moduleFile "_" name)) = false) ∧
        ∃ directory ∈ paths, fs.findByStem? name directory = some p := by
  rw [resolveModule] at h
  dsimp only at h
  cases hown : (paths.map fun directory => directory.join (moduleFile "" name)).find? fs.isFile with
  | some q =>
    rw [hown] at h
    obtain rfl : q = p := by simpa using h
    exact .inl (find?_moduleFile_eq_some hown)
  | none =>
    cases hmarked :
        (paths.map fun directory => directory.join (moduleFile "_" name)).find? fs.isFile with
    | some q =>
      rw [hown, hmarked] at h
      obtain rfl : q = p := by simpa using h
      exact .inr (.inl (find?_moduleFile_eq_some hmarked))
    | none =>
      rw [hown, hmarked] at h
      obtain ⟨directory, hdirectory, hstem⟩ := List.exists_of_findSome?_eq_some
        (show paths.findSome? (fs.findByStem? name) = some p by simpa using h)
      refine .inr (.inr ⟨fun other hother => ?_, directory, hdirectory, hstem⟩)
      exact ⟨find?_moduleFile_eq_none hown other hother,
        find?_moduleFile_eq_none hmarked other hother⟩

/-- The ways in which resolution finds an entry that the rules for candidates pass over. -/
inductive FindsOther (fs : FileSystem) (paths : List Path) (name : String) (directory : Path)
    (entry : FileName) : Prop where
  | hidden (hentry : entry = (moduleFile "" name).bytes)
    (hfile : fs.isFile (directory.child entry) = true) (hname : name.toList.head? = some '.')
  | otherName (hentry : entry = (moduleFile "_" name).bytes)
    (hfile : fs.isFile (directory.child entry) = true)
    (hlink : fs.isLink (directory.child entry) = true)
  | stem (hnone : ∀ other ∈ paths, fs.isFile (other.join (moduleFile "" name)) = false ∧
      fs.isFile (other.join (moduleFile "_" name)) = false)
    (hover : fs.PassesOver directory entry)

section

variable {roots lookups : List Path} {p : Path}

/-- A file of a module is one of the entries that its directory lists. -/
theorem exists_list_of_isFile {mark : String} (hname : slash ∉ FileName.ofString name)
    (hmark : mark = "" ∨ mark = "_") (hdirectory : directory.bytes ≠ [])
    (hfile : fs.isFile (directory.join (moduleFile mark name)) = true) :
    ∃ names, fs.list directory = .ok names ∧ (moduleFile mark name).bytes ∈ names := by
  obtain ⟨found, hfind⟩ := find_of_isFile hfile
  exact mem_list_of_find_child hdirectory (isPlain_moduleFile hname hmark) hfind

/-- What is found for a module name is listed in a searched directory and has the stem of the
module. The rules for candidates accept it as this module, or it is found in one of the other
ways. -/
theorem exists_entry_of_resolveModule (hname : IsModuleName name)
    (h : fs.resolveModule name (fs.searchDirectories roots) = some p) :
    ∃ directory ∈ fs.searchDirectories roots, ∃ names entry, fs.list directory = .ok names ∧
      entry ∈ names ∧ p = directory.child entry ∧ entry.isModule name = true ∧
      (fs.candidate? directory entry = some name ∨ fs.candidate? directory entry = none ∧
        fs.FindsOther (fs.searchDirectories roots) name directory entry) := by
  -- in all three ways the entry is listed and has the stem, so that the rules decide about it
  rcases resolveModule_eq_some h with ⟨directory, hdirectory, rfl, hfile⟩ |
    ⟨directory, hdirectory, rfl, hfile⟩ | ⟨hnone, directory, hdirectory, hstem⟩
  · have hne := bytes_ne_nil_of_mem_searchDirectories hdirectory
    obtain ⟨names, hlist, hmem⟩ := exists_list_of_isFile hname.notMem (.inl rfl) hne hfile
    have hmodule := isModule_moduleFile hname (.inl rfl)
    refine ⟨directory, hdirectory, names, _, hlist, hmem, rfl, hmodule, ?_⟩
    refine (candidate?_of_isModule hname hmodule).imp_right fun hover => ?_
    exact ⟨hover.candidate?_eq_none, .hidden rfl hfile (head?_of_passesOver hname hfile hover)⟩
  · have hne := bytes_ne_nil_of_mem_searchDirectories hdirectory
    obtain ⟨names, hlist, hmem⟩ := exists_list_of_isFile hname.notMem (.inr rfl) hne hfile
    have hmodule := isModule_moduleFile hname (.inr rfl)
    refine ⟨directory, hdirectory, names, _, hlist, hmem, rfl, hmodule, ?_⟩
    refine (candidate?_of_isModule hname hmodule).imp_right fun hover => ?_
    exact ⟨hover.candidate?_eq_none, .otherName rfl hfile (isLink_of_passesOver hfile hover)⟩
  · obtain ⟨names, entry, hlist, hmem, hmodule, rfl⟩ := findByStem?_eq_some hstem
    refine ⟨directory, hdirectory, names, entry, hlist, hmem, rfl, hmodule, ?_⟩
    refine (candidate?_of_isModule hname hmodule).imp_right fun hover => ?_
    exact ⟨hover.candidate?_eq_none, .stem hnone hover⟩

/-- What is found for a name of the catalog is an entry of a searched directory that the rules for
candidates accept as this module, or one that they pass over and that is found in one of the other
ways. Documentation under the name is that of the path found, which is then no directory. -/
theorem resolveModule_mem_list (hfs : fs.HasPlainNames)
    (hname : name ∈ (fs.ecosystem roots lookups).catalog (fs.searchDirectories roots))
    (h : fs.resolveModule name (fs.searchDirectories roots) = some p) :
    (∃ directory ∈ fs.searchDirectories roots, ∃ names entry, fs.list directory = .ok names ∧
      entry ∈ names ∧ p = directory.child entry ∧ entry.isModule name = true ∧
      (fs.candidate? directory entry = some name ∨ fs.candidate? directory entry = none ∧
        fs.FindsOther (fs.searchDirectories roots) name directory entry)) ∧
    ∀ exclude e, ((fs.sources roots lookups).extractor (fs.searchDirectories roots) exclude).extract
        name = .extracted e →
      fs.isDirectory p = false ∧ p.isOtherLanguage = false ∧
        ∃ d, fs.documentation p = .ok d ∧ e = .ofFields name d.fields := by
  refine ⟨exists_entry_of_resolveModule (isModuleName_of_mem_catalog hfs hname) h, ?_⟩
  intro exclude e hextract
  obtain ⟨_, d, ⟨path, hpath, hdirectory, hlanguage, hd⟩, he⟩ := extractor_extract_iff.1 hextract
  obtain rfl : path = p := Option.some.inj (hpath.symm.trans h)
  exact ⟨hdirectory, hlanguage, d, hd, he⟩

end

/-! ## Directories of modules -/

/-- A tree in which a directory of modules holds some files with their texts. -/
def ofModuleTexts (files : List (String × String)) : FileSystem where
  top := .directory [(FileName.ofString "modules", .directory (files.map fun file =>
    (FileName.ofString file.1, .file (Utf8.encode file.2.toList))))]
  working := []

/-- Such a tree with empty files. -/
def ofModuleFiles (names : List String) : FileSystem :=
  ofModuleTexts (names.map fun name => (name, ""))

theorem list_ofModuleTexts (files : List (String × String)) :
    (ofModuleTexts files).list (Path.ofString "modules") =
      .ok (files.map fun file => FileName.ofString file.1) := by
  have hlist : (ofModuleTexts files).list (Path.ofString "modules") =
      .ok ((files.map fun file =>
        (FileName.ofString file.1, Node.file (Utf8.encode file.2.toList))).map (·.1)) := rfl
  rw [hlist, List.map_map]
  rfl

theorem list_ofModuleFiles (names : List String) :
    (ofModuleFiles names).list (Path.ofString "modules") = .ok (names.map FileName.ofString) := by
  rw [ofModuleFiles, list_ofModuleTexts, List.map_map]
  rfl

theorem branchesOf_files (files : List (String × String)) :
    Node.branchesOf (files.map fun file =>
      (FileName.ofString file.1, Node.file (Utf8.encode file.2.toList))) = [] := by
  induction files with
  | nil => rfl
  | cons file rest ih => exact ih

theorem searchDirectories_ofModuleTexts (files : List (String × String)) :
    (ofModuleTexts files).searchDirectories [Path.ofString "modules"] =
      [Path.ofString "modules"] := by
  have hlook : (ofModuleTexts files).look? (Path.ofString "modules") =
      some (.directory (files.map fun file =>
        (FileName.ofString file.1, .file (Utf8.encode file.2.toList)))) := rfl
  have hplain : (ofModuleTexts files).isPlainDirectory (Path.ofString "modules") = true := rfl
  have hbranches : (Node.directory (files.map fun file =>
      (FileName.ofString file.1, Node.file (Utf8.encode file.2.toList)))).branches = [] := by
    rw [Node.branches, branchesOf_files, sortBranches, List.mergeSort_nil]
    rfl
  simp [searchDirectories, directoriesOf, hlook, hplain, hbranches, dropSame]

theorem searchDirectories_ofModuleFiles (names : List String) :
    (ofModuleFiles names).searchDirectories [Path.ofString "modules"] =
      [Path.ofString "modules"] :=
  searchDirectories_ofModuleTexts _

/-- A name is in the catalog of such a tree if some file is a candidate for it. -/
theorem mem_catalog_ofModuleFiles {names : List String} {file : String} (hfile : file ∈ names)
    (h : (ofModuleFiles names).candidate? (Path.ofString "modules") (FileName.ofString file) =
      some name) :
    name ∈ ((ofModuleFiles names).ecosystem [Path.ofString "modules"] []).catalog
      ((ofModuleFiles names).searchDirectories [Path.ofString "modules"]) := by
  rw [searchDirectories_ofModuleFiles]
  exact mem_catalog.2 ⟨_, List.mem_singleton_self _, _, _, list_ofModuleFiles names,
    List.mem_map_of_mem hfile, h⟩

/-- What is in a searched directory of such a tree is one of the files. -/
theorem exists_of_mem_list_ofModuleFiles {names : List String} {directory : Path}
    {listed : List FileName} {entry : FileName}
    (hdirectory : directory ∈ (ofModuleFiles names).searchDirectories [Path.ofString "modules"])
    (hlist : (ofModuleFiles names).list directory = .ok listed) (hentry : entry ∈ listed) :
    directory = Path.ofString "modules" ∧ ∃ file ∈ names, FileName.ofString file = entry := by
  rw [searchDirectories_ofModuleFiles] at hdirectory
  obtain rfl := List.mem_singleton.1 hdirectory
  obtain rfl := Except.ok.inj (hlist.symm.trans (list_ofModuleFiles names))
  exact ⟨rfl, List.mem_map.1 hentry⟩

/-- A tree with the file of one module. -/
def pingTree : FileSystem :=
  ofModuleFiles ["ping.py"]

/-- A tree with a file of a module that is not a `.py` file, and a backup beside it. -/
def backupTree : FileSystem :=
  ofModuleFiles ["ping.bak", "ping.ps1"]

theorem mem_catalog_pingTree : "ping" ∈ (pingTree.ecosystem [Path.ofString "modules"] []).catalog
    (pingTree.searchDirectories [Path.ofString "modules"]) :=
  mem_catalog_ofModuleFiles (List.mem_singleton_self "ping.py") rfl

/-- The module is that of the other file. -/
theorem mem_catalog_backupTree :
    "ping" ∈ (backupTree.ecosystem [Path.ofString "modules"] []).catalog
      (backupTree.searchDirectories [Path.ofString "modules"]) := by
  have hmem : "ping.ps1" ∈ ["ping.bak", "ping.ps1"] := by simp
  exact mem_catalog_ofModuleFiles hmem rfl

theorem resolveModule_pingTree :
    pingTree.resolveModule "ping" (pingTree.searchDirectories [Path.ofString "modules"]) =
      some (Path.ofString "modules/ping.py") := by
  rw [pingTree, searchDirectories_ofModuleFiles]
  rfl

/-- The backup is the lesser one of two entries with the stem. -/
theorem resolveModule_backupTree :
    backupTree.resolveModule "ping" (backupTree.searchDirectories [Path.ofString "modules"]) =
      some (Path.ofString "modules/ping.bak") := by
  have hlist : backupTree.list (Path.ofString "modules") =
      .ok [FileName.ofString "ping.bak", FileName.ofString "ping.ps1"] := list_ofModuleFiles _
  have hsearch : backupTree.searchDirectories [Path.ofString "modules"] =
      [Path.ofString "modules"] := searchDirectories_ofModuleFiles _
  have hfilter : [FileName.ofString "ping.bak", FileName.ofString "ping.ps1"].filter
      (FileName.isModule "ping") = [FileName.ofString "ping.bak", FileName.ofString "ping.ps1"] :=
    rfl
  have hsort : FileName.sort [FileName.ofString "ping.bak", FileName.ofString "ping.ps1"] =
      [FileName.ofString "ping.bak", FileName.ofString "ping.ps1"] :=
    List.mergeSort_of_pairwise (by decide)
  have hstem : backupTree.findByStem? "ping" (Path.ofString "modules") =
      some (Path.ofString "modules/ping.bak") := by
    rw [findByStem?, hlist]
    dsimp only
    rw [hfilter, hsort]
    rfl
  have hown : backupTree.isFile ((Path.ofString "modules").join (moduleFile "" "ping")) = false :=
    rfl
  have hmarked : backupTree.isFile ((Path.ofString "modules").join (moduleFile "_" "ping")) =
      false := rfl
  rw [hsearch]
  simp [resolveModule, hown, hmarked, hstem]

/-- The backup is passed over. -/
theorem candidate?_backupTree {directory : Path} {listed : List FileName} {entry : FileName}
    (hdirectory : directory ∈ backupTree.searchDirectories [Path.ofString "modules"])
    (hlist : backupTree.list directory = .ok listed) (hentry : entry ∈ listed)
    (hchild : Path.ofString "modules/ping.bak" = directory.child entry) :
    backupTree.candidate? directory entry = none := by
  obtain ⟨rfl, file, hfile, rfl⟩ := exists_of_mem_list_ofModuleFiles hdirectory hlist hentry
  have hcases : file = "ping.bak" ∨ file = "ping.ps1" := by simpa using hfile
  rcases hcases with rfl | rfl
  · rfl
  · exact absurd hchild (by decide)

/-- The module of the one file is found as an entry that holds it. Of the two files the backup is
found, in the last one of the other ways. -/
theorem resolveModule_mem_list_ping :
    (pingTree.HasPlainNames ∧
      "ping" ∈ (pingTree.ecosystem [Path.ofString "modules"] []).catalog
        (pingTree.searchDirectories [Path.ofString "modules"]) ∧
      pingTree.resolveModule "ping" (pingTree.searchDirectories [Path.ofString "modules"]) =
        some (Path.ofString "modules/ping.py") ∧
      ∃ directory ∈ pingTree.searchDirectories [Path.ofString "modules"], ∃ names entry,
        pingTree.list directory = .ok names ∧ entry ∈ names ∧
        Path.ofString "modules/ping.py" = directory.child entry ∧
        pingTree.candidate? directory entry = some "ping") ∧
    backupTree.HasPlainNames ∧
      "ping" ∈ (backupTree.ecosystem [Path.ofString "modules"] []).catalog
        (backupTree.searchDirectories [Path.ofString "modules"]) ∧
      backupTree.resolveModule "ping" (backupTree.searchDirectories [Path.ofString "modules"]) =
        some (Path.ofString "modules/ping.bak") ∧
      ∃ directory ∈ backupTree.searchDirectories [Path.ofString "modules"], ∃ names entry,
        backupTree.list directory = .ok names ∧ entry ∈ names ∧
        Path.ofString "modules/ping.bak" = directory.child entry ∧
        backupTree.candidate? directory entry = none ∧
        backupTree.FindsOther (backupTree.searchDirectories [Path.ofString "modules"]) "ping"
          directory entry := by
  have hping : pingTree.HasPlainNames := rfl
  have hbackup : backupTree.HasPlainNames := rfl
  refine ⟨⟨hping, mem_catalog_pingTree, resolveModule_pingTree, ?_⟩, hbackup,
    mem_catalog_backupTree, resolveModule_backupTree, ?_⟩
  · obtain ⟨⟨directory, hdirectory, names, entry, hnames, hmem, hp, -, hcandidate⟩, -⟩ :=
      resolveModule_mem_list hping mem_catalog_pingTree resolveModule_pingTree
    refine ⟨directory, hdirectory, names, entry, hnames, hmem, hp, ?_⟩
    rcases hcandidate with hcandidate | ⟨hnone, -⟩
    · exact hcandidate
    · -- the only entry is not passed over
      obtain ⟨rfl, file, hfile, rfl⟩ := exists_of_mem_list_ofModuleFiles hdirectory hnames hmem
      obtain rfl := List.mem_singleton.1 hfile
      exact absurd hnone (by decide)
  · obtain ⟨⟨directory, hdirectory, names, entry, hnames, hmem, hp, -, hcandidate⟩, -⟩ :=
      resolveModule_mem_list hbackup mem_catalog_backupTree resolveModule_backupTree
    have hover := candidate?_backupTree hdirectory hnames hmem hp
    refine ⟨directory, hdirectory, names, entry, hnames, hmem, hp, hover, ?_⟩
    rcases hcandidate with hcandidate | ⟨-, hother⟩
    · exact absurd (hover.symm.trans hcandidate) (by simp)
    · exact hother

/-- The module is found as the backup, which no directory has as a module. -/
theorem resolveModule_eq_backup :
    "ping" ∈ (backupTree.ecosystem [Path.ofString "modules"] []).catalog
      (backupTree.searchDirectories [Path.ofString "modules"]) ∧
    backupTree.resolveModule "ping" (backupTree.searchDirectories [Path.ofString "modules"]) =
      some (Path.ofString "modules/ping.bak") ∧
    ∀ directory ∈ backupTree.searchDirectories [Path.ofString "modules"], ∀ names entry,
      backupTree.list directory = .ok names → entry ∈ names →
      Path.ofString "modules/ping.bak" = directory.child entry →
      backupTree.candidate? directory entry = none :=
  ⟨mem_catalog_backupTree, resolveModule_backupTree, fun _ hdirectory _ _ hlist hentry hchild =>
    candidate?_backupTree hdirectory hlist hentry hchild⟩

end FileSystem

end PluginDataset
