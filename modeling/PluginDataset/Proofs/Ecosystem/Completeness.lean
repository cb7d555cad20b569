import PluginDataset.Proofs.Ecosystem.Resolution

/-!
# Catalogued modules are found

The catalog makes the name of a module from that of its file, and resolution goes back from the name
to a file. The entry that a name of the catalog comes from has the stem of the module, so that the
last of the three searches finds it if the first two find nothing.

## Main results

* `FileSystem.isModule_of_candidate?`: a candidate has the stem of the module that it holds.
* `FileSystem.exists_resolveModule`: resolution finds a module if some directory lists its stem.
* `FileSystem.resolveModule_of_mem_catalog`: the names of the catalog are found.
-/

namespace PluginDataset

/-- A stem that does not start with two underscores is a module name, perhaps with a mark in
front. -/
theorem eq_or_eq_underscore_cons {stem : List Char} (h : "__".toList.isPrefixOf stem = false)
    (hne : stem.dropWhile (· == '_') ≠ []) : stem = stem.dropWhile (· == '_') ∨
      stem = '_' :: stem.dropWhile (· == '_') := by
  match stem with
  | [] => exact absurd rfl hne
  | [c] =>
    by_cases hc : c = '_'
    · exact absurd (by simp [hc]) hne
    · exact .inl (by simp [hc])
  | c :: d :: rest =>
    by_cases hc : c = '_'
    · subst hc
      have hd : d ≠ '_' := by
        rintro rfl
        simp at h
      exact .inr (by simp [hd])
    · exact .inl (by simp [hc])

/-- A file that has a module name by its form has the stem of this module. -/
theorem isModule_of_moduleName? {text name : List Char} (h : moduleName? text = some name) :
    FileName.isModule (String.ofList name) (Utf8.encode text) = true := by
  obtain ⟨stem, hstem, rfl, hne⟩ := moduleName?_eq_some h
  have htext : "__".toList.isPrefixOf text = false := by
    rw [moduleName?] at h
    split at h
    · simp at h
    · next hform =>
      simp only [Bool.or_eq_true, not_or, Bool.not_eq_true] at hform
      exact hform.1.2
  have hstarts : stem <+: text :=
    Utf8.isPrefix_of_encode (hstem ▸ FileName.stem_isPrefix (Utf8.encode text))
  have hmarks : "__".toList.isPrefixOf stem = false := by
    refine Bool.eq_false_iff.2 fun hstart => ?_
    have hlong := (List.isPrefixOf_iff_prefix.1 hstart).trans hstarts
    exact absurd (List.isPrefixOf_iff_prefix.2 hlong) (by rw [htext]; decide)
  rw [FileName.isModule_iff, ← hstem, String.toList_ofList]
  rcases eq_or_eq_underscore_cons hmarks hne with heq | heq
  · exact .inl (congrArg Utf8.encode heq)
  · exact .inr (congrArg Utf8.encode heq)

namespace FileSystem

variable {fs : FileSystem} {directory : Path} {name : String}

/-- A candidate has the stem of the module that it holds. -/
theorem isModule_of_candidate? {entry : FileName} (h : fs.candidate? directory entry = some name) :
    entry.isModule name = true := by
  rw [candidate?] at h
  split at h
  · simp at h
  · next text htext =>
    dsimp only at h
    split at h
    · simp at h
    · obtain ⟨chars, hchars, rfl⟩ := Option.map_eq_some_iff.1 h
      rw [← Utf8.decode?_eq_some_iff.1 htext]
      exact isModule_of_moduleName? hchars

/-- The least entry with the stem of a module exists where any such entry is listed. -/
theorem exists_findByStem? {names : List FileName} {entry : FileName}
    (hlist : fs.list directory = .ok names) (hentry : entry ∈ names)
    (hmodule : entry.isModule name = true) : ∃ p, fs.findByStem? name directory = some p := by
  have hmem : entry ∈ FileName.sort (names.filter (FileName.isModule name)) :=
    List.mem_mergeSort.2 (List.mem_filter.2 ⟨hentry, hmodule⟩)
  obtain ⟨least, rest, hsort⟩ := List.exists_cons_of_ne_nil (List.ne_nil_of_mem hmem)
  refine ⟨directory.child least, ?_⟩
  rw [findByStem?, hlist]
  dsimp only
  rw [hsort]
  rfl

/-- Resolution finds a module if one of the directories lists an entry with its stem. -/
theorem exists_resolveModule {paths : List Path} {names : List FileName} {entry : FileName}
    (hdirectory : directory ∈ paths) (hlist : fs.list directory = .ok names)
    (hentry : entry ∈ names) (hmodule : entry.isModule name = true) :
    ∃ p, fs.resolveModule name paths = some p := by
  obtain ⟨p, hp⟩ := exists_findByStem? hlist hentry hmodule
  have hsome : (paths.findSome? (fs.findByStem? name)).isSome :=
    List.findSome?_isSome_iff.2 ⟨directory, hdirectory, Option.isSome_of_eq_some hp⟩
  refine Option.isSome_iff_exists.1 ?_
  rw [resolveModule]
  simp [hsome]

/-- A name is unresolved only if resolution finds nothing for it. -/
theorem resolveModule_of_extract_unresolved {x : Extractor} {m : SkippedModule}
    (h : x.extract name = .skipped m) (hreason : m.reason = .unresolved) :
    x.ecosystem.resolveModule name x.paths = none := by
  rw [Extractor.extract] at h
  dsimp only at h
  split at h
  · obtain rfl := Outcome.skipped.inj h
    simp at hreason
  · split at h
    · assumption
    · split at h
      · obtain rfl := Outcome.skipped.inj h
        simp at hreason
      · split at h
        · obtain rfl := Outcome.skipped.inj h
          simp at hreason
        · split at h
          · simp at h
          · obtain rfl := Outcome.skipped.inj h
            simp at hreason

section

variable {roots lookups : List Path}

/-- Every name of the catalog has the form of a module name and is found: as an entry of a searched
directory whose stem is the name, perhaps with an underscore in front. Extraction therefore never
gives up a name of the catalog as unresolved. -/
theorem resolveModule_of_mem_catalog (hfs : fs.HasPlainNames)
    (hname : name ∈ (fs.ecosystem roots lookups).catalog (fs.searchDirectories roots)) :
    name ≠ "" ∧ name.toList.head? ≠ some '_' ∧
      (∃ p, fs.resolveModule name (fs.searchDirectories roots) = some p ∧
        ∃ directory ∈ fs.searchDirectories roots, ∃ names entry, fs.list directory = .ok names ∧
          entry ∈ names ∧ p = directory.child entry ∧
          (entry.stem = FileName.ofString name ∨ entry.stem = FileName.ofString ("_" ++ name))) ∧
      ∀ exclude m, ((fs.sources roots lookups).extractor (fs.searchDirectories roots)
        exclude).extract name = .skipped m → m.reason ≠ .unresolved := by
  have hform := isModuleName_of_mem_catalog hfs hname
  obtain ⟨directory, hdirectory, names, entry, hlist, hentry, hcandidate⟩ := mem_catalog.1 hname
  obtain ⟨p, hp⟩ := exists_resolveModule hdirectory hlist hentry (isModule_of_candidate? hcandidate)
  have hne : name ≠ "" := by
    rintro rfl
    exact hform.ne_nil rfl
  refine ⟨hne, hform.head_ne, ⟨p, hp, ?_⟩, fun exclude m hextract hreason => ?_⟩
  · obtain ⟨found, hfound, listed, foundEntry, hlisted, hmem, hpath, hmodule, _⟩ :=
      exists_entry_of_resolveModule hform hp
    refine ⟨found, hfound, listed, foundEntry, hlisted, hmem, hpath, ?_⟩
    simpa [FileName.ofString] using FileName.isModule_iff.1 hmodule
  · have hnone := resolveModule_of_extract_unresolved hextract hreason
    exact absurd (hp.symm.trans hnone) (by simp)

end

/-- A tree with a file whose name is marked as deprecated, has two dots, and is not a `.py` file. -/
def markedTree : FileSystem :=
  ofModuleFiles ["README.md", "_old.cloud.ps1", "_old.py"]

/-- The module of that file is found, although two searches miss it. -/
theorem resolveModule_of_mem_catalog_marked :
    markedTree.HasPlainNames ∧
    "old.cloud" ∈ (markedTree.ecosystem [Path.ofString "modules"] []).catalog
      (markedTree.searchDirectories [Path.ofString "modules"]) ∧
    ∃ p, markedTree.resolveModule "old.cloud"
        (markedTree.searchDirectories [Path.ofString "modules"]) = some p ∧
      p = Path.ofString "modules/_old.cloud.ps1" := by
  have hmem : "_old.cloud.ps1" ∈ ["README.md", "_old.cloud.ps1", "_old.py"] := by simp
  have hcatalog : "old.cloud" ∈ (markedTree.ecosystem [Path.ofString "modules"] []).catalog
      (markedTree.searchDirectories [Path.ofString "modules"]) := mem_catalog_ofModuleFiles hmem rfl
  have hplain : markedTree.HasPlainNames := rfl
  refine ⟨hplain, hcatalog, ?_⟩
  obtain ⟨_, _, ⟨p, hp, directory, hdirectory, names, entry, hnames, hentry, hpath, hstem⟩, _⟩ :=
    resolveModule_of_mem_catalog hplain hcatalog
  refine ⟨p, hp, ?_⟩
  obtain ⟨rfl, file, hfile, rfl⟩ := exists_of_mem_list_ofModuleFiles hdirectory hnames hentry
  -- the other entries have other stems
  have hcases : file = "README.md" ∨ file = "_old.cloud.ps1" ∨ file = "_old.py" := by
    simpa using hfile
  rcases hcases with rfl | rfl | rfl
  · exact absurd hstem (by decide)
  · exact hpath
  · exact absurd hstem (by decide)

end FileSystem

end PluginDataset
