import PluginDataset.Proofs.Ecosystem.Branches
import PluginDataset.Proofs.Ecosystem.Resolution

/-!
# The order of listings does not show

Every answer about installed plugins that comes from a listing is sorted before anything is chosen
from it: the sub-directories of a root, the candidates in a directory, the entries with a stem, and
the lookup plugins. Permuted listings therefore give the same answers, and the same dataset.

## Main results

* `FileSystem.Reordered.searchDirectories_eq`, `FileSystem.Reordered.moduleNames_eq`,
  `FileSystem.Reordered.resolveModule_eq`, `FileSystem.Reordered.lookupPlugins_eq`: the answers.
* `FileSystem.Reordered.sources_eq`: all that a build depends on.
* `FileSystem.collect_of_reordered`: the collected dataset.
-/

namespace PluginDataset

namespace FileSystem

variable {fs fs' : FileSystem}

namespace Reordered

variable (h : fs.Reordered fs') (hfs : fs.HasDistinctNames)

include h hfs

/-! ## Searched directories -/

theorem directoriesOf_eq (root : Path) : fs'.directoriesOf root = fs.directoriesOf root := by
  have hentries := h.top.sameEntries hfs
  rw [directoriesOf, directoriesOf, h.isPlainDirectory_eq hfs, look?, look?]
  cases h.findsSame hfs .use root with
  | error e hfind hfind' => rw [hfind, hfind']
  | @ok place n n' hfind hfind' hat hat' hsame =>
    rw [hfind, hfind']
    have hdistinct : n.HasDistinctNames := hfs.of_at? hat
    have hdistinct' : n'.HasDistinctNames := (hentries.hasDistinctNames hfs).of_at? hat'
    -- the places inside the two directories are those of the trees around them
    have hkind : ∀ inner, n'.kind? inner = n.kind? inner := by
      intro inner
      have hplace := hentries.kind?_eq (place ++ inner)
      rw [Node.kind?, Node.kind?, Node.at?_append, Node.at?_append,
        show fs.top.at? place = _ from hat, show fs'.top.at? place = _ from hat'] at hplace
      exact hplace
    cases hsame with
    | file _ => rfl
    | link _ => rfl
    | @directory entries entries' _ =>
      have hbranches := Node.branches_eq_of_kind? hdistinct hdistinct' hkind
      simp only [Except.toOption, Option.map_some, hbranches]

theorem searchDirectories_eq (roots : List Path) :
    fs'.searchDirectories roots = fs.searchDirectories roots := by
  rw [searchDirectories, searchDirectories, funext (h.directoriesOf_eq hfs)]

/-! ## Modules -/

theorem candidate?_eq (directory : Path) : fs'.candidate? directory = fs.candidate? directory := by
  funext entry
  simp only [candidate?, h.isDirectory_eq hfs, h.isLink_eq hfs]

theorem moduleNames_eq (directory : Path) :
    fs'.moduleNames directory = fs.moduleNames directory := by
  rw [moduleNames, moduleNames, h.candidate?_eq hfs]
  rcases h.list_perm hfs directory with ⟨e, hlist, hlist'⟩ | ⟨names, names', hlist, hlist', hperm⟩
  · rw [hlist, hlist']
  · rw [hlist, hlist']
    exact mergeSort_eq_of_perm (hperm.filterMap _)

theorem findByStem?_eq (name : String) (directory : Path) :
    fs'.findByStem? name directory = fs.findByStem? name directory := by
  rw [findByStem?, findByStem?]
  rcases h.list_perm hfs directory with ⟨e, hlist, hlist'⟩ | ⟨names, names', hlist, hlist', hperm⟩
  · rw [hlist, hlist']
  · rw [hlist, hlist']
    have hsort : FileName.sort (names'.filter (FileName.isModule name)) =
        FileName.sort (names.filter (FileName.isModule name)) :=
      mergeSort_eq_of_perm (hperm.filter _)
    simp only [hsort]

theorem resolveModule_eq (name : String) (paths : List Path) :
    fs'.resolveModule name paths = fs.resolveModule name paths := by
  rw [resolveModule, resolveModule, funext (h.isFile_eq hfs),
    funext (h.findByStem?_eq hfs name)]

/-! ## Lookup plugins -/

theorem lookupsIn_eq (directory : Path) : fs'.lookupsIn directory = fs.lookupsIn directory := by
  rw [lookupsIn, lookupsIn, funext (h.isFile_eq hfs)]
  rcases h.list_perm hfs directory with ⟨e, hlist, hlist'⟩ | ⟨names, names', hlist, hlist', hperm⟩
  · rw [hlist, hlist']
  · rw [hlist, hlist']
    dsimp only
    rw [FileName.sort, FileName.sort, mergeSort_eq_of_perm (hperm.filter _)]

theorem lookupPlugins_eq (roots : List Path) : fs'.lookupPlugins roots = fs.lookupPlugins roots := by
  rw [lookupPlugins, lookupPlugins, h.searchDirectories_eq hfs, funext (h.lookupsIn_eq hfs)]

/-! ## Sources -/

theorem ecosystem_eq (moduleRoots lookupRoots : List Path) :
    fs'.ecosystem moduleRoots lookupRoots = fs.ecosystem moduleRoots lookupRoots := by
  rw [ecosystem, ecosystem, h.searchDirectories_eq hfs, h.lookupPlugins_eq hfs,
    funext (h.moduleNames_eq hfs), funext fun name => funext (h.resolveModule_eq hfs name)]

theorem documentation_eq (p : Path) : fs'.documentation p = fs.documentation p := by
  rw [documentation, documentation, h.readText_eq hfs]

/-- All that a build depends on is the same after listings have been permuted. -/
theorem sources_eq (moduleRoots lookupRoots : List Path) :
    fs'.sources moduleRoots lookupRoots = fs.sources moduleRoots lookupRoots := by
  rw [sources, sources, h.ecosystem_eq hfs, funext (h.documentation_eq hfs),
    funext (h.isDirectory_eq hfs)]

end Reordered

/-- Permuting the listings of any directories changes no answer about installed plugins: neither the
searched directories, nor the names of modules, nor their files, nor the lookup plugins. What is
collected is therefore the same dataset, with the same modules left out. -/
theorem collect_of_reordered (h : fs.Reordered fs') (hfs : fs.HasDistinctNames)
    (moduleRoots lookupRoots : List Path) (exclude : List String) :
    (fs'.ecosystem moduleRoots lookupRoots).modulePaths =
        (fs.ecosystem moduleRoots lookupRoots).modulePaths ∧
      (∀ directory, (fs'.ecosystem moduleRoots lookupRoots).moduleNames directory =
        (fs.ecosystem moduleRoots lookupRoots).moduleNames directory) ∧
      (∀ name paths, (fs'.ecosystem moduleRoots lookupRoots).resolveModule name paths =
        (fs.ecosystem moduleRoots lookupRoots).resolveModule name paths) ∧
      (fs'.ecosystem moduleRoots lookupRoots).lookupPlugins =
        (fs.ecosystem moduleRoots lookupRoots).lookupPlugins ∧
      collect (fs'.sources moduleRoots lookupRoots) exclude =
        collect (fs.sources moduleRoots lookupRoots) exclude := by
  have hecosystem := h.ecosystem_eq hfs moduleRoots lookupRoots
  refine ⟨congrArg _ hecosystem, fun directory => ?_, fun name paths => ?_,
    congrArg _ hecosystem, ?_⟩
  · rw [hecosystem]
  · rw [hecosystem]
  · rw [h.sources_eq hfs]

/-! ## A directory of modules, listed in two orders -/

theorem reordered_ofModuleFiles {names names' : List String} (h : names.Perm names') :
    (ofModuleFiles names).Reordered (ofModuleFiles names') where
  working := rfl
  top := by
    have hfiles := (h.map fun name => (name, "")).map fun file =>
      (FileName.ofString file.1, Node.file (Utf8.encode file.2.toList))
    exact @Node.Reordered.inside [] [] (FileName.ofString "modules") _ _ (.listing hfiles)

/-- Of two entries with the stem of a module the same one is found in either order. -/
theorem collect_of_reordered_backup :
    (ofModuleFiles ["ping.bak", "ping.ps1"]).Reordered (ofModuleFiles ["ping.ps1", "ping.bak"]) ∧
    (ofModuleFiles ["ping.bak", "ping.ps1"]).HasDistinctNames ∧
    (ofModuleFiles ["ping.ps1", "ping.bak"]).resolveModule "ping" [Path.ofString "modules"] =
      (ofModuleFiles ["ping.bak", "ping.ps1"]).resolveModule "ping" [Path.ofString "modules"] ∧
    collect ((ofModuleFiles ["ping.ps1", "ping.bak"]).sources [Path.ofString "modules"] []) [] =
      collect ((ofModuleFiles ["ping.bak", "ping.ps1"]).sources [Path.ofString "modules"] [])
        [] := by
  have hreordered := reordered_ofModuleFiles (List.Perm.swap "ping.ps1" "ping.bak" [])
  have hdistinct : (ofModuleFiles ["ping.bak", "ping.ps1"]).HasDistinctNames :=
    (wellNamed_of_isWellNamed (by decide)).distinct
  obtain ⟨_, _, hresolve, _, hcollect⟩ :=
    collect_of_reordered hreordered hdistinct [Path.ofString "modules"] [] []
  exact ⟨hreordered, hdistinct, hresolve "ping" [Path.ofString "modules"], hcollect⟩

end FileSystem

end PluginDataset
