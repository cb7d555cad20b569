import PluginDataset.Proofs.Build.ListingOrder
import PluginDataset.Proofs.Build.Success
import PluginDataset.Proofs.Ecosystem.Beside
import PluginDataset.Proofs.Files.Again

/-!
# Builds done again

A build writes into the file system that it searches. If the output is outside of all roots, what
has been written shows in none of the answers, so that a second build collects the same dataset. It
finds the directories that it needs, and writes the same bytes to the same place.

## Main results

* `collect_congr`: what a collection depends on.
* `Dataset.store_again`: storing a dataset that has been stored changes nothing.
* `Dataset.sameBeside_store`: storing a dataset changes nothing beside its path.
* `FileSystem.build_again`: a second build does the same as the first one.
-/

namespace PluginDataset

/-! ## Collecting -/

/-- A collection depends on the searched directories, the catalog, what becomes of its names, and
the lookup plugins. -/
theorem collect_congr {s s' : Sources} {exclude : List String}
    (hpaths : s'.ecosystem.modulePaths = s.ecosystem.modulePaths)
    (hcatalog : ∀ paths, s.ecosystem.modulePaths = .ok paths →
      s'.ecosystem.catalog paths = s.ecosystem.catalog paths)
    (hextract : ∀ paths, s.ecosystem.modulePaths = .ok paths →
      ∀ name ∈ s.ecosystem.catalog paths,
        (s'.extractor paths exclude).extract name = (s.extractor paths exclude).extract name)
    (hlookups : s'.ecosystem.lookupPlugins = s.ecosystem.lookupPlugins) :
    collect s' exclude = collect s exclude := by
  rw [collect, collect, hpaths, Ecosystem.lookupNames, hlookups, ← Ecosystem.lookupNames]
  cases hmodules : s.ecosystem.modulePaths with
  | error e => rfl
  | ok paths =>
    dsimp only
    rw [hcatalog paths hmodules, Extractor.extractReporting_congr (hextract paths hmodules)]

/-- A build from sources that give the same dataset ends the same if it stores the dataset alike. -/
theorem build_of_collect_eq {s s' : Sources} {exclude : List String} {output : Path}
    {fs fs' : FileSystem} {reports : List Progress} {result : BuildResult}
    (hcollect : collect s' exclude = collect s exclude)
    (hstore : ∀ (d : Dataset) stored, d.store fs output = (fs', .ok stored) →
      d.store fs' output = (fs', .ok stored))
    (h : build s exclude output fs = (fs', reports, .ok result)) :
    build s' exclude output fs' = (fs', reports, .ok result) := by
  rw [build] at h ⊢
  rw [hcollect]
  rcases hcollected : collect s exclude with ⟨before, e | c⟩
  · simp [hcollected] at h
  · rw [hcollected] at h
    dsimp only at h ⊢
    rcases hstored : c.dataset.store fs output with ⟨written, e | stored⟩
    · simp [hstored] at h
    · rw [hstored] at h
      dsimp only at h
      obtain ⟨rfl, hrest⟩ := Prod.mk.inj h
      rw [hstore _ _ hstored]
      dsimp only
      rw [hrest]

/-! ## Storing -/

namespace Dataset

variable {fs fs' : FileSystem} {path : Path} {d : Dataset} {stored : StoredDataset}

/-- The parent of a path is a directory once the parents have been created. -/
theorem isDirectory_of_createParents (h : createParents fs path = (fs', .ok ())) {parent : Path}
    (hparent : path.parent? = some parent) (hne : parent.bytes ≠ []) :
    fs'.isDirectory parent = true := by
  rw [createParents, hparent] at h
  dsimp only at h
  rw [if_neg hne] at h
  split at h
  · next prepared hcreate =>
    obtain rfl := (Prod.mk.inj h).1
    exact FileSystem.isDirectory_of_createDirectories hne hcreate
  · simp at h

/-- Parents that are there are not created. -/
theorem createParents_of_isDirectory (h : ∀ parent, path.parent? = some parent →
    parent.bytes ≠ [] → fs.isDirectory parent = true) : createParents fs path = (fs, .ok ()) := by
  rw [createParents]
  cases hparent : path.parent? with
  | none => rfl
  | some parent =>
    dsimp only
    by_cases hne : parent.bytes = []
    · rw [if_pos hne]
    · rw [if_neg hne, FileSystem.createDirectories_of_isDirectory (h parent hparent hne)]

/-- A dataset that has been stored is stored again where it is, and nothing changes. -/
theorem store_again (h : d.store fs path = (fs', .ok stored)) :
    d.store fs' path = (fs', .ok stored) := by
  obtain ⟨prepared, hparents, hwrite, rfl⟩ := write_of_store h
  have hagain : createParents fs' path = (fs', .ok ()) :=
    createParents_of_isDirectory fun parent hparent hne =>
      FileSystem.isDirectory_of_write hwrite (isDirectory_of_createParents hparents hparent hne)
  rw [store, hagain]
  dsimp only
  rw [FileSystem.write_again hwrite]

/-- Creating the parents of a path changes nothing but its place and those around it. -/
theorem sameBeside_createParents (hfs : fs.HasNoLinks) (hpath : .up ∉ path.components) :
    FileSystem.SameBeside (fs.absolute path) fs (createParents fs path).1 := by
  rw [createParents]
  split
  · next parent hparent =>
    split
    · exact .refl _ hfs
    · next hne =>
      have habove : parent.IsAbove path := .parent hparent
      have hcreate : FileSystem.SameBeside (fs.absolute path) fs (fs.createDirectories parent).1 :=
        .createDirectories hfs (habove.up_notMem hpath)
          (fs.absolute_isPrefix_of_isAbove habove hne)
      split
      · next prepared heq =>
        rw [heq] at hcreate
        exact hcreate
      · next prepared e heq =>
        rw [heq] at hcreate
        exact hcreate
  · exact .refl _ hfs

/-- Storing a dataset changes nothing but the place of its path and those around it. -/
theorem sameBeside_store (hfs : fs.HasNoLinks) (hpath : .up ∉ path.components)
    (h : d.store fs path = (fs', .ok stored)) :
    FileSystem.SameBeside (fs.absolute path) fs fs' := by
  obtain ⟨prepared, hparents, hwrite, _⟩ := write_of_store h
  have hprepared := sameBeside_createParents hfs hpath
  rw [hparents] at hprepared
  have hwritten := FileSystem.SameBeside.write hprepared.noLinks' hpath hwrite
  rw [FileSystem.absolute_eq_of_working hprepared.working] at hwritten
  exact hprepared.trans hwritten

end Dataset

/-! ## Building -/

namespace FileSystem

variable {fs fs' : FileSystem}

/-- What is collected below roots beside a change is the same as before. -/
theorem SameBeside.collect_eq {place : Place} (h : SameBeside place fs fs') (hfs : fs.WellNamed)
    {moduleRoots lookupRoots : List Path}
    (hroots : ∀ root ∈ moduleRoots ++ lookupRoots, root.bytes ≠ [] → fs.Beside place root)
    (exclude : List String) :
    collect (fs'.sources moduleRoots lookupRoots) exclude =
      collect (fs.sources moduleRoots lookupRoots) exclude := by
  obtain ⟨hmodules, hlookups⟩ := List.forall_mem_append.1 hroots
  refine collect_congr ?_ (fun paths hpaths => ?_) (fun paths hpaths name hname => ?_)
    (h.lookupPlugins_eq hfs hlookups)
  · exact congrArg Except.ok (h.searchDirectories_eq hmodules)
  · obtain rfl : fs.searchDirectories moduleRoots = paths := Except.ok.inj hpaths
    exact h.catalog_eq hfs (fun _ => searched_of_mem_searchDirectories hfs hmodules) _ _
  · obtain rfl : fs.searchDirectories moduleRoots = paths := Except.ok.inj hpaths
    exact h.extract_eq hfs lookupRoots hmodules exclude hname

/-- A build is done again on the file system that it has left. If there are no links, no path leads
upwards, and the output is neither a root nor inside one, then the second build succeeds as well. It
leaves the file system as it is, makes the same reports and has the same result, skipped modules and
sizes included. What is in the output is the dataset that both have collected. -/
theorem build_again (hfs : fs.WellNamed) (hlinks : fs.HasNoLinks) {output : Path}
    (houtput : .up ∉ output.components) {moduleRoots lookupRoots : List Path}
    (hroots : ∀ root ∈ moduleRoots ++ lookupRoots, .up ∉ root.components ∧
      (root.bytes ≠ [] → ¬fs.absolute root <+: fs.absolute output))
    {exclude : List String} {reports : List Progress} {result : BuildResult}
    (h : build (fs.sources moduleRoots lookupRoots) exclude output fs =
      (fs', reports, .ok result)) :
    build (fs'.sources moduleRoots lookupRoots) exclude output fs' =
        (fs', reports, .ok result) ∧
      ∃ c, (collect (fs.sources moduleRoots lookupRoots) exclude).2 = .ok c ∧
        (collect (fs'.sources moduleRoots lookupRoots) exclude).2 = .ok c ∧
        fs'.read output = .ok (Utf8.encode c.dataset.text) := by
  obtain ⟨c, hc, hstore, _, _⟩ := store_of_build h
  have hbeside : SameBeside (fs.absolute output) fs fs' :=
    Dataset.sameBeside_store hlinks houtput hstore
  have hcollect := hbeside.collect_eq hfs
    (fun root hroot hne => ⟨hne, (hroots root hroot).1, (hroots root hroot).2 hne⟩) exclude
  refine ⟨build_of_collect_eq hcollect (fun _ _ => Dataset.store_again) h, c, hc, ?_, ?_⟩
  · rw [hcollect, hc]
  · obtain ⟨_, _, hwrite, _⟩ := Dataset.write_of_store hstore
    exact read_of_write hwrite

/-! ## A build beside a directory of modules -/

def pingSource : String :=
  "DOCUMENTATION = '''\nmodule: ping\n'''\n"

/-- A tree with a documented module and one without documentation. -/
def documentedTree : FileSystem :=
  ofModuleTexts [("ping.py", pingSource), ("pong.py", "")]

/-- The sources below a directory of modules and one of lookup plugins. -/
def modulesAndLookups (fs : FileSystem) : Sources :=
  fs.sources [Path.ofString "modules"] [Path.ofString "lookups"]

theorem exists_documents_documentedTree :
    ∃ d, documentedTree.modulesAndLookups.Documents [Path.ofString "modules"] "ping" d ∧
      ModuleEntry.declaredName "ping" d.fields = "ping" := by
  have hname : (match Documentation.ofSource pingSource.toList with
      | .ok d => ModuleEntry.declaredName "ping" d.fields == "ping"
      | .error _ => false) = true := by decide +kernel
  have hread : documentedTree.modulesAndLookups.documentation (Path.ofString "modules/ping.py") =
      (Documentation.ofSource pingSource.toList).mapError .documentation := by
    have hreader : documentedTree.modulesAndLookups.documentation = documentedTree.documentation :=
      rfl
    have htext : documentedTree.readText (Path.ofString "modules/ping.py") =
        .ok pingSource.toList := rfl
    rw [hreader, documentation, htext]
  have hresolve : documentedTree.resolveModule "ping" [Path.ofString "modules"] =
      some (Path.ofString "modules/ping.py") := rfl
  cases hd : Documentation.ofSource pingSource.toList with
  | error fault =>
    rw [hd] at hname
    simp at hname
  | ok d =>
    rw [hd] at hname hread
    exact ⟨d, ⟨_, hresolve, rfl, by decide, hread⟩, eq_of_beq hname⟩

/-- What is collected from these sources has the documented module. -/
theorem exists_mem_modules_documentedTree {c : Collected}
    (h : (collect documentedTree.modulesAndLookups ["debug"]).2 = .ok c) :
    ∃ e ∈ c.dataset.modules, e.name = "ping" := by
  have hpaths : documentedTree.modulesAndLookups.ecosystem.modulePaths =
      .ok [Path.ofString "modules"] := congrArg Except.ok (searchDirectories_ofModuleTexts _)
  have hcatalog : "ping" ∈ (documentedTree.ecosystem [Path.ofString "modules"]
      [Path.ofString "lookups"]).catalog [Path.ofString "modules"] :=
    mem_catalog.2 ⟨_, List.mem_singleton_self _, _, _, list_ofModuleTexts _, List.mem_cons_self,
      rfl⟩
  obtain ⟨d, hd, hname⟩ := exists_documents_documentedTree
  exact (exists_mem_modules_iff_documents h "ping").2
    ⟨_, hpaths, "ping", hcatalog, by decide, d, hd, hname⟩

/-- A build into a directory that is created first is done again. One of its roots is missing, and
one of the two modules is in the dataset. -/
theorem build_again_ping : ∃ fs' reports result, ∃ c : Collected,
    build documentedTree.modulesAndLookups ["debug"] (Path.ofString "out/dataset.json")
        documentedTree = (fs', reports, .ok result) ∧
      build fs'.modulesAndLookups ["debug"] (Path.ofString "out/dataset.json") fs' =
        (fs', reports, .ok result) ∧
      (collect fs'.modulesAndLookups ["debug"]).2 = .ok c ∧
      fs'.read (Path.ofString "out/dataset.json") = .ok (Utf8.encode c.dataset.text) ∧
      ∃ e ∈ c.dataset.modules, e.name = "ping" := by
  have hroots : ∀ root ∈ [Path.ofString "modules"] ++ [Path.ofString "lookups"],
      .up ∉ root.components ∧ (root.bytes ≠ [] → ¬documentedTree.absolute root <+:
        documentedTree.absolute (Path.ofString "out/dataset.json")) := by
    decide
  have hbuild : ∃ fs' reports result,
      build documentedTree.modulesAndLookups ["debug"] (Path.ofString "out/dataset.json")
        documentedTree = (fs', reports, .ok result) := ⟨_, _, _, rfl⟩
  obtain ⟨fs', reports, result, h⟩ := hbuild
  obtain ⟨hagain, c, hcollect, hcollect', hread⟩ :=
    build_again (wellNamed_of_isWellNamed (by decide)) (hasNoLinks_of_isLinkFree rfl) (by decide)
      hroots h
  exact ⟨fs', reports, result, c, h, hagain, hcollect', hread,
    exists_mem_modules_documentedTree hcollect⟩

end FileSystem

end PluginDataset
