import PluginDataset.Build
import PluginDataset.Proofs.Dataset.ReadBack
import PluginDataset.Proofs.Extraction.Accounting
import PluginDataset.Proofs.Files.PlainNames

/-!
# What a build that succeeds has done

A build that succeeds has collected a dataset in good order and written its text where it was asked
to. Validation of the file then reports the sizes of the build's result.

## Main results

* `collect_eq_ok_iff`: when a dataset is collected, and which one.
* `Dataset.validate_of_store`: a stored dataset passes validation.
* `hasPlainNames_build`: a build keeps the names of entries plain.
* `validate_of_build`: the output of a build passes validation.
-/

namespace PluginDataset

/-! ## Collecting -/

/-- The reports on modules come one for each name, in order. -/
theorem foldl_reportModule (names : List String) (total current : Nat) (reports : List Progress) :
    (names.zipIdx current).foldl
        (fun reports (name, number) => reportModule name number total reports) reports =
      reports ++ names.mapIdx fun i name => .module name (i + current) total := by
  induction names generalizing current reports with
  | nil => simp
  | cons name rest ih =>
    rw [List.zipIdx_cons, List.foldl_cons, ih, List.mapIdx_cons]
    simp [reportModule, Nat.add_assoc, Nat.add_comm 1]

/-- The reports of a collection that reaches the extraction of modules. -/
theorem collect_reports (s : Sources) (exclude : List String) {paths : List Path}
    (h : s.ecosystem.modulePaths = .ok paths) :
    (collect s exclude).1 =
      [resolvingPaths, extractingModules] ++ moduleReports (s.ecosystem.catalog paths) ++
        [aggregatingDirectives, listingLookups] := by
  rw [collect, h]
  dsimp only
  rw [Extractor.extractReporting_eq]
  dsimp only
  rw [foldl_reportModule]
  cases s.ecosystem.lookupNames <;> rfl

/-- A dataset is collected when the module paths and the lookup plugins are known. Its modules are
those of the catalog. -/
theorem collect_eq_ok_iff {s : Sources} {exclude : List String} {c : Collected} :
    (collect s exclude).2 = .ok c ↔ ∃ paths lookups, s.ecosystem.modulePaths = .ok paths ∧
      s.ecosystem.lookupNames = .ok lookups ∧
      c.dataset = ⟨((s.extractor paths exclude).extractAll (s.ecosystem.catalog paths)).modules,
        .standard, lookups⟩ ∧
      c.skipped =
        ((s.extractor paths exclude).extractAll (s.ecosystem.catalog paths)).skipped := by
  rw [collect]
  cases hpaths : s.ecosystem.modulePaths with
  | error e => simp
  | ok paths =>
    dsimp only
    cases hlookups : s.ecosystem.lookupNames with
    | error e => simp
    | ok lookups =>
      dsimp only
      rw [Extractor.extractReporting_fst]
      obtain ⟨dataset, skipped⟩ := c
      constructor
      · intro h
        obtain ⟨rfl, rfl⟩ := Collected.mk.inj (Except.ok.inj h)
        exact ⟨paths, lookups, rfl, rfl, rfl, rfl⟩
      · rintro ⟨paths', lookups', hpaths', hlookups', hdataset, hskipped⟩
        obtain rfl := Except.ok.inj hpaths'
        obtain rfl := Except.ok.inj hlookups'
        dsimp only at hdataset hskipped
        rw [hdataset, hskipped]

/-- A collected dataset is in good order. -/
theorem valid_of_collect {s : Sources} {exclude : List String} {c : Collected}
    (h : (collect s exclude).2 = .ok c) : c.dataset.Valid := by
  obtain ⟨paths, lookups, _, _, hdataset, _⟩ := collect_eq_ok_iff.1 h
  have hdirectives : c.dataset.directives = .standard := by rw [hdataset]
  refine ⟨?_, ?_, ?_⟩
  · rw [hdataset]
    exact Extractor.pairwise_modules _ _
  · rw [hdirectives]
    exact DirectiveIndex.ascending_standard
  · rw [hdirectives]
    exact fun o ho => DirectiveIndex.find?_standard ho

/-- Every module of a collected dataset is extracted under a name of the catalog. -/
theorem exists_extract_of_collect {s : Sources} {exclude : List String} {c : Collected}
    (h : (collect s exclude).2 = .ok c) {m : ModuleEntry} (hm : m ∈ c.dataset.modules) :
    ∃ paths, s.ecosystem.modulePaths = .ok paths ∧ ∃ name ∈ s.ecosystem.catalog paths,
      (s.extractor paths exclude).extract name = .extracted m := by
  obtain ⟨paths, lookups, hpaths, _, hdataset, _⟩ := collect_eq_ok_iff.1 h
  rw [hdataset] at hm
  obtain ⟨before, name, after, hnames, hextract, _⟩ := (Extractor.mem_modules_iff _ _ _).1 hm
  exact ⟨paths, hpaths, name, by simp [hnames], hextract⟩

/-- A collected dataset can be read back if the documentation has no binary64 numbers and nests
three levels less than the limit. -/
theorem readable_of_collect {s : Sources} {exclude : List String} {c : Collected}
    (h : (collect s exclude).2 = .ok c)
    (hdocumentation : ∀ path d, s.documentation path = .ok d → ∀ p ∈ d.fields,
      p.2.FloatFree ∧ p.2.depth + 3 ≤ Dataset.nestingLimit) : c.dataset.Readable := by
  refine Dataset.Readable.of_depth_le fun m hm v hv => ?_
  obtain ⟨paths, _, name, _, hextract⟩ := exists_extract_of_collect h hm
  obtain ⟨_, path, d, _, _, _, hd, rfl⟩ := Extractor.extract_eq_extracted_iff.1 hextract
  rcases hv with hv | hv
  · exact hdocumentation path d hd _ (ModuleEntry.mem_of_field? hv)
  · exact hdocumentation path d hd _ (ModuleEntry.mem_of_field? hv)

/-! ## Storing -/

namespace Dataset

/-- A dataset that is stored has been written once its parent directories were there. -/
theorem write_of_store {d : Dataset} {fs fs' : FileSystem} {path : Path} {stored : StoredDataset}
    (h : d.store fs path = (fs', .ok stored)) :
    ∃ prepared, createParents fs path = (prepared, .ok ()) ∧
      prepared.write path d.bytes = .ok fs' ∧
      stored = ⟨path, Digest.sha256Hex d.bytes, d.bytes.length⟩ := by
  rw [store] at h
  rcases hparents : createParents fs path with ⟨prepared, _ | _⟩
  · simp [hparents] at h
  · rw [hparents] at h
    dsimp only at h
    cases hwrite : prepared.write path d.bytes with
    | error e => simp [hwrite] at h
    | ok written =>
      rw [hwrite] at h
      obtain ⟨rfl, hstored⟩ := Prod.mk.inj h
      exact ⟨prepared, rfl, hwrite, (Except.ok.inj hstored).symm⟩

/-- A stored dataset in good order passes validation, if it is readable. -/
theorem validate_of_store {d : Dataset} {fs fs' : FileSystem} {path : Path}
    {stored : StoredDataset} (hvalid : d.Valid) (hread : d.Readable)
    (h : d.store fs path = (fs', .ok stored)) : validate fs' path = .ok d.size := by
  obtain ⟨prepared, _, hwrite, _⟩ := write_of_store h
  have htext : fs'.readText path = .ok d.text := by
    rw [FileSystem.readText, FileSystem.read_of_write hwrite, bytes]
    dsimp only
    rw [Utf8.decode?_encode]
  rw [validate, htext]
  dsimp only
  rw [validateText_text hvalid hread]
  rfl

/-- Storing keeps the names of entries plain, also when it fails on the way. -/
theorem hasPlainNames_store {fs : FileSystem} (h : fs.HasPlainNames) (path : Path) (d : Dataset) :
    (d.store fs path).1.HasPlainNames := by
  have hparents : (createParents fs path).1.HasPlainNames := by
    rw [createParents]
    split
    · next parent _ =>
      split
      · exact h
      · have hcreated := h.createDirectories parent
        split
        · next prepared heq =>
          rw [heq] at hcreated
          exact hcreated
        · next prepared e heq =>
          rw [heq] at hcreated
          exact hcreated
    · exact h
  rw [store]
  split
  · next prepared e heq =>
    rw [heq] at hparents
    exact hparents
  · next prepared heq =>
    rw [heq] at hparents
    split
    · exact hparents
    · next written hwrite => exact hparents.write hwrite

end Dataset

/-! ## Building -/

/-- A build keeps the names of entries plain, whatever becomes of it. -/
theorem hasPlainNames_build {fs : FileSystem} (h : fs.HasPlainNames) (s : Sources)
    (exclude : List String) (output : Path) : (build s exclude output fs).1.HasPlainNames := by
  rw [build]
  split
  · exact h
  · next reports c _ =>
    have hstore := Dataset.hasPlainNames_store h output c.dataset
    split
    · next written e heq =>
      rw [heq] at hstore
      exact hstore
    · next written stored heq =>
      rw [heq] at hstore
      exact hstore

/-- A build that succeeds has collected a dataset and stored it. -/
theorem store_of_build {s : Sources} {exclude : List String} {output : Path} {fs fs' : FileSystem}
    {reports : List Progress} {result : BuildResult}
    (h : build s exclude output fs = (fs', reports, .ok result)) :
    ∃ c, (collect s exclude).2 = .ok c ∧ c.dataset.store fs output = (fs', .ok result.stored) ∧
      result.skipped = c.skipped ∧ result.size = c.dataset.size := by
  rw [build] at h
  rcases hcollect : collect s exclude with ⟨before, e | c⟩
  · simp [hcollect] at h
  · rw [hcollect] at h
    dsimp only at h
    refine ⟨c, rfl, ?_⟩
    rcases hstore : c.dataset.store fs output with ⟨written, e | stored⟩
    · simp [hstore] at h
    · rw [hstore] at h
      dsimp only at h
      obtain ⟨rfl, hrest⟩ := Prod.mk.inj h
      obtain rfl := Except.ok.inj (Prod.mk.inj hrest).2
      exact ⟨rfl, rfl, rfl⟩

/-- The output of a build that succeeds passes validation in the file system that results, which
then reports the sizes of the build's result. The free-form values of the collected dataset must be
ones that can be read back. -/
theorem validate_of_build {s : Sources} {exclude : List String} {output : Path}
    {fs fs' : FileSystem} {reports : List Progress} {result : BuildResult}
    (hread : ∀ c, (collect s exclude).2 = .ok c → c.dataset.Readable)
    (h : build s exclude output fs = (fs', reports, .ok result)) :
    Dataset.validate fs' output = .ok result.size := by
  obtain ⟨c, hcollect, hstore, _, hsize⟩ := store_of_build h
  rw [hsize]
  exact Dataset.validate_of_store (valid_of_collect hcollect) (hread c hcollect) hstore

/-- Sources of one documented module and no lookup plugins. -/
def Sources.ping : Sources where
  ecosystem :=
    { modulePaths := .ok [Path.ofString "/modules"]
      moduleNames := fun _ => ["ping"]
      resolveModule := fun _ _ => some (Path.ofString "/modules/ping.py")
      lookupPlugins := .ok [] }
  documentation := fun _ =>
    .ok { fields := [("options", .object [("data", .array [.string "pong", .null])])] }
  isDirectory := fun _ => false

/-- A build from these sources into an empty directory has an output that passes validation. -/
theorem validate_of_build_ping : ∃ fs' reports result,
    build .ping ["debug"] (Path.ofString "out/dataset.json") ⟨.directory [], []⟩ =
        (fs', reports, .ok result) ∧
      Dataset.validate fs' (Path.ofString "out/dataset.json") = .ok result.size := by
  have hread : ∀ c, (collect .ping ["debug"]).2 = .ok c → c.dataset.Readable := by
    intro c hc
    refine readable_of_collect hc fun path d hd p hp => ?_
    obtain rfl := Except.ok.inj hd
    obtain rfl := List.mem_singleton.1 hp
    simp [Json.FloatFree, Json.FloatFreeMembers, Json.FloatFreeItems, Json.depth, Json.depthMembers,
      Json.depthItems, Dataset.nestingLimit]
  have hbuild : ∃ fs' reports result,
      build .ping ["debug"] (Path.ofString "out/dataset.json") ⟨.directory [], []⟩ =
        (fs', reports, .ok result) := ⟨_, _, _, rfl⟩
  obtain ⟨fs', reports, result, h⟩ := hbuild
  exact ⟨fs', reports, result, h, validate_of_build hread h⟩

end PluginDataset
