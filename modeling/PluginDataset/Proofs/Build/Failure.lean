import PluginDataset.Proofs.Build.Success
import PluginDataset.Proofs.Files.Frame

/-!
# What a build leaves behind

A build fails when the module paths or the lookup plugins are not known, when a parent directory of
the output cannot be created, or when the output cannot be opened. What becomes of single modules
has no part in it. Up to the writing nothing is changed but for directories that were missing, so
that a build that fails leaves all files alone.

## Main definitions

* `BuildFails` lists the ways in which a build can fail.

## Main results

* `Dataset.addsDirectories_createParents`: what is created before a dataset is written.
* `exists_build_eq_error_iff`: a build fails in the listed ways and no other.
* `build_leaves`: what a build leaves behind when it fails and when it succeeds.
-/

namespace PluginDataset

/-- Why a build fails, and the file system that is left. The answers of an ecosystem about its
module paths and lookup plugins decide, and after them the output. -/
inductive BuildFails (modulePaths lookupPlugins : Except Fault (List Path)) (output : Path)
    (fs : FileSystem) : Fault → FileSystem → Prop where
  | modulePaths {e : Fault} (h : modulePaths = .error e) :
    BuildFails modulePaths lookupPlugins output fs e fs
  | lookupPlugins {paths : List Path} {e : Fault} (hpaths : modulePaths = .ok paths)
    (h : lookupPlugins = .error e) : BuildFails modulePaths lookupPlugins output fs e fs
  | parents {paths lookups : List Path} {e : Fault} {fs' : FileSystem}
    (hpaths : modulePaths = .ok paths) (hlookups : lookupPlugins = .ok lookups)
    (h : Dataset.createParents fs output = (fs', .error e)) :
    BuildFails modulePaths lookupPlugins output fs e fs'
  | opening {paths lookups : List Path} {fault : FileFault} {fs' : FileSystem}
    (hpaths : modulePaths = .ok paths) (hlookups : lookupPlugins = .ok lookups)
    (hparents : Dataset.createParents fs output = (fs', .ok ()))
    (h : fs'.openPlace output = .error fault) :
    BuildFails modulePaths lookupPlugins output fs (.file output fault) fs'

/-! ## Collecting and storing -/

theorem lookupNames_eq_error_iff {ecosystem : Ecosystem} {e : Fault} :
    ecosystem.lookupNames = .error e ↔ ecosystem.lookupPlugins = .error e := by
  rw [Ecosystem.lookupNames]
  cases ecosystem.lookupPlugins <;> simp [Except.map]

theorem exists_lookupNames_iff {ecosystem : Ecosystem} :
    (∃ names, ecosystem.lookupNames = .ok names) ↔
      ∃ lookups, ecosystem.lookupPlugins = .ok lookups := by
  rw [Ecosystem.lookupNames]
  cases ecosystem.lookupPlugins <;> simp [Except.map]

/-- No dataset is collected when the module paths or the lookup plugins are not known. -/
theorem collect_eq_error_iff {s : Sources} {exclude : List String} {e : Fault} :
    (collect s exclude).2 = .error e ↔ s.ecosystem.modulePaths = .error e ∨
      ∃ paths, s.ecosystem.modulePaths = .ok paths ∧ s.ecosystem.lookupPlugins = .error e := by
  rw [← lookupNames_eq_error_iff, collect]
  cases s.ecosystem.modulePaths with
  | error e' => simp
  | ok paths =>
    dsimp only
    cases s.ecosystem.lookupNames <;> simp

/-- Collecting never reports that a build is done. -/
theorem done_notMem_collect (s : Sources) (exclude : List String) (n : Nat) :
    .done n ∉ (collect s exclude).1 := by
  cases hpaths : s.ecosystem.modulePaths with
  | error e =>
    rw [collect, hpaths]
    simp [resolvingPaths]
  | ok paths =>
    rw [collect_reports s exclude hpaths]
    simp [resolvingPaths, extractingModules, aggregatingDirectives, listingLookups, moduleReports,
      List.mem_mapIdx]

namespace Dataset

/-- What is created before a dataset is written: directories above it, where they were missing. -/
theorem addsDirectories_createParents (fs : FileSystem) (path : Path) :
    fs.AddsDirectories (createParents fs path).1 (·.IsAbove path) := by
  rw [createParents]
  split
  · next parent hparent =>
    split
    · exact .refl fs _
    · have hcreated : fs.AddsDirectories (fs.createDirectories parent).1 (·.IsAbove path) :=
        (fs.addsDirectories_createDirectories parent).mono fun q hq =>
          hq.elim (fun heq => .parent (heq ▸ hparent)) (.further hparent)
      split
      · next prepared heq =>
        rw [heq] at hcreated
        exact hcreated
      · next prepared e heq =>
        rw [heq] at hcreated
        exact hcreated
  · exact .refl fs _

/-- A dataset is not stored when its parent directories cannot be created, or when it cannot be
opened after that. -/
theorem store_eq_error_iff {d : Dataset} {fs fs' : FileSystem} {path : Path} {e : Fault} :
    d.store fs path = (fs', .error e) ↔ createParents fs path = (fs', .error e) ∨
      ∃ fault, createParents fs path = (fs', .ok ()) ∧ fs'.openPlace path = .error fault ∧
        e = .file path fault := by
  rw [store]
  rcases createParents fs path with ⟨prepared, e' | _⟩
  · simp
  · dsimp only
    rw [FileSystem.write_eq]
    cases hopen : prepared.openPlace path with
    | error fault =>
      constructor
      · intro h
        obtain ⟨rfl, he⟩ := Prod.mk.inj h
        exact .inr ⟨fault, rfl, hopen, (Except.error.inj he).symm⟩
      · rintro (h | ⟨fault', hparents, hopen', rfl⟩)
        · simp at h
        · obtain rfl := (Prod.mk.inj hparents).1
          obtain rfl := Except.error.inj (hopen.symm.trans hopen')
          rfl
    | ok place =>
      constructor
      · simp [Except.map]
      · rintro (h | ⟨fault', hparents, hopen', rfl⟩)
        · simp at h
        · obtain rfl := (Prod.mk.inj hparents).1
          simp [hopen] at hopen'

end Dataset

/-! ## Building -/

/-- A build fails in the listed ways and no other. -/
theorem exists_build_eq_error_iff {s : Sources} {exclude : List String} {output : Path}
    {fs fs' : FileSystem} {e : Fault} :
    (∃ reports, build s exclude output fs = (fs', reports, .error e)) ↔
      BuildFails s.ecosystem.modulePaths s.ecosystem.lookupPlugins output fs e fs' := by
  have hcollect : ∀ c, (collect s exclude).2 = .ok c →
      ((∃ reports, build s exclude output fs = (fs', reports, .error e)) ↔
        c.dataset.store fs output = (fs', .error e)) := by
    intro c hc
    rw [build, show collect s exclude = ((collect s exclude).1, .ok c) from Prod.ext rfl hc]
    dsimp only
    rcases c.dataset.store fs output with ⟨written, e' | stored⟩ <;> simp
  constructor
  · intro h
    cases hc : (collect s exclude).2 with
    | error e' =>
      rw [build, show collect s exclude = ((collect s exclude).1, .error e') from Prod.ext rfl hc]
        at h
      obtain ⟨reports, h⟩ := h
      obtain ⟨rfl, hrest⟩ := Prod.mk.inj h
      obtain rfl := Except.error.inj (Prod.mk.inj hrest).2
      rcases collect_eq_error_iff.1 hc with hpaths | ⟨paths, hpaths, hlookups⟩
      · exact .modulePaths hpaths
      · exact .lookupPlugins hpaths hlookups
    | ok c =>
      obtain ⟨paths, names, hpaths, hnames, _⟩ := collect_eq_ok_iff.1 hc
      obtain ⟨lookups, hlookups⟩ := exists_lookupNames_iff.1 ⟨names, hnames⟩
      rcases Dataset.store_eq_error_iff.1 ((hcollect c hc).1 h) with
        hparents | ⟨fault, hparents, hopen, rfl⟩
      · exact .parents hpaths hlookups hparents
      · exact .opening hpaths hlookups hparents hopen
  · have herror : (collect s exclude).2 = .error e → fs' = fs →
        ∃ reports, build s exclude output fs = (fs', reports, .error e) := by
      rintro hc rfl
      refine ⟨(collect s exclude).1, ?_⟩
      rw [build, show collect s exclude = ((collect s exclude).1, .error e) from Prod.ext rfl hc]
    have hok : ∀ paths lookups, s.ecosystem.modulePaths = .ok paths →
        s.ecosystem.lookupPlugins = .ok lookups →
        (∀ d : Dataset, d.store fs output = (fs', .error e)) →
        ∃ reports, build s exclude output fs = (fs', reports, .error e) := by
      intro paths lookups hpaths hlookups hstore
      obtain ⟨names, hnames⟩ := exists_lookupNames_iff.2 ⟨lookups, hlookups⟩
      let x := (s.extractor paths exclude).extractAll (s.ecosystem.catalog paths)
      have hc : (collect s exclude).2 = .ok ⟨⟨x.modules, .standard, names⟩, x.skipped⟩ :=
        collect_eq_ok_iff.2 ⟨paths, names, hpaths, hnames, rfl, rfl⟩
      exact (hcollect _ hc).2 (hstore _)
    intro h
    cases h with
    | modulePaths h => exact herror (collect_eq_error_iff.2 (.inl h)) rfl
    | lookupPlugins hpaths h => exact herror (collect_eq_error_iff.2 (.inr ⟨_, hpaths, h⟩)) rfl
    | parents hpaths hlookups h =>
      exact hok _ _ hpaths hlookups fun d => Dataset.store_eq_error_iff.2 (.inl h)
    | opening hpaths hlookups hparents h =>
      exact hok _ _ hpaths hlookups fun d =>
        Dataset.store_eq_error_iff.2 (.inr ⟨_, hparents, h, rfl⟩)

/-- The directories above the output are all that a build that fails can have added. -/
theorem BuildFails.addsDirectories {modulePaths lookupPlugins : Except Fault (List Path)}
    {output : Path} {fs fs' : FileSystem} {e : Fault}
    (h : BuildFails modulePaths lookupPlugins output fs e fs') :
    fs.AddsDirectories fs' (·.IsAbove output) := by
  have hparents := Dataset.addsDirectories_createParents fs output
  cases h with
  | modulePaths _ => exact .refl fs _
  | lookupPlugins _ _ => exact .refl fs _
  | parents _ _ h =>
    rw [h] at hparents
    exact hparents
  | opening _ _ h _ =>
    rw [h] at hparents
    exact hparents

/-- A build that fails does not report that it is done. -/
theorem done_notMem_build {s : Sources} {exclude : List String} {output : Path}
    {fs fs' : FileSystem} {reports : List Progress} {e : Fault}
    (h : build s exclude output fs = (fs', reports, .error e)) (n : Nat) : .done n ∉ reports := by
  have hdone := done_notMem_collect s exclude n
  rw [build] at h
  rcases hcollect : collect s exclude with ⟨before, e' | c⟩
  · rw [hcollect] at h hdone
    obtain ⟨_, hrest⟩ := Prod.mk.inj h
    obtain rfl := (Prod.mk.inj hrest).1
    exact hdone
  · rw [hcollect] at h hdone
    dsimp only at h
    rcases hstore : c.dataset.store fs output with ⟨written, e' | stored⟩
    · rw [hstore] at h
      obtain ⟨_, hrest⟩ := Prod.mk.inj h
      obtain rfl := (Prod.mk.inj hrest).1
      simp [hdone, writingDataset]
    · simp [hstore] at h

/-- A build fails exactly when the module paths are not known, when the lookup plugins are not, when
a directory above the output cannot be created, or when the output cannot be opened. The earliest
of these faults is the one that is given, and the first two leave the file system alone. No build
that fails changes or creates a file, or adds anything but directories above the output, and none
reports that it is done. A build that succeeds writes the text of the collected dataset where the
output path leads, gives its size, and leaves all other files alone. -/
theorem build_leaves (s : Sources) (exclude : List String) (output : Path) (fs : FileSystem) :
    (∀ e fs', (∃ reports, build s exclude output fs = (fs', reports, .error e)) ↔
        BuildFails s.ecosystem.modulePaths s.ecosystem.lookupPlugins output fs e fs') ∧
      match build s exclude output fs with
      | (fs', reports, .error _) =>
        (∀ place, fs'.file? place = fs.file? place) ∧
          fs.AddsDirectories fs' (·.IsAbove output) ∧ ∀ n, .done n ∉ reports
      | (fs', _, .ok result) =>
        ∃ c place, (collect s exclude).2 = .ok c ∧
          fs'.find .use output = .ok (place, .file (Utf8.encode c.dataset.text)) ∧
          result.stored.size = (Utf8.encode c.dataset.text).length ∧
          ∀ q, q ≠ place → fs'.file? q = fs.file? q := by
  refine ⟨fun e fs' => exists_build_eq_error_iff, ?_⟩
  rcases hbuild : build s exclude output fs with ⟨fs', reports, e | result⟩
  · have hadds := (exists_build_eq_error_iff.1 ⟨reports, hbuild⟩).addsDirectories
    exact ⟨hadds.file?_eq, hadds, done_notMem_build hbuild⟩
  · obtain ⟨c, hcollect, hstore, _, _⟩ := store_of_build hbuild
    obtain ⟨prepared, hparents, hwrite, hstored⟩ := Dataset.write_of_store hstore
    obtain ⟨place, _, _, hfind⟩ := FileSystem.find_of_write hwrite
    have hadds := Dataset.addsDirectories_createParents fs output
    rw [hparents] at hadds
    have hsize : result.stored.size = (Utf8.encode c.dataset.text).length := by
      rw [hstored]
      rfl
    refine ⟨c, place, hcollect, hfind, hsize, fun q hq => ?_⟩
    exact (FileSystem.file?_of_write hwrite hfind hq).trans (hadds.file?_eq q)

end PluginDataset
