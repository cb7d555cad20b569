import PluginDataset.Proofs.Build.Success

/-!
# Excluded modules

Exclusion looks at the names of the catalog. The names in a dataset are those that documentation
declares, and they are not looked at again: a module that is not excluded under the name of its file
may declare the name of one that is.

## Main definitions

* `Sources.Documents` says that a name leads to documentation.

## Main results

* `exists_mem_modules_iff_documents`: which names a collected dataset has.
* `excluded_mem_modules_iff`: when an excluded name is among them.
-/

namespace PluginDataset

/-- A name leads to a file with documentation, which is no directory and not in another language. -/
def Sources.Documents (s : Sources) (paths : List Path) (name : String) (d : Documentation) :
    Prop :=
  ∃ path, s.ecosystem.resolveModule name paths = some path ∧ s.isDirectory path = false ∧
    path.isOtherLanguage = false ∧ s.documentation path = .ok d

theorem extractor_extract_iff {s : Sources} {paths : List Path} {exclude : List String}
    {name : String} {e : ModuleEntry} :
    (s.extractor paths exclude).extract name = .extracted e ↔
      name ∉ exclude ∧ ∃ d, s.Documents paths name d ∧ e = .ofFields name d.fields := by
  rw [Extractor.extract_eq_extracted_iff]
  refine and_congr_right fun _ => ?_
  constructor
  · rintro ⟨path, d, hpath, hdirectory, hlanguage, hd, he⟩
    exact ⟨d, ⟨path, hpath, hdirectory, hlanguage, hd⟩, he⟩
  · rintro ⟨d, ⟨path, hpath, hdirectory, hlanguage, hd⟩, he⟩
    exact ⟨path, d, hpath, hdirectory, hlanguage, hd, he⟩

/-- The names in a collected dataset are those that the documentation of names declares that are in
the catalog and not excluded. -/
theorem exists_mem_modules_iff_documents {s : Sources} {exclude : List String} {c : Collected}
    (h : (collect s exclude).2 = .ok c) (m : String) :
    (∃ e ∈ c.dataset.modules, e.name = m) ↔
      ∃ paths, s.ecosystem.modulePaths = .ok paths ∧
        ∃ name ∈ s.ecosystem.catalog paths, name ∉ exclude ∧
          ∃ d, s.Documents paths name d ∧ ModuleEntry.declaredName name d.fields = m := by
  obtain ⟨paths, lookups, hpaths, _, hdataset, _⟩ := collect_eq_ok_iff.1 h
  rw [hdataset, Extractor.exists_mem_modules_iff]
  constructor
  · rintro ⟨name, hname, e, he, hm⟩
    obtain ⟨hexclude, d, hd, rfl⟩ := extractor_extract_iff.1 he
    exact ⟨paths, hpaths, name, hname, hexclude, d, hd, hm⟩
  · rintro ⟨paths', hpaths', name, hname, hexclude, d, hd, hm⟩
    obtain rfl := Except.ok.inj (hpaths.symm.trans hpaths')
    exact ⟨name, hname, .ofFields name d.fields,
      extractor_extract_iff.2 ⟨hexclude, d, hd, rfl⟩, hm⟩

/-- A module has another name than that of its file just when its documentation declares it. -/
theorem declaredName_eq_iff_of_ne {name m : String} (h : name ≠ m)
    (fields : List (String × Json)) :
    ModuleEntry.declaredName name fields = m ↔
      m ≠ "" ∧ Keyed.find? "module" fields = some (.string m) := by
  rw [ModuleEntry.declaredName]
  split
  · next declared hfind =>
    rw [hfind]
    by_cases hempty : declared = ""
    · rw [if_pos hempty]
      refine ⟨fun heq => absurd heq h, ?_⟩
      rintro ⟨hm, hsome⟩
      obtain rfl : declared = m := by simpa using hsome
      exact absurd hempty hm
    · rw [if_neg hempty]
      constructor
      · rintro rfl
        exact ⟨hempty, rfl⟩
      · rintro ⟨_, hsome⟩
        simpa using hsome
  · next hfind =>
    refine ⟨fun heq => absurd heq h, ?_⟩
    rintro ⟨_, hsome⟩
    exact absurd hsome (hfind m)

/-- An excluded name is in a collected dataset exactly if a name of the catalog that is not excluded
leads to documentation that declares it. -/
theorem excluded_mem_modules_iff {s : Sources} {exclude : List String} {c : Collected}
    (h : (collect s exclude).2 = .ok c) {m : String} (hm : m ∈ exclude) :
    (∃ e ∈ c.dataset.modules, e.name = m) ↔
      ∃ paths, s.ecosystem.modulePaths = .ok paths ∧
        ∃ name ∈ s.ecosystem.catalog paths, name ∉ exclude ∧
          ∃ d, s.Documents paths name d ∧ m ≠ "" ∧
            Keyed.find? "module" d.fields = some (.string m) := by
  rw [exists_mem_modules_iff_documents h]
  refine exists_congr fun paths => and_congr_right fun _ => exists_congr fun name =>
    and_congr_right fun _ => and_congr_right fun hname => exists_congr fun d =>
      and_congr_right fun _ => ?_
  -- a name that is not excluded is not the excluded one
  have hne : name ≠ m := fun heq => hname (heq ▸ hm)
  exact declaredName_eq_iff_of_ne hne d.fields

/-- Sources of one module in a file `dbg`, which declares the name `debug`. -/
def Sources.renamed : Sources where
  ecosystem :=
    { modulePaths := .ok [Path.ofString "/modules"]
      moduleNames := fun _ => ["dbg"]
      resolveModule := fun _ _ => some (Path.ofString "/modules/dbg.py")
      lookupPlugins := .ok [] }
  documentation := fun _ => .ok { fields := [("module", .string "debug")] }
  isDirectory := fun _ => false

/-- The dataset of these sources has a module `debug` although that name is excluded. -/
theorem excluded_mem_modules_renamed : ∃ c, (collect .renamed ["debug"]).2 = .ok c ∧
    "debug" ∈ ["debug"] ∧ ∃ e ∈ c.dataset.modules, e.name = "debug" := by
  have hcollect : ∃ c, (collect .renamed ["debug"]).2 = .ok c := ⟨_, rfl⟩
  obtain ⟨c, h⟩ := hcollect
  have hcatalog : "dbg" ∈ Sources.renamed.ecosystem.catalog [Path.ofString "/modules"] := by
    simp [Ecosystem.catalog, Sources.renamed, sortNames, dropRepeats]
  have hlanguage : (Path.ofString "/modules/dbg.py").isOtherLanguage = false := by
    decide
  refine ⟨c, h, by simp, (excluded_mem_modules_iff h (by simp)).2 ?_⟩
  exact ⟨[Path.ofString "/modules"], rfl, "dbg", hcatalog, by decide,
    { fields := [("module", .string "debug")] },
    ⟨Path.ofString "/modules/dbg.py", rfl, rfl, hlanguage, rfl⟩, by decide, rfl⟩

end PluginDataset
