import PluginDataset.Dataset.Store
import PluginDataset.Directive
import PluginDataset.Ecosystem.Installed
import PluginDataset.Extraction

/-!
# Building a dataset

A build resolves the module paths, extracts the documentation of every module in the catalog,
aggregates the directives, lists the lookup plugins, and stores the dataset. Only the answers of the
ecosystem about paths and lookup plugins, and the writing, can fail.

## Main definitions

* `Progress` is a report on a running build.
* `collect` makes a dataset in memory, `build` stores it as well.
-/

namespace PluginDataset

/-- A report on a running build: a phase begins, a module has been dealt with, or the build is done
with a number of modules. -/
inductive Progress where
  | phase (name : String)
  | module (name : String) (current total : Nat)
  | done (modules : Nat)
deriving DecidableEq, Repr

def Progress.message : Progress → List Char
  | .phase name => "phase ".toList ++ name.toList
  | .module name current total =>
    "module ".toList ++ name.toList ++ ' ' :: Text.decimalDigits current ++
      '/' :: Text.decimalDigits total
  | .done modules => "done ".toList ++ Text.decimalDigits modules

def resolvingPaths : Progress := .phase "Resolving module paths"

def extractingModules : Progress := .phase "Extracting module documentation"

def aggregatingDirectives : Progress := .phase "Aggregating directives"

def listingLookups : Progress := .phase "Enumerating lookup plugins"

def writingDataset : Progress := .phase "Writing dataset"

def reportModule : Reporter (List Progress) := fun name current total reports =>
  reports ++ [.module name current total]

/-- The reports on modules that are dealt with in order. -/
def moduleReports (names : List String) : List Progress :=
  names.mapIdx fun i name => .module name (i + 1) names.length

/-- A dataset in memory, and the modules that are not in it. -/
structure Collected where
  dataset : Dataset
  skipped : List SkippedModule

/-- What a build depends on, the output apart. -/
structure Sources where
  ecosystem : Ecosystem
  documentation : DocumentationReader
  isDirectory : Path → Bool

def Sources.extractor (s : Sources) (paths : List Path) (exclude : List String) : Extractor :=
  ⟨s.ecosystem, s.documentation, s.isDirectory, paths, exclude⟩

/-- Makes a dataset in memory. The reports are those up to a fault, if there is one. -/
def collect (s : Sources) (exclude : List String) : List Progress × Except Fault Collected :=
  match s.ecosystem.modulePaths with
  | .error e => ([resolvingPaths], .error e)
  | .ok paths =>
    let (extraction, reports) := (s.extractor paths exclude).extractReporting reportModule
      (s.ecosystem.catalog paths) [resolvingPaths, extractingModules]
    let reports := reports ++ [aggregatingDirectives, listingLookups]
    match s.ecosystem.lookupNames with
    | .error e => (reports, .error e)
    | .ok lookups =>
      (reports, .ok ⟨⟨extraction.modules, .standard, lookups⟩, extraction.skipped⟩)

/-- What a build reports at its end. -/
structure BuildResult where
  stored : StoredDataset
  skipped : List SkippedModule
  size : DatasetSize

def build (s : Sources) (exclude : List String) (output : Path) (fs : FileSystem) :
    FileSystem × List Progress × Except Fault BuildResult :=
  match collect s exclude with
  | (reports, .error e) => (fs, reports, .error e)
  | (reports, .ok collected) =>
    let reports := reports ++ [writingDataset]
    match collected.dataset.store fs output with
    | (fs, .error e) => (fs, reports, .error e)
    | (fs, .ok stored) =>
      let result : BuildResult := ⟨stored, collected.skipped, collected.dataset.size⟩
      (fs, reports ++ [.done result.size.modules], .ok result)

/-- The sources of plugins that are installed below some roots. -/
def FileSystem.sources (fs : FileSystem) (moduleRoots lookupRoots : List Path) : Sources where
  ecosystem := fs.ecosystem moduleRoots lookupRoots
  documentation := fs.documentation
  isDirectory := fs.isDirectory

end PluginDataset
