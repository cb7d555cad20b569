import PluginDataset.Dataset.Basic
import PluginDataset.Ecosystem.Basic

/-!
# Extraction of modules

Every name of a catalog ends as an entry of the dataset or is skipped for a reason; nothing here is
fatal. Entries are ordered by the names that documentation declares. Of several entries of one name
the earliest stays.

## Main definitions

* `Extractor` is what extraction depends on.
* `Extractor.extract` deals with one name, `Extractor.extractAll` with a list of names.
* `Extractor.extractReporting` reports on each name of a list after it has been dealt with.
-/

namespace PluginDataset

/-- Why a module is left out. -/
inductive SkipReason where
  | excluded
  | unresolved
  | directory
  | otherLanguage
  | invalidDocumentation (fault : Fault)

def SkipReason.summary : SkipReason → List Char
  | .excluded => "excluded".toList
  | .unresolved => "unresolved".toList
  | .directory => "directory".toList
  | .otherLanguage => "non-primary language".toList
  | .invalidDocumentation _ => "invalid doc".toList

def SkipReason.message : SkipReason → List Char
  | .invalidDocumentation fault => "invalid doc: ".toList ++ fault.message
  | reason => reason.summary

/-- A module that is left out. -/
structure SkippedModule where
  name : String
  reason : SkipReason

inductive Outcome where
  | extracted (entry : ModuleEntry)
  | skipped (module : SkippedModule)

/-- What extraction depends on: answers about plugins and documentation, which paths are
directories, where modules are looked for, and which names are excluded. -/
structure Extractor where
  ecosystem : Ecosystem
  documentation : DocumentationReader
  isDirectory : Path → Bool
  paths : List Path
  exclude : List String

/-- The result of extracting a list of names. -/
structure Extraction where
  modules : List ModuleEntry
  skipped : List SkippedModule

/-- The extensions of languages in which no documentation is looked for. -/
def otherLanguages : List FileName :=
  [FileName.ofString "ps1"]

/-- Whether a file is written in another language, by its extension. -/
def Path.isOtherLanguage (p : Path) : Bool :=
  match p.extension? with
  | some e => otherLanguages.contains e
  | none => false

def Outcome.extracted? : Outcome → Option ModuleEntry
  | .extracted entry => some entry
  | .skipped _ => none

def Outcome.skipped? : Outcome → Option SkippedModule
  | .extracted _ => none
  | .skipped m => some m

/-- Takes a report on a module into account: its name, its number, and the number of all modules. -/
abbrev Reporter (σ : Type) := (name : String) → (current total : Nat) → σ → σ

/-- What has been gathered from some names of a list: entries and skipped modules in the order of
the names, and what the reports on them have come to. -/
structure Gathered (σ : Type) where
  entries : List ModuleEntry
  skipped : List SkippedModule
  reported : σ

def Gathered.add {σ : Type} (g : Gathered σ) : Outcome → Gathered σ
  | .extracted entry => { g with entries := g.entries ++ [entry] }
  | .skipped m => { g with skipped := g.skipped ++ [m] }

def Gathered.report {σ : Type} (g : Gathered σ) (report : σ → σ) : Gathered σ :=
  { g with reported := report g.reported }

/-- Entries in ascending order of their names; entries of one name keep their order. -/
def sortEntries (entries : List ModuleEntry) : List ModuleEntry :=
  entries.mergeSort fun a b => decide (a.name ≤ b.name)

/-- Removes each entry that has the name of the entry kept before it. -/
def dropDuplicates : List ModuleEntry → List ModuleEntry
  | [] => []
  | m :: rest =>
    match dropDuplicates rest with
    | [] => [m]
    | next :: kept => if m.name = next.name then m :: kept else m :: next :: kept

namespace Extractor

def extract (x : Extractor) (name : String) : Outcome :=
  let skip (reason : SkipReason) : Outcome := .skipped ⟨name, reason⟩
  if x.exclude.contains name then skip .excluded
  else
    match x.ecosystem.resolveModule name x.paths with
    | none => skip .unresolved
    | some path =>
      if x.isDirectory path then skip .directory
      else if path.isOtherLanguage then skip .otherLanguage
      else
        match x.documentation path with
        | .ok d => .extracted (.ofFields name d.fields)
        | .error fault => skip (.invalidDocumentation fault)

/-- Deals with names in order, of which the first has the number `current`, and reports on each one
after it has been dealt with. -/
def gather {σ : Type} (x : Extractor) (report : Reporter σ) (total : Nat) :
    (current : Nat) → Gathered σ → List String → Gathered σ
  | _, g, [] => g
  | current, g, name :: rest =>
    x.gather report total (current + 1)
      ((g.add (x.extract name)).report (report name current total)) rest

/-- What becomes of a list of names, and what the reports on them come to from a start. -/
def extractReporting {σ : Type} (x : Extractor) (report : Reporter σ) (names : List String)
    (start : σ) : Extraction × σ :=
  let g := x.gather report names.length 1 ⟨[], [], start⟩ names
  (⟨dropDuplicates (sortEntries g.entries), g.skipped⟩, g.reported)

def extractAll (x : Extractor) (names : List String) : Extraction :=
  (x.extractReporting (fun _ _ _ => id) names ()).1

end Extractor

end PluginDataset
