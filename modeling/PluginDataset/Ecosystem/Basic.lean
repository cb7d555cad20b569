import PluginDataset.Fault

/-!
# Ecosystems

An ecosystem answers the questions that a build asks about installed plugins. Building depends on
these answers alone.

## Main definitions

* `Ecosystem` is the record of answers.
* `DocumentationReader` reads the documentation of a module's file.
* `Ecosystem.catalog` lists the names of all modules.
-/

namespace PluginDataset

/-- Answers about installed plugins: the directories that may hold modules, the names of the modules
in a directory, the file of a module among directories, and the files of all lookup plugins. -/
structure Ecosystem where
  modulePaths : Except Fault (List Path)
  moduleNames : Path → List String
  resolveModule : String → List Path → Option Path
  lookupPlugins : Except Fault (List Path)

abbrev DocumentationReader := Path → Except Fault Documentation

/-- Reads the documentation in the source texts of a file system. -/
def FileSystem.documentation (fs : FileSystem) : DocumentationReader := fun path =>
  match fs.readText path with
  | .error e => .error (.file path e)
  | .ok text => (Documentation.ofSource text).mapError .documentation

/-- Removes the repeats of a list in which equal names stand together. -/
def dropRepeats : List String → List String
  | [] => []
  | [x] => [x]
  | x :: y :: rest => if x = y then dropRepeats (y :: rest) else x :: dropRepeats (y :: rest)

def sortNames (names : List String) : List String :=
  names.mergeSort fun a b => decide (a ≤ b)

namespace Ecosystem

/-- The names of the modules in some directories, in ascending order without repeats. -/
def catalog (e : Ecosystem) (paths : List Path) : List String :=
  dropRepeats (sortNames (paths.flatMap e.moduleNames))

/-- The name under which a lookup plugin is listed: that of its file without extension. -/
def displayName (path : Path) : String :=
  String.ofList (Utf8.decodeLossy (path.stem?.getD []))

/-- The names of the lookup plugins, in the order of the ecosystem. Equal names are all kept. -/
def lookupNames (e : Ecosystem) : Except Fault (List String) :=
  e.lookupPlugins.map fun paths => paths.map displayName

end Ecosystem

end PluginDataset
