import PluginDataset.Build
import PluginDataset.Command.Arguments
import PluginDataset.Config
import PluginDataset.Dataset.Validation

/-!
# Running commands

What a command writes to standard output, its exit status, its error message, and what it does to
the file system.

## Main definitions

* `Report` is what a command shows.
* `Command.run` runs a command line.
-/

namespace PluginDataset

/-- What a command shows: its exit status, its standard output, and the message of its error. -/
structure Report where
  status : Nat
  output : List Char
  error : Option (List Char)
deriving DecidableEq, Repr

def Report.success (output : List Char) : Report :=
  ⟨0, output, none⟩

def Report.failure (message : List Char) : Report :=
  ⟨1, [], some message⟩

def linesText (lines : List (List Char)) : List Char :=
  lines.flatMap (· ++ ['\n'])

/-- The number of times that each text occurs, in ascending order of texts. -/
def tally (texts : List String) : List (String × Nat) :=
  texts.foldl (fun counts t => Keyed.update t (fun n => n.getD 0 + 1) counts) []

def BuildResult.lines (r : BuildResult) (elapsed : List Char) : List (List Char) :=
  let reasons := tally (r.skipped.map fun m => String.ofList m.reason.summary)
  [[], "  Dataset written!".toList,
    "  Modules:    ".toList ++ Text.decimalDigits r.size.modules,
    "  Skipped:    ".toList ++ Text.decimalDigits r.skipped.length] ++
  (reasons.map fun (reason, n) =>
    "    ".toList ++ reason.toList ++ ": ".toList ++ Text.decimalDigits n) ++
  ["  Directives: ".toList ++ Text.decimalDigits r.size.directives,
    "  Lookups:    ".toList ++ Text.decimalDigits r.size.lookupPlugins,
    "  Path:       ".toList ++ r.stored.output.display,
    "  SHA-256:    ".toList ++ r.stored.sha256,
    "  Time:       ".toList ++ elapsed, []]

/-- What a command depends on besides the file system: the home directory, and the words for the
time that a build takes. -/
structure Surroundings where
  home : Path
  elapsed : List Char

namespace Command

/-- The configuration in the given file, or the stored one. -/
def configuration (fs : FileSystem) (home : Path) : Option Path → Except (List Char) Config
  | some path =>
    if fs.pathExists path then (Config.loadFrom fs path).mapError Fault.message
    else .error ("config file '".toList ++ path.display ++ "' does not exist".toList)
  | none => (Config.load fs home).mapError Fault.message

def runBuild (fs : FileSystem) (s : Surroundings) (c : Config) : FileSystem × Report :=
  let b := c.forBuild s.home
  match build (fs.sources b.modulePaths b.lookupPaths) b.exclude b.output fs with
  | (fs, _, .error e) => (fs, .failure e.message)
  | (fs, _, .ok r) => (fs, .success (linesText (r.lines s.elapsed)))

/-- Checks a dataset: the given one, or the one that the configuration names. -/
def runValidate (fs : FileSystem) (s : Surroundings) (c : Config) (path : Option Path) : Report :=
  let path := path.getD (c.forBuild s.home).output
  if fs.pathExists path then
    match Dataset.validate fs path with
    | .error e => .failure e.message
    | .ok size =>
      .success (linesText [path.display ++ " is valid: ".toList ++
        Text.decimalDigits size.modules ++ " modules, ".toList ++
        Text.decimalDigits size.directives ++ " directives, ".toList ++
        Text.decimalDigits size.lookupPlugins ++ " lookup plugins".toList])
  else
    .failure ("no dataset found at '".toList ++ path.display ++
      "' — run \x60ansible-data build\x60 first".toList)

def runInitConfig (fs : FileSystem) (s : Surroundings) : FileSystem × Report :=
  match Config.init fs s.home with
  | (fs, .error e) => (fs, .failure e.message)
  | (fs, .ok path) =>
    (fs, .success (linesText ["Config initialized at: ".toList ++ path.display]))

/-- The files that a task looks at or writes, and the directories that it searches. -/
def wanted (home : Path) (c : Config) : Task → List Path × List Path
  | .build =>
    let b := c.forBuild home
    ([b.output], b.modulePaths ++ b.lookupPaths)
  | .validate path => ([path.getD (c.forBuild home).output], [])
  | .initConfig => ([Config.file home], [])
  | .showConfig => ([], [])

def runInvocation (fs : FileSystem) (s : Surroundings) (i : Invocation) : FileSystem × Report :=
  match configuration fs s.home i.config with
  | .error message => (fs, .failure message)
  | .ok c =>
    match i.task with
    | .build => runBuild fs s c
    | .validate path => (fs, runValidate fs s c path)
    | .initConfig => runInitConfig fs s
    | .showConfig => (fs, .success (linesText [c.text]))

def versionLine : List Char :=
  "ansible-data 0.1.0".toList

def usageLine : List Char :=
  "Usage: ansible-data [OPTIONS] [COMMAND]".toList

/-- Runs a command line. Mistakes in the arguments have an exit status of their own. -/
def run (fs : FileSystem) (s : Surroundings) (args : List String) : FileSystem × Report :=
  match Arguments.parse args with
  | .run i => runInvocation fs s i
  | .version => (fs, .success (linesText [versionLine]))
  | .help => (fs, .success (linesText [usageLine]))
  | .mistake => (fs, ⟨2, [], none⟩)

end Command

end PluginDataset
