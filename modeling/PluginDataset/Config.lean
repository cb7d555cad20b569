import PluginDataset.Fault
import PluginDataset.Toml.Reader

/-!
# Configuration

A configuration names the roots of plugins, the modules that are left out, and the file of the
dataset. It is stored as TOML in the home directory; what is missing there takes a default.

## Main definitions

* `Config` is a configuration; `Config.ofText?` and `Config.text` read and write it.
* `BuildConfig` is a configuration with the home directory filled in.
* `Config.load`, `Config.loadFrom` and `Config.init` work on files.
-/

namespace PluginDataset

/-- A configuration as it is stored. -/
structure Config where
  modulePaths : List String := ["~/.ansible/plugins/modules", "/usr/share/ansible/plugins/modules"]
  lookupPaths : List String := ["~/.ansible/plugins/lookup", "/usr/share/ansible/plugins/lookup"]
  exclude : List String := ["async_wrapper", "accelerate", "fireball"]
  output : String := "data/ansible-data.json"
deriving DecidableEq, Repr

/-- A configuration with the home directory filled in. -/
structure BuildConfig where
  modulePaths : List Path
  lookupPaths : List Path
  exclude : List String
  output : Path
deriving DecidableEq, Repr

/-- The path that a text writes; a tilde at the start, alone or before a separator, stands for the
home directory. -/
def expandHome (home : Path) (s : String) : Path :=
  match s.toList with
  | ['~'] => home
  | '~' :: '/' :: rest =>
    match rest.dropWhile (· == '/') with
    | [] => home
    | rest => home.join (.ofString (String.ofList rest))
  | _ => .ofString s

/-- A configuration with a home directory filled in. -/
def Config.forBuild (c : Config) (home : Path) : BuildConfig where
  modulePaths := c.modulePaths.map (expandHome home)
  lookupPaths := c.lookupPaths.map (expandHome home)
  exclude := c.exclude
  output := expandHome home c.output

namespace Config

/-- The values of the fields of a section, which is a table, or an array of the fields in order. A
date has no fields. -/
def fieldValues? (names : List String) : Toml.Value → Option (List (Option Toml.Value))
  | .table _ entries => some (names.map fun name => Toml.Table.find? name.toList entries)
  | .array items => some (names.mapIdx fun i _ => items[i]?)
  | .tables items =>
    some (names.mapIdx fun i _ => items[i]?.map fun entries => .table .header entries)
  | .dateTime => some (names.map fun _ => none)
  | _ => none

/-- The values of the fields of a section of a document; a missing section has none. -/
def sectionValues? (t : Toml.Table) (name : String) (names : List String) :
    Option (List (Option Toml.Value)) :=
  match t.find? name.toList with
  | none => some (names.map fun _ => none)
  | some v => fieldValues? names v

/-- The text of a field, or a default if it is missing. -/
def stringOr? (default : String) : Option Toml.Value → Option String
  | none => some default
  | some (.string s) => some (String.ofList s)
  | some _ => none

/-- The texts of a field, or a default if it is missing. -/
def stringsOr? (default : List String) : Option Toml.Value → Option (List String)
  | none => some default
  | some (.array items) => items.mapM fun v => stringOr? "" (some v)
  | some _ => none

/-- The configuration in a table. Unknown keys are passed over. -/
def ofTable? (t : Toml.Table) : Option Config := do
  let standard : Config := {}
  let ecosystem ← sectionValues? t "ecosystem" ["module_paths", "lookup_paths"]
  let modules ← sectionValues? t "modules" ["exclude"]
  let output ← sectionValues? t "output" ["path"]
  let modulePaths ← stringsOr? standard.modulePaths (ecosystem.getD 0 none)
  let lookupPaths ← stringsOr? standard.lookupPaths (ecosystem.getD 1 none)
  let exclude ← stringsOr? standard.exclude (modules.getD 0 none)
  let output ← stringOr? standard.output (output.getD 0 none)
  return { modulePaths, lookupPaths, exclude, output }

def ofText? (text : List Char) : Option Config :=
  (Toml.read? text).bind ofTable?

/-- A list of texts: on one line if there are fewer than two, else one on each line. -/
def stringsText (items : List String) : List Char :=
  match items with
  | [] => "[]".toList
  | [s] => '[' :: Toml.stringText s.toList ++ [']']
  | items =>
    '[' :: (items.flatMap fun s => "\n    ".toList ++ Toml.stringText s.toList ++ [',']) ++
      "\n]".toList

def entryText (key : String) (value : List Char) : List Char :=
  key.toList ++ " = ".toList ++ value ++ ['\n']

def headerText (name : String) : List Char :=
  '[' :: name.toList ++ "]\n".toList

def text (c : Config) : List Char :=
  headerText "ecosystem" ++ entryText "module_paths" (stringsText c.modulePaths) ++
    entryText "lookup_paths" (stringsText c.lookupPaths) ++ '\n' ::
    headerText "modules" ++ entryText "exclude" (stringsText c.exclude) ++ '\n' ::
    headerText "output" ++ entryText "path" (Toml.stringText c.output.toList)

def directory (home : Path) : Path :=
  home.join (.ofString ".ansible-data")

def file (home : Path) : Path :=
  (directory home).join (.ofString "ansible-data.toml")

def loadFrom (fs : FileSystem) (path : Path) : Except Fault Config :=
  match fs.readText path with
  | .error e => .error (.file path e)
  | .ok text =>
    match ofText? text with
    | some c => .ok c
    | none => .error (.config (.malformed path))

/-- The stored configuration, or the default one if none is stored. -/
def load (fs : FileSystem) (home : Path) : Except Fault Config :=
  if fs.pathExists (file home) then loadFrom fs (file home) else .ok {}

/-- Stores the default configuration and gives its file. -/
def init (fs : FileSystem) (home : Path) : FileSystem × Except Fault Path :=
  match fs.createDirectories (directory home) with
  | (fs, some e) => (fs, .error (.file (directory home) e))
  | (fs, none) =>
    match fs.write (file home) (Utf8.encode (text {})) with
    | .error e => (fs, .error (.file (file home) e))
    | .ok fs => (fs, .ok (file home))

end Config

end PluginDataset
