import PluginDataset.Command.Run
import PluginDataset.Files.Change

/-!
# The program

Loads the part of the disk that a command line depends on, runs the command on it, and makes the
changes that result.
-/

namespace PluginDataset.Disk

/-- The path of a place as it is known to the disk. -/
def pathText (place : Place) : String :=
  String.ofList place.path.display

def placeOf (path : String) : Place :=
  (Path.ofString path).components.filterMap fun
    | .name n => some n
    | _ => none

/-- The canonical form of a path, if it leads to anything. -/
def canonical? (path : String) : IO (Option String) := do
  try return some (← IO.FS.realPath path).toString
  catch _ => return none

/-- The names in a directory, if the path leads to one. -/
def names? (path : String) : IO (Option (List FileName)) := do
  try
    let entries ← (← IO.FS.realPath path).readDir
    return some (entries.toList.map fun e => FileName.ofString e.fileName)
  catch _ => return none

/-- The node at a place that is no link: a directory without its entries, or a file. -/
def plainNode? (place : Place) : IO (Option Node) := do
  if (← names? (pathText place)).isSome then return some (.directory [])
  try return some (.file (← IO.FS.readBinFile (pathText place)).toList)
  catch _ => return none

/-- The node of an entry of a directory. The target of a link is given from the top. -/
def node? (directory : Place) (n : FileName) : IO (Option Node) := do
  let place := directory ++ [n]
  match ← canonical? (pathText place) with
  | some path =>
    if placeOf path = place then plainNode? place else return some (.link (.ofString path))
  | none =>
    let listed := (← names? (pathText directory)).getD []
    return if listed.contains n then some (.link ⟨slash :: slash :: n⟩) else none

/-- Loads an entry of a directory that is loaded already. -/
def loadEntry (fs : FileSystem) (directory : Place) (n : FileName) : IO FileSystem := do
  if (fs.at? (directory ++ [n])).isSome then return fs
  match ← node? directory n with
  | some node => return fs.set (directory ++ [n]) node
  | none => return fs

/-- Loads what parts of a path lead to, from a place that is loaded already. The place that the path
leads to is given. -/
def loadParts : (fuel : Nat) → FileSystem → Place → List Component →
    IO (FileSystem × Option Place)
  | 0, fs, _, _ => return (fs, none)
  | _ + 1, fs, place, [] => return (fs, some place)
  | fuel + 1, fs, place, part :: rest => do
    match part with
    | .top => loadParts fuel fs [] rest
    | .here => loadParts fuel fs place rest
    | .up => loadParts fuel fs place.dropLast rest
    | .name n =>
      let fs ← loadEntry fs place n
      match fs.at? (place ++ [n]) with
      | some (.link target) =>
        let r := FileSystem.route place target
        loadParts fuel fs r.start (r.parts ++ rest)
      | some _ => loadParts fuel fs (place ++ [n]) rest
      | none => return (fs, none)

def load (fs : FileSystem) (p : Path) : IO (FileSystem × Option Place) :=
  let r := FileSystem.route fs.working p
  loadParts (p.bytes.length + 10000) fs r.start r.parts

/-- Loads a directory with all that is in it, and what its links lead to. -/
partial def loadDeep (fs : FileSystem) (place : Place) : IO FileSystem := do
  match fs.at? place with
  | some (.directory _) =>
    let mut fs := fs
    for n in (← names? (pathText place)).getD [] do
      fs ← loadEntry fs place n
      match fs.at? (place ++ [n]) with
      | some (.link target) => fs := (← load fs target).1
      | some (.directory _) => fs ← loadDeep fs (place ++ [n])
      | _ => pure ()
    return fs
  | _ => return fs

def apply : Change → IO Unit
  | .createDirectory place => IO.FS.createDirAll (pathText place)
  | .writeFile place bytes => IO.FS.writeBinFile (pathText place) ⟨bytes.toArray⟩

/-- The file system with the working directory of the program, nothing else of it loaded. -/
def start : IO FileSystem := do
  let working := placeOf (← IO.currentDir).toString
  return ⟨Node.set (.directory []) working (.directory []), working⟩

/-- Loads what a run depends on: the configuration first, and then what it names. -/
def loadFor (fs : FileSystem) (home : Path) (i : Invocation) : IO FileSystem := do
  let mut fs := (← load fs (i.config.getD (Config.file home))).1
  match Command.configuration fs home i.config with
  | .error _ => return fs
  | .ok c =>
    let (files, roots) := Command.wanted home c i.task
    for p in files do
      fs := (← load fs p).1
    for p in roots do
      let (loaded, place?) ← load fs p
      fs := loaded
      match place? with
      | some place => fs ← loadDeep fs place
      | none => pure ()
    return fs

def seconds (milliseconds : Nat) : List Char :=
  let tenths := (milliseconds + 50) / 100
  Text.decimalDigits (tenths / 10) ++ '.' :: Text.decimalDigits (tenths % 10) ++ ['s']

end PluginDataset.Disk

open PluginDataset in
def main (args : List String) : IO UInt32 := do
  let begun ← IO.monoMsNow
  let home := Path.ofString ((← IO.getEnv "HOME").getD "/")
  let bare ← Disk.start
  let fs ← match Arguments.parse args with
    | .run i => Disk.loadFor bare home i
    | _ => pure bare
  let elapsed := Disk.seconds ((← IO.monoMsNow) - begun)
  let (new, report) := Command.run fs ⟨home, elapsed⟩ args
  for change in fs.changesTo new do
    Disk.apply change
  IO.print (String.ofList report.output)
  match report.error with
  | some message => IO.eprintln ("Error: " ++ String.ofList message)
  | none => pure ()
  if report.status = 2 then IO.eprintln (String.ofList Command.usageLine)
  return report.status.toUInt32
