import PluginDataset.Files.Path

/-!
# File systems

A file system is a tree of directories, files and symbolic links, seen from a working directory.
Paths are looked up one part at a time, and links on the way are followed up to a limit.

## Main definitions

* `Node` is a part of the tree; `Node.at?` looks at a place in it.
* `FileSystem` is a tree with a working directory.
* `FileSystem.find` finds what a path leads to.
* `FileSystem.read`, `FileSystem.list`, `FileSystem.write` and `FileSystem.createDirectories` are
  the operations that the program uses.
-/

namespace PluginDataset

/-- A file with its contents, a symbolic link with its target, or a directory with its entries in
the order in which they are listed. -/
inductive Node where
  | file (bytes : List UInt8)
  | link (target : Path)
  | directory (entries : List (FileName × Node))

/-- The names that lead from the top of a tree to a part of it. -/
abbrev Place := List FileName

namespace Node

def isDirectory : Node → Bool
  | .directory _ => true
  | _ => false

def at? : Node → Place → Option Node
  | n, [] => some n
  | .directory entries, name :: rest =>
    match entries.lookup name with
    | some child => child.at? rest
    | none => none
  | _, _ :: _ => none

def setEntry (name : FileName) (n : Node) : List (FileName × Node) → List (FileName × Node)
  | [] => [(name, n)]
  | (k, m) :: rest => if name = k then (k, n) :: rest else (k, m) :: setEntry name n rest

/-- The tree with `new` at a place. Directories that are missing on the way are created; a place
inside a file or a link stays as it is. -/
def set (new : Node) : Place → Node → Node
  | [], _ => new
  | name :: rest, .directory entries =>
    .directory (setEntry name (set new rest ((entries.lookup name).getD (.directory []))) entries)
  | _ :: _, n => n

def remove : Place → Node → Node
  | [], n => n
  | [name], .directory entries => .directory (entries.filter (·.1 != name))
  | name :: rest, .directory entries =>
    match entries.lookup name with
    | some child => .directory (setEntry name (remove rest child) entries)
    | none => .directory entries
  | _ :: _, n => n

end Node

/-- Why an operation on files fails. The last cause is given in the words of another system. -/
inductive FileFault where
  | notFound
  | alreadyExists
  | notADirectory
  | isADirectory
  | tooManyLinks
  | notUtf8
  | reported (text : String)
deriving DecidableEq, Repr

def FileFault.message : FileFault → List Char
  | .notFound => "No such file or directory (os error 2)".toList
  | .alreadyExists => "File exists (os error 17)".toList
  | .notADirectory => "Not a directory (os error 20)".toList
  | .isADirectory => "Is a directory (os error 21)".toList
  | .tooManyLinks => "Too many levels of symbolic links (os error 40)".toList
  | .notUtf8 => "stream did not contain valid UTF-8".toList
  | .reported text => text.toList

/-- A tree and the place of the working directory in it. -/
structure FileSystem where
  top : Node
  working : Place

/-- A path that is still to be walked from a place. With `slash` it is written with a separator at
its end, so that only a directory will do. -/
structure Route where
  start : Place
  parts : List Component
  slash : Bool

/-- Where a path leads: to a node, or to a name that is missing in a directory. -/
inductive Goal where
  | found (place : Place) (slash : Bool)
  | missing (directory : Place) (name : FileName)

/-- What is to be done with what a path leads to. A link at the end of the path is itself inspected;
what it leads to is used or written. -/
inductive Purpose where
  | inspect
  | use
  | write
deriving DecidableEq, Repr

namespace FileSystem

def at? (fs : FileSystem) (place : Place) : Option Node :=
  fs.top.at? place

/-- The part of a path that a piece between separators stands for. -/
def part? (piece : List UInt8) : Option Component :=
  if piece = [] then none
  else if piece = [dot] then some .here
  else if piece = [dot, dot] then some .up
  else some (.name piece)

/-- The route of a path that is written in a directory. -/
def route (directory : Place) (p : Path) : Route where
  start := if p.isAbsolute then [] else directory
  parts := (Path.pieces p.bytes).filterMap part?
  slash := p.bytes.getLast? == some slash

/-- Walks along parts from a place. A link that has to be followed is handed to `onLink` with the
rest of the route. No file can be written to at a name with a separator after it, whatever the name
leads to. -/
def walk (fs : FileSystem) (purpose : Purpose) (slash : Bool)
    (onLink : Route → Except FileFault Goal) :
    Place → List Component → Except FileFault Goal
  | place, [] => .ok (.found place slash)
  | place, part :: rest =>
    match fs.at? place with
    | none => .error .notFound
    | some (.directory entries) =>
      match part with
      | .top => walk fs purpose slash onLink [] rest
      | .here => walk fs purpose slash onLink place rest
      | .up => walk fs purpose slash onLink place.dropLast rest
      | .name n =>
        if rest = [] ∧ purpose = .write ∧ slash then .error .isADirectory
        else
          match entries.lookup n with
          | none => if rest = [] then .ok (.missing place n) else .error .notFound
          | some (.link target) =>
            if rest = [] ∧ purpose = .inspect then .ok (.found (place ++ [n]) slash)
            else if target.bytes = [] then .error .notFound
            else
              let onward := route place target
              onLink ⟨onward.start, onward.parts ++ rest, slash || (rest = [] && onward.slash)⟩
          | some _ => walk fs purpose slash onLink (place ++ [n]) rest
    | some _ => .error .notADirectory

/-- The greatest number of links that a path may lead through. -/
def linkLimit : Nat := 40

/-- Walks a route that may lead through at most the given number of links. -/
def follow (fs : FileSystem) (purpose : Purpose) : (links : Nat) → Route → Except FileFault Goal
  | 0, r => fs.walk purpose r.slash (fun _ => .error .tooManyLinks) r.start r.parts
  | links + 1, r => fs.walk purpose r.slash (follow fs purpose links) r.start r.parts

/-- Where a path leads. A link at the end is followed also for inspection if a separator comes after
it. -/
def goal (fs : FileSystem) (purpose : Purpose) (p : Path) : Except FileFault Goal :=
  if p.bytes = [] then .error .notFound
  else
    let r := route fs.working p
    fs.follow (if r.slash ∧ purpose = .inspect then .use else purpose) linkLimit r

def find (fs : FileSystem) (purpose : Purpose) (p : Path) : Except FileFault (Place × Node) :=
  match fs.goal purpose p with
  | .error e => .error e
  | .ok (.missing _ _) => .error .notFound
  | .ok (.found place slash) =>
    match fs.at? place with
    | none => .error .notFound
    | some n => if slash && !n.isDirectory then .error .notADirectory else .ok (place, n)

/-- The node that a path leads to, links at the end included. -/
def look? (fs : FileSystem) (p : Path) : Option Node :=
  (fs.find .use p).toOption.map (·.2)

def pathExists (fs : FileSystem) (p : Path) : Bool :=
  (fs.look? p).isSome

def isDirectory (fs : FileSystem) (p : Path) : Bool :=
  match fs.look? p with
  | some (.directory _) => true
  | _ => false

def isFile (fs : FileSystem) (p : Path) : Bool :=
  match fs.look? p with
  | some (.file _) => true
  | _ => false

/-- Whether the path itself is a directory, and not a link to one. -/
def isPlainDirectory (fs : FileSystem) (p : Path) : Bool :=
  match fs.find .inspect p with
  | .ok (_, .directory _) => true
  | _ => false

def isLink (fs : FileSystem) (p : Path) : Bool :=
  match fs.find .inspect p with
  | .ok (_, .link _) => true
  | _ => false

def read (fs : FileSystem) (p : Path) : Except FileFault (List UInt8) :=
  match fs.find .use p with
  | .error e => .error e
  | .ok (_, .file bytes) => .ok bytes
  | .ok (_, .directory _) => .error .isADirectory
  | .ok (_, .link _) => .error .tooManyLinks

def readText (fs : FileSystem) (p : Path) : Except FileFault (List Char) :=
  match fs.read p with
  | .error e => .error e
  | .ok bytes =>
    match Utf8.decode? bytes with
    | some text => .ok text
    | none => .error .notUtf8

/-- The names in a directory, in the order in which they are listed. -/
def list (fs : FileSystem) (p : Path) : Except FileFault (List FileName) :=
  match fs.find .use p with
  | .error e => .error e
  | .ok (_, .directory entries) => .ok (entries.map (·.1))
  | .ok _ => .error .notADirectory

def set (fs : FileSystem) (place : Place) (n : Node) : FileSystem :=
  { fs with top := Node.set n place fs.top }

/-- Writes a file, which is created if it is missing. -/
def write (fs : FileSystem) (p : Path) (bytes : List UInt8) : Except FileFault FileSystem :=
  match fs.goal .write p with
  | .error e => .error e
  | .ok (.missing directory name) => .ok (fs.set (directory ++ [name]) (.file bytes))
  | .ok (.found place slash) =>
    match fs.at? place with
    | some (.file _) => if slash then .error .notADirectory else .ok (fs.set place (.file bytes))
    | some (.directory _) => .error .isADirectory
    | _ => .error .notFound

/-- Creates a directory whose parent exists. A link at the end is not followed. -/
def createDirectory (fs : FileSystem) (p : Path) : Except FileFault FileSystem :=
  if p.bytes = [] then .error .notFound
  else
    let r := route fs.working p
    match fs.follow .inspect linkLimit { r with slash := false } with
    | .error e => .error e
    | .ok (.found _ _) => .error .alreadyExists
    | .ok (.missing directory name) => .ok (fs.set (directory ++ [name]) (.directory []))

/-- Creates a directory and its missing parents. `fuel` bounds the number of parents. -/
def createDirectoriesWith : (fuel : Nat) → FileSystem → Path →
    FileSystem × Option FileFault
  | 0, fs, _ => (fs, some .notFound)
  | fuel + 1, fs, p =>
    if p.bytes = [] then (fs, none)
    else
      match fs.createDirectory p with
      | .ok fs => (fs, none)
      | .error .notFound =>
        match p.parent? with
        | none => (fs, some .notFound)
        | some parent =>
          match createDirectoriesWith fuel fs parent with
          | (fs, some e) => (fs, some e)
          | (fs, none) =>
            match fs.createDirectory p with
            | .ok fs => (fs, none)
            | .error e => if fs.isDirectory p then (fs, none) else (fs, some e)
      | .error e => if fs.isDirectory p then (fs, none) else (fs, some e)

/-- Creates a directory and its missing parents. The file system that results is given in any case,
since some parents may have been created before a fault. -/
def createDirectories (fs : FileSystem) (p : Path) : FileSystem × Option FileFault :=
  createDirectoriesWith (p.bytes.length + 1) fs p

/-- Creates a symbolic link at a path where nothing is. -/
def createLink (fs : FileSystem) (p target : Path) : Except FileFault FileSystem :=
  match fs.goal .inspect p with
  | .error e => .error e
  | .ok (.found _ _) => .error .alreadyExists
  | .ok (.missing directory name) => .ok (fs.set (directory ++ [name]) (.link target))

/-- Removes an entry, a directory with all that is in it. A link at the end is not followed. -/
def remove (fs : FileSystem) (p : Path) : Except FileFault FileSystem :=
  match fs.find .inspect p with
  | .error e => .error e
  | .ok (place, _) => .ok { fs with top := Node.remove place fs.top }

end FileSystem

end PluginDataset
