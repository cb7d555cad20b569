import PluginDataset.Ecosystem.Basic

/-!
# Installed plugins

The ecosystem of a file system. Every root and all its visible sub-directories are searched. Modules
are the candidates directly inside a searched directory; lookup plugins are the `*.py` files of the
lookup roots.

## Main definitions

* `FileSystem.searchDirectories` lists the directories of some roots.
* `FileSystem.candidate?` gives the name of the module that an entry holds.
* `FileSystem.resolveModule` finds the file of a module.
* `FileSystem.lookupPlugins` lists the files of the lookup plugins.
* `FileSystem.ecosystem` joins these answers.
-/

namespace PluginDataset

/-- Whether a directory of this name is passed over: it is hidden, or holds compiled files. Names
that are no text are never passed over. -/
def FileName.isSkipped (n : FileName) : Bool :=
  match n.text? with
  | some text => text.head? == some '.' || text == "__pycache__".toList
  | none => false

/-- Branches in ascending order of their first names. -/
def sortBranches (branches : List (FileName × List (List FileName))) :
    List (FileName × List (List FileName)) :=
  branches.mergeSort fun a b => decide (a.1 ≤ b.1)

mutual

/-- The visible directories below a directory, each by the names that lead to it. A directory comes
before those inside it, and directories side by side are in ascending order. -/
def Node.branches : Node → List (List FileName)
  | .directory entries =>
    (sortBranches (Node.branchesOf entries)).flatMap fun (name, inner) =>
      [name] :: inner.map (name :: ·)
  | _ => []

/-- The entries that are visible directories, each with the directories below it. -/
def Node.branchesOf : List (FileName × Node) → List (FileName × List (List FileName))
  | [] => []
  | (name, n) :: rest =>
    if n.isDirectory && !name.isSkipped then (name, n.branches) :: Node.branchesOf rest
    else Node.branchesOf rest

end

def Path.branch (p : Path) (names : List FileName) : Path :=
  names.foldl Path.child p

/-- Names of entries that are never modules although nothing in their form shows it. -/
def housekeepingFiles : List (List Char) :=
  ["COPYING".toList, "CONTRIBUTING".toList, "LICENSE".toList, "README".toList, "VERSION".toList,
    "GUIDELINES".toList]

def foreignSuffixes : List (List Char) :=
  [".pyc".toList, ".pyo".toList, ".swp".toList, ".bak".toList, "~".toList, ".rpm".toList,
    ".md".toList, ".txt".toList]

def endsWith (s suffix : List Char) : Bool :=
  suffix.reverse.isPrefixOf s.reverse

def containsPart (part : List Char) : List Char → Bool
  | [] => part.isEmpty
  | c :: cs => part.isPrefixOf (c :: cs) || containsPart part cs

/-- The module name that a file name stands for by its form: its stem without leading underscores,
unless the file is hidden, foreign, or kept for housekeeping. -/
def moduleName? (text : List Char) : Option (List Char) :=
  if text.head? == some '.' || foreignSuffixes.any (endsWith text) ||
      "__".toList.isPrefixOf text || housekeepingFiles.contains text then none
  else
    match Utf8.decode? (FileName.stem (Utf8.encode text)) with
    | some stem =>
      match stem.dropWhile (· == '_') with
      | [] => none
      | name => some name
    | none => none

/-- The file name of a module, with a mark in front if it is deprecated. -/
def moduleFile (mark name : String) : Path :=
  Path.ofString (mark ++ name ++ ".py")

/-- Whether the stem of a name is that of a module, which may have an underscore in front. -/
def FileName.isModule (name : String) (n : FileName) : Bool :=
  match n.stem |> Utf8.decode? with
  | some stem => stem == name.toList || stem == '_' :: name.toList
  | none => false

/-- Whether the stem of a name marks the file of a package. -/
def FileName.isPackageFile (n : FileName) : Bool :=
  match n.stem |> Utf8.decode? with
  | some stem => containsPart "__init__".toList stem
  | none => false

namespace FileSystem

/-- The directories below a root, in order. The root itself comes first unless it is a link. -/
def directoriesOf (fs : FileSystem) (root : Path) : List Path :=
  match fs.look? root with
  | some (.directory entries) =>
    let below := (Node.directory entries).branches.map root.branch
    if fs.isPlainDirectory root then root :: below else below
  | _ => []

/-- Paths without those that name the same as an earlier one. -/
def dropSame : (seen : List Path) → List Path → List Path
  | _, [] => []
  | seen, p :: rest =>
    if seen.any p.same then dropSame seen rest else p :: dropSame (p :: seen) rest

/-- The directories of some roots, each once. Roots that do not exist are passed over. -/
def searchDirectories (fs : FileSystem) (roots : List Path) : List Path :=
  dropSame [] (roots.flatMap fs.directoriesOf)

/-- The name of the module that an entry of a directory holds. Directories hold none, nor do links
whose name starts with an underscore, which are other names of a module. -/
def candidate? (fs : FileSystem) (directory : Path) (entry : FileName) : Option String :=
  match entry.text? with
  | none => none
  | some text =>
    let path := directory.child entry
    if fs.isDirectory path || (text.head? == some '_' && fs.isLink path) then none
    else (moduleName? text).map String.ofList

/-- The names of the modules in a directory, in ascending order. A directory that cannot be listed
has none. -/
def moduleNames (fs : FileSystem) (directory : Path) : List String :=
  match fs.list directory with
  | .error _ => []
  | .ok entries => sortNames (entries.filterMap (fs.candidate? directory))

/-- The least entry of a directory that has the stem of a module. -/
def findByStem? (fs : FileSystem) (name : String) (directory : Path) : Option Path :=
  match fs.list directory with
  | .error _ => none
  | .ok entries =>
    ((FileName.sort (entries.filter (FileName.isModule name))).head?).map directory.child

/-- The file of a module: in the first directory that has one under its own name, or else under its
name as deprecated, or else any entry with its stem. -/
def resolveModule (fs : FileSystem) (name : String) (paths : List Path) : Option Path :=
  let named (mark : String) : Option Path :=
    (paths.map fun directory => directory.join (moduleFile mark name)).find? fs.isFile
  named "" <|> named "_" <|> paths.findSome? (fs.findByStem? name)

def lookupsIn (fs : FileSystem) (directory : Path) : Except Fault (List Path) :=
  match fs.list directory with
  | .error e => .error (.file directory e)
  | .ok entries =>
    let isPlugin (entry : FileName) : Bool :=
      fs.isFile (directory.child entry) && entry.extension? == some (FileName.ofString "py")
    let plugins := FileName.sort (entries.filter isPlugin)
    .ok ((plugins.filter (!·.isPackageFile)).map directory.child)

def lookupPlugins (fs : FileSystem) (roots : List Path) : Except Fault (List Path) := do
  let found ← (fs.searchDirectories roots).mapM fs.lookupsIn
  return found.flatten

/-- The ecosystem of plugins that are installed below some roots. -/
def ecosystem (fs : FileSystem) (moduleRoots lookupRoots : List Path) : Ecosystem where
  modulePaths := .ok (fs.searchDirectories moduleRoots)
  moduleNames := fs.moduleNames
  resolveModule := fs.resolveModule
  lookupPlugins := fs.lookupPlugins lookupRoots

end FileSystem

end PluginDataset
