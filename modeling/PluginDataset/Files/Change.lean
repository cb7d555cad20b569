import PluginDataset.Files.FileSystem

/-!
# Changes between file systems

What has to be created or written to turn one tree into another. Removals and links are not
considered, since no command makes any.

## Main definitions

* `Change` is one step, `FileSystem.changesTo` lists the steps in order.
-/

namespace PluginDataset

/-- A directory to create, or a file to write. -/
inductive Change where
  | createDirectory (place : Place)
  | writeFile (place : Place) (bytes : List UInt8)
deriving DecidableEq, Repr

mutual

/-- The steps that make the node `new` of what is at a place. Outer directories come first. -/
def Node.changes (place : Place) (old : Option Node) : (new : Node) → List Change
  | .file bytes =>
    match old with
    | some (.file before) => if before = bytes then [] else [.writeFile place bytes]
    | _ => [.writeFile place bytes]
  | .link _ => []
  | .directory entries =>
    match old with
    | some (.directory before) => Node.changesOf place before entries
    | _ => .createDirectory place :: Node.changesOf place [] entries

/-- The steps that make the entries of a directory. -/
def Node.changesOf (place : Place) (old : List (FileName × Node)) :
    (new : List (FileName × Node)) → List Change
  | [] => []
  | (name, n) :: rest =>
    n.changes (place ++ [name]) (old.lookup name) ++ Node.changesOf place old rest

end

/-- The steps that turn one file system into another. -/
def FileSystem.changesTo (old new : FileSystem) : List Change :=
  new.top.changes [] (some old.top)

def Place.path (place : Place) : Path :=
  place.foldl Path.child ⟨[slash]⟩

end PluginDataset
