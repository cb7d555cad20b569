import PluginDataset.Dataset.Text
import PluginDataset.Digest
import PluginDataset.Fault

/-!
# Storing datasets

A dataset is stored by writing its text to a file. Missing parent directories are created, and a
file that is there is replaced.

## Main definitions

* `Dataset.store` writes a dataset and reports what was written.
-/

namespace PluginDataset

/-- Where a dataset was written, the digest of its bytes and their number. -/
structure StoredDataset where
  output : Path
  sha256 : List Char
  size : Nat
deriving DecidableEq, Repr

namespace Dataset

def bytes (d : Dataset) : List UInt8 :=
  Utf8.encode d.text

def createParents (fs : FileSystem) (path : Path) : FileSystem × Except Fault Unit :=
  match path.parent? with
  | some parent =>
    if parent.bytes = [] then (fs, .ok ())
    else
      match fs.createDirectories parent with
      | (fs, none) => (fs, .ok ())
      | (fs, some e) => (fs, .error (.file parent e))
  | none => (fs, .ok ())

/-- Writes a dataset. The file system that results is given in any case, since directories may have
been created before a fault. -/
def store (fs : FileSystem) (path : Path) (d : Dataset) :
    FileSystem × Except Fault StoredDataset :=
  match createParents fs path with
  | (fs, .error e) => (fs, .error e)
  | (fs, .ok ()) =>
    match fs.write path d.bytes with
    | .error e => (fs, .error (.file path e))
    | .ok fs => (fs, .ok ⟨path, Digest.sha256Hex d.bytes, d.bytes.length⟩)

end Dataset

end PluginDataset
