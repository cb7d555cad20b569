import PluginDataset.Text.Quoted

/-!
# Paths

Paths are sequences of bytes. Two paths name the same thing in the same way when their components
agree: repeated separators, separators at the end and `.` components do not count, except for a `.`
at the start.

## Main definitions

* `Path` is a path; `Path.components` are its components and `Path.same` compares them.
* `Path.join`, `Path.parent?`, `Path.fileName?` build paths and take them apart.
* `FileName.stem` and `FileName.extension?` split a name at its last dot.
-/

namespace PluginDataset

abbrev FileName := List UInt8

def slash : UInt8 := 0x2F

def dot : UInt8 := 0x2E

structure Path where
  bytes : List UInt8
deriving DecidableEq, Repr

/-- A part of a path: the top, the present directory, the directory above, or an entry. -/
inductive Component where
  | top
  | here
  | up
  | name (n : FileName)
deriving DecidableEq, Repr

namespace FileName

/-- A name cut before its last dot, unless there is none or nothing comes before it. -/
def splitLastDot? (n : FileName) : Option (FileName × FileName) :=
  let reversed := n.reverse
  let after := reversed.takeWhile (· != dot)
  match reversed.drop after.length with
  | _ :: before => if before = [] then none else some (before.reverse, after.reverse)
  | [] => none

def stem (n : FileName) : FileName :=
  match splitLastDot? n with
  | some (before, _) => before
  | none => n

def extension? (n : FileName) : Option FileName :=
  (splitLastDot? n).map (·.2)

def ofString (s : String) : FileName :=
  Utf8.encode s.toList

def text? (n : FileName) : Option (List Char) :=
  Utf8.decode? n

def sort (names : List FileName) : List FileName :=
  names.mergeSort fun a b => decide (a ≤ b)

end FileName

namespace Path

def ofString (s : String) : Path :=
  ⟨Utf8.encode s.toList⟩

def display (p : Path) : List Char :=
  Utf8.decodeLossy p.bytes

def consPiece (b : UInt8) : List (List UInt8) → List (List UInt8)
  | [] => [[b]]
  | piece :: rest => (b :: piece) :: rest

/-- The pieces between separators. There is at least one. -/
def pieces : List UInt8 → List (List UInt8)
  | [] => [[]]
  | b :: bs => if b = slash then [] :: pieces bs else consPiece b (pieces bs)

def isAbsolute (p : Path) : Bool :=
  p.bytes.head? == some slash

/-- The component that a piece stands for, when it is not at the start. -/
def component? (piece : List UInt8) : Option Component :=
  if piece = [] ∨ piece = [dot] then none
  else if piece = [dot, dot] then some .up
  else some (.name piece)

def components (p : Path) : List Component :=
  let all := pieces p.bytes
  let start : List Component :=
    if p.isAbsolute then [.top] else if all.head? = some [dot] then [.here] else []
  start ++ all.filterMap component?

def same (p q : Path) : Bool :=
  p.components == q.components

/-- The path of `q` seen from `p`. The text of `p` is kept; an absolute `q` stands for itself. -/
def join (p q : Path) : Path :=
  if q.isAbsolute then q
  else if p.bytes = [] ∨ p.bytes.getLast? = some slash then ⟨p.bytes ++ q.bytes⟩
  else ⟨p.bytes ++ slash :: q.bytes⟩

def child (p : Path) (n : FileName) : Path :=
  p.join ⟨n⟩

def fileName? (p : Path) : Option FileName :=
  match p.components.getLast? with
  | some (.name n) => some n
  | _ => none

def stem? (p : Path) : Option FileName :=
  p.fileName?.map FileName.stem

def extension? (p : Path) : Option FileName :=
  p.fileName?.bind FileName.extension?

/-- Removes separators and `.` components from the end of a path that is given in reverse. -/
def trimReversed : List UInt8 → List UInt8
  | [] => []
  | [b] => [b]
  | a :: b :: rest =>
    if a = slash then trimReversed (b :: rest)
    else if a = dot ∧ b = slash then trimReversed (b :: rest)
    else a :: b :: rest

/-- The path without its last component; the top and the empty path have none. -/
def parent? (p : Path) : Option Path :=
  match p.components with
  | [] => none
  | [.top] => none
  | _ =>
    let trimmed := trimReversed p.bytes.reverse
    some ⟨(trimReversed (trimmed.dropWhile (· != slash))).reverse⟩

end Path

end PluginDataset
