import PluginDataset.Yaml.Plain
import PluginDataset.Yaml.Tree

/-!
# The value of a YAML document

Anchors are numbered, aliases are followed, and every node gets its value. Collections may be nested
128 deep, aliases included, and following aliases may not take more than a hundred jumps for every
part of the document.

## Main definitions

* `Yaml.link?` replaces the names of anchors and aliases by numbers.
* `Yaml.expand?` gives the value of a node.
* `Yaml.read?` reads a text.
-/

namespace PluginDataset.Yaml

/-- The numbers of the anchors that have been met. -/
abbrev AnchorNumbers := List (List Char × Nat)

/-- Notes an anchor, if there is one, and gives its number. The number is the count of names known
before, also when the name was known. -/
def declare (names : AnchorNumbers) : Option (List Char) → Option Nat × AnchorNumbers
  | none => (none, names)
  | some name =>
    let number := names.length
    (some number, (name, number) :: names.filter (·.1 != name))

mutual

/-- A node with numbers in place of names. An alias has to follow its anchor. -/
def link? (names : AnchorNumbers) : Tree (List Char) → Option (Tree Nat × AnchorNumbers)
  | .alias name => (names.lookup name).map fun n => (.alias n, names)
  | .scalar anchor tag plain text =>
    let (anchor, names) := declare names anchor
    some (.scalar anchor tag plain text, names)
  | .sequence anchor tag items =>
    let (anchor, names) := declare names anchor
    (linkItems? names items).map fun (items, names) => (.sequence anchor tag items, names)
  | .mapping anchor tag entries =>
    let (anchor, names) := declare names anchor
    (linkEntries? names entries).map fun (entries, names) => (.mapping anchor tag entries, names)

def linkItems? (names : AnchorNumbers) :
    List (Tree (List Char)) → Option (List (Tree Nat) × AnchorNumbers)
  | [] => some ([], names)
  | t :: rest =>
    match link? names t with
    | none => none
    | some (t, names) => (linkItems? names rest).map fun (rest, names) => (t :: rest, names)

def linkEntries? (names : AnchorNumbers) :
    List (Tree (List Char) × Tree (List Char)) →
      Option (List (Tree Nat × Tree Nat) × AnchorNumbers)
  | [] => some ([], names)
  | (k, v) :: rest =>
    match link? names k with
    | none => none
    | some (k, names) =>
      match link? names v with
      | none => none
      | some (v, names) =>
        (linkEntries? names rest).map fun (rest, names) => ((k, v) :: rest, names)

end

def underNumber (anchor : Option Nat) (t : Tree Nat) : List (Nat × Tree Nat) :=
  match anchor with
  | some n => [(n, t)]
  | none => []

mutual

/-- The nodes with anchors under their numbers, outer ones before inner ones. -/
def anchored : Tree Nat → List (Nat × Tree Nat)
  | .alias _ => []
  | .scalar anchor tag plain text => underNumber anchor (.scalar anchor tag plain text)
  | .sequence anchor tag items =>
    underNumber anchor (.sequence anchor tag items) ++ anchoredItems items
  | .mapping anchor tag entries =>
    underNumber anchor (.mapping anchor tag entries) ++ anchoredEntries entries

def anchoredItems : List (Tree Nat) → List (Nat × Tree Nat)
  | [] => []
  | t :: rest => anchored t ++ anchoredItems rest

def anchoredEntries : List (Tree Nat × Tree Nat) → List (Nat × Tree Nat)
  | [] => []
  | (k, v) :: rest => anchored k ++ (anchored v ++ anchoredEntries rest)

end

mutual

/-- The number of parts of a node: one for a scalar or an alias, two for a collection. -/
def parts : Tree Nat → Nat
  | .alias _ => 1
  | .scalar _ _ _ _ => 1
  | .sequence _ _ items => partsOfItems items + 2
  | .mapping _ _ entries => partsOfEntries entries + 2

def partsOfItems : List (Tree Nat) → Nat
  | [] => 0
  | t :: rest => parts t + partsOfItems rest

def partsOfEntries : List (Tree Nat × Tree Nat) → Nat
  | [] => 0
  | (k, v) :: rest => parts k + parts v + partsOfEntries rest

end

/-- The name of a local tag: the text after its leading mark, or the mark alone. Tags without the
mark are not local. -/
def localTag? : List UInt8 → Option (List Char)
  | [] => none
  | b :: rest =>
    if b = 0x21 then Utf8.decode? (if rest = [] then [b] else rest) else none

def standardTag (name : String) : List UInt8 :=
  Utf8.encode ("tag:yaml.org,2002:".toList ++ name.toList)

/-- The value of a scalar with a tag that is not local. The four tags of simple types force their
type. A leading mark before bytes that are no text leaves a plain scalar as it is; with any other
tag a scalar is a string. -/
def taggedScalar? (tag : List UInt8) (plain : Bool) (text : List Char) : Option Value :=
  if tag = standardTag "bool" then (boolean? text).map .bool
  else if tag = standardTag "int" then
    match integer? text with
    | some i =>
      match integerMeaning i with
      | .value n => some (.number (.integer n))
      | _ => none
    | none => none
  else if tag = standardTag "float" then (float? text).map .number
  else if tag = standardTag "null" then if isNullWord text then some .null else none
  else if plain && tag.head? == some 0x21 then plainValue? text
  else some (.string text)

/-- The value of a scalar whose local tag is dealt with or absent. -/
def scalarValue? (tagDone : Bool) (tag : Option (List UInt8)) (plain : Bool) (text : List Char) :
    Option Value :=
  match tagDone, tag with
  | false, some tag => taggedScalar? tag plain text
  | _, _ => if plain then plainValue? text else some (.string text)

def Tree.tag? {α : Type} : Tree α → Option (List UInt8)
  | .alias _ => none
  | .scalar _ tag _ _ => tag
  | .sequence _ tag _ => tag
  | .mapping _ tag _ => tag

abbrev Jumping := StateT Nat Option

/-- The node that an alias leads to, at the cost of one jump; any other node itself. -/
def follow (nodes : List (Nat × Tree Nat)) : Tree Nat → Jumping (Tree Nat)
  | .alias n => do
    match ← get with
    | 0 => failure
    | jumps + 1 =>
      set jumps
      match nodes.lookup n with
      | some t => pure t
      | none => failure
  | t => pure t

/-- The value of what a node holds, without its local tag. Nodes inside it get their values from
`inside`, which also takes whether a local tag has been dealt with; there is none where collections
may not be nested any deeper. -/
def contents? (inside : Option (Bool → Tree Nat → Jumping Value)) (tagDone : Bool) :
    Tree Nat → Jumping Value
  | .alias _ => failure
  | .scalar _ tag plain text => (scalarValue? tagDone tag plain text : Option Value)
  | .sequence _ _ items => do
    let inside ← (inside : Option (Bool → Tree Nat → Jumping Value))
    let items ← items.mapM (inside false)
    return .sequence items
  | .mapping _ _ entries => do
    let inside ← (inside : Option (Bool → Tree Nat → Jumping Value))
    let entries ← entries.mapM fun (k, v) => do
      let key ← inside tagDone k
      let value ← inside false v
      return (key, value)
    if Value.hasRepeatedKey entries then failure else return .mapping entries

/-- The value of a node. A local tag is taken off first; the value inside is read as if it had no
tag, and so are the keys of a mapping inside. -/
def nodeValue? (nodes : List (Nat × Tree Nat)) (inside : Option (Bool → Tree Nat → Jumping Value))
    (tagDone : Bool) (t : Tree Nat) : Jumping Value := do
  let t ← follow nodes t
  let localTag := if tagDone then none else t.tag?.bind localTag?
  let value ← contents? inside (tagDone || localTag.isSome) t
  match localTag with
  | some tag => return .tagged tag value
  | none => return value

/-- The value of a node, with collections nested at most `depth` deep. -/
def expand? (nodes : List (Nat × Tree Nat)) : (depth : Nat) → (tagDone : Bool) → Tree Nat →
    Jumping Value
  | 0 => nodeValue? nodes none
  | depth + 1 => nodeValue? nodes (some (expand? nodes depth))

def depthLimit : Nat := 128

/-- The value of the one document that a text holds. -/
def read? (text : List Char) : Option Value := do
  let root ← document? (← tokens? text)
  let (root, _) ← link? [] root
  let nodes := (anchored root).reverse
  let (value, _) ← (expand? nodes depthLimit false root).run (parts root * 100)
  return value

end PluginDataset.Yaml
