import PluginDataset.BooleanWords
import PluginDataset.Literal.Blocks
import PluginDataset.Yaml.Document

/-!
# Documentation of a module

The documentation that a module's source text carries: the fields of its `DOCUMENTATION` block,
which holds a YAML mapping, and the raw texts of the other two blocks.

## Main definitions

* `Documentation.ofSource` reads a source text.
* `DocumentationFault` lists what can be wrong with it.
-/

namespace PluginDataset

/-- What a module's source text says about the module. -/
structure Documentation where
  fields : List (String × Json)
  examples : Option String := none
  returns : Option String := none

/-- The kinds of values that are no mapping. -/
inductive NonMapping where
  | nothing
  | boolean
  | number
  | string
  | list
deriving DecidableEq, Repr

def NonMapping.message : NonMapping → List Char
  | .nothing => "nothing".toList
  | .boolean => "a boolean".toList
  | .number => "a number".toList
  | .string => "a string".toList
  | .list => "a list".toList

/-- Stands in messages where the reader of a general format would say more. -/
def detail : List Char :=
  "<detail>".toList

/-- Why a module has no documentation. The last cause is given in the words of another reader of
documentation. -/
inductive DocumentationFault where
  | missing
  | block (fault : Literal.BlockFault)
  | malformed
  | notMapping (found : NonMapping)
  | notRepresentable (fault : Yaml.KeyFault)
  | reported (text : String)
deriving DecidableEq, Repr

def DocumentationFault.message : DocumentationFault → List Char
  | .missing => "no DOCUMENTATION block".toList
  | .block fault => fault.message
  | .malformed => "malformed DOCUMENTATION yaml: ".toList ++ detail
  | .notMapping found =>
    "DOCUMENTATION is not a mapping (found ".toList ++ found.message ++ ")".toList
  | .notRepresentable fault =>
    "DOCUMENTATION cannot be represented as JSON: ".toList ++ fault.message
  | .reported text => text.toList

namespace Documentation

def members : Json → Except DocumentationFault (List (String × Json))
  | .object members => .ok members
  | .null => .error (.notMapping .nothing)
  | .bool _ => .error (.notMapping .boolean)
  | .number _ => .error (.notMapping .number)
  | .string _ => .error (.notMapping .string)
  | .array _ => .error (.notMapping .list)

/-- The fields that the text of a `DOCUMENTATION` block holds. -/
def fieldsOfText (text : List Char) : Except DocumentationFault (List (String × Json)) :=
  match Yaml.read? (BooleanWords.normalize text) with
  | none => .error .malformed
  | some value =>
    match value.toJson with
    | .error fault => .error (.notRepresentable fault)
    | .ok json => members json

def ofSource (source : List Char) : Except DocumentationFault Documentation :=
  match Literal.blocks source with
  | .error fault => .error (.block fault)
  | .ok blocks =>
    match blocks.documentation with
    | none => .error .missing
    | some text =>
      (fieldsOfText text).map fun fields =>
        ⟨fields, blocks.examples.map String.ofList, blocks.returns.map String.ofList⟩

end Documentation

end PluginDataset
