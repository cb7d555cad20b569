import PluginDataset.Dataset.Schema
import PluginDataset.Directive
import PluginDataset.Json.Reader

/-!
# Validation of stored datasets

A stored dataset is strict JSON with exactly the three sections. Its modules carry exactly the four
fields and stand in ascending order of distinct names, and the built-in overrides are in place.

## Main definitions

* `Dataset.validateText` checks a text and counts its sections.
* `Dataset.validate` checks a file.
-/

namespace PluginDataset

namespace Dataset

/-- The number of arrays and objects that may be nested in a stored dataset. -/
def nestingLimit : Nat := 127

/-- Checks that members have exactly the given keys. -/
def checkKeys (what : String) (expected : List String) (members : List (String × Json)) :
    Except ValidationFault Unit :=
  let found := Keyed.keys members
  let known := found.all fun k => expected.contains k
  let complete := expected.all fun k => found.contains k
  if known && complete then .ok () else .error (.wrongKeys what found expected)

/-- The value of a member; members that have been checked for their keys have one. -/
def member (key : String) (members : List (String × Json)) : Json :=
  (Keyed.find? key members).getD .null

/-- Checks one module and that its name comes after the previous one. Its name is given. -/
def checkEntry (previous : Option String) (entry : Json) : Except ValidationFault String :=
  match entry with
  | .object members => do
    checkKeys "module entry" ModuleEntry.keys members
    match member "module" members with
    | .string name =>
      match previous with
      | some before => if name ≤ before then .error (.outOfOrder name before) else .ok name
      | none => .ok name
    | _ => .error .nameNotString
  | _ => .error .entryNotObject

/-- Checks modules in order, after one with the name `previous`. -/
def checkEntries : (previous : Option String) → List Json → Except ValidationFault Unit
  | _, [] => .ok ()
  | previous, entry :: rest => do
    let name ← checkEntry previous entry
    checkEntries (some name) rest

def checkModules : Json → Except ValidationFault Unit
  | .array entries => checkEntries none entries
  | _ => .error .modulesNotList

def checkOverrides (index : DirectiveIndex) : List DirectiveOverride → Except ValidationFault Unit
  | [] => .ok ()
  | o :: rest =>
    if Keyed.find? o.key index = some o.kinds then checkOverrides index rest
    else .error (.wrongOverride o.key o.kinds)

def validateJson (v : Json) : Except ValidationFault DatasetSize :=
  match v with
  | .object members => do
    checkKeys "dataset" keys members
    checkModules (member "modules" members)
    let d ← (ofJson v).mapError ValidationFault.schema
    checkOverrides d.directives DirectiveOverride.all
    return d.size
  | _ => .error .rootNotObject

def validateText (text : List Char) : Except ValidationFault DatasetSize :=
  match Json.read? nestingLimit text with
  | none => .error .malformed
  | some v => validateJson v

def validate (fs : FileSystem) (path : Path) : Except Fault DatasetSize :=
  match fs.readText path with
  | .error .notUtf8 => .error (.validation (.notUtf8 path))
  | .error e => .error (.file path e)
  | .ok text => (validateText text).mapError .validation

end Dataset

end PluginDataset
