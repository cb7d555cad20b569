import PluginDataset.Dataset.Text
import PluginDataset.Fault

/-!
# Reading a dataset from a JSON value

A record is read from an object, whose other members are passed over, or from an array that holds
its fields in order. Members are looked at in the order of the object, and the first one that is of
the wrong type is reported; missing fields are looked for afterwards. A field that may be absent may
be missing or `null`.

## Main definitions

* `Dataset.ofJson` reads a dataset.
* `ModuleEntry.ofJson` reads a module.
-/

namespace PluginDataset

abbrev Decoder (α : Type) := Json → Except SchemaFault α

namespace Schema

def string : Decoder String
  | .string s => .ok s
  | v => .error (.wrongType v "a string")

def list {α : Type} (item : Decoder α) : Decoder (List α)
  | .array items => items.mapM item
  | v => .error (.wrongType v "a sequence")

def map {α : Type} (value : Decoder α) : Decoder (List (String × α))
  | .object members => members.mapM fun (k, v) => (value v).map (k, ·)
  | v => .error (.wrongType v "a map")

def optional {α : Type} (value : Decoder α) : Decoder (Option α)
  | .null => .ok none
  | v => (value v).map some

def any : Decoder Json := .ok

def required {α : Type} (name : String) : Option α → Except SchemaFault α
  | some v => .ok v
  | none => .error (.missingField name)

/-- A record of which the fields are read one by one: `set` reads a field by its name into a partial
record, and passes over other names. -/
structure Fields (α : Type) where
  what : String
  names : List String
  empty : α
  set : α → String → Json → Except SchemaFault α

def Fields.fromItems {α : Type} (f : Fields α) :
    (index : Nat) → α → List String → List Json → Except SchemaFault α
  | _, r, [], [] => .ok r
  | index, _, [], rest => .error (.wrongLength (index + rest.length) "fewer elements in array")
  | index, _, _ :: _, [] =>
    .error (.wrongLength index
      (f.what ++ " with " ++ String.ofList (Text.decimalDigits f.names.length) ++ " elements"))
  | index, r, name :: names, v :: rest => do
    let r ← f.set r name v
    f.fromItems (index + 1) r names rest

def Fields.read {α : Type} (f : Fields α) : Decoder α
  | .object members => members.foldlM (fun r (k, v) => f.set r k v) f.empty
  | .array items => f.fromItems 0 f.empty f.names items
  | v => .error (.wrongType v f.what)

end Schema

/-- The fields of a module as far as they have been read. -/
structure PartialEntry where
  name : Option String := none
  shortDescription : Option String := none
  options : Option Json := none
  deprecated : Option Json := none

def ModuleEntry.fields : Schema.Fields PartialEntry where
  what := "struct ModuleDescriptor"
  names := keys
  empty := {}
  set r key v :=
    if key = "module" then (Schema.string v).map fun s => { r with name := some s }
    else if key = "short_description" then
      (Schema.optional Schema.string v).map fun s => { r with shortDescription := s }
    else if key = "options" then
      (Schema.optional Schema.any v).map fun o => { r with options := o }
    else if key = "deprecated" then
      (Schema.optional Schema.any v).map fun d => { r with deprecated := d }
    else .ok r

def ModuleEntry.ofJson : Decoder ModuleEntry := fun v => do
  let r ← fields.read v
  let name ← Schema.required "module" r.name
  return ⟨name, r.shortDescription, r.options, r.deprecated⟩

/-- The sections of a dataset as far as they have been read. -/
structure PartialDataset where
  modules : Option (List ModuleEntry) := none
  directives : Option DirectiveIndex := none
  lookupPlugins : Option (List String) := none

def Dataset.fields : Schema.Fields PartialDataset where
  what := "struct Dataset"
  names := keys
  empty := {}
  set r key v :=
    if key = "modules" then
      (Schema.list ModuleEntry.ofJson v).map fun m => { r with modules := some m }
    else if key = "directives" then
      (Schema.map (Schema.list Schema.string) v).map fun d => { r with directives := some d }
    else if key = "lookup_plugins" then
      (Schema.list Schema.string v).map fun l => { r with lookupPlugins := some l }
    else .ok r

def Dataset.ofJson : Decoder Dataset := fun v => do
  let r ← fields.read v
  let modules ← Schema.required "modules" r.modules
  let directives ← Schema.required "directives" r.directives
  let lookupPlugins ← Schema.required "lookup_plugins" r.lookupPlugins
  return ⟨modules, directives, lookupPlugins⟩

end PluginDataset
