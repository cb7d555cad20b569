import PluginDataset.Dataset.Basic
import PluginDataset.Json.Printer

/-!
# Text of a dataset

A dataset is stored as JSON over several lines. Sections and the fields of a module stand in a fixed
order, and absent fields are `null`.

## Main definitions

* `Dataset.toJson` and `Dataset.text` give the stored form.
-/

namespace PluginDataset

/-- The fields of a module, in the order in which they are written. -/
def ModuleEntry.keys : List String :=
  ["module", "short_description", "options", "deprecated"]

/-- The sections of a dataset, in the order in which they are written. -/
def Dataset.keys : List String :=
  ["modules", "directives", "lookup_plugins"]

def ModuleEntry.toJson (m : ModuleEntry) : Json :=
  .object [
    ("module", .string m.name),
    ("short_description", .ofOption (m.shortDescription.map .string)),
    ("options", .ofOption m.options),
    ("deprecated", .ofOption m.deprecated)]

def DirectiveIndex.toJson (index : DirectiveIndex) : Json :=
  .object (index.map fun (key, kinds) => (key, .ofStrings kinds))

def Dataset.toJson (d : Dataset) : Json :=
  .object [
    ("modules", .array (d.modules.map ModuleEntry.toJson)),
    ("directives", DirectiveIndex.toJson d.directives),
    ("lookup_plugins", .ofStrings d.lookupPlugins)]

def Dataset.text (d : Dataset) : List Char :=
  d.toJson.pretty

end PluginDataset
