import PluginDataset.Json.Basic

/-!
# Datasets

A dataset describes the modules of an installation, the directives of its scripts and its lookup
plugins.

## Main definitions

* `ModuleEntry` describes one module; `ModuleEntry.ofFields` takes it from documentation fields.
* `DirectiveIndex` maps directives to the kinds of script parts that accept them.
* `Dataset` joins the three sections.
-/

namespace PluginDataset

/-- The documented surface of a module. -/
structure ModuleEntry where
  name : String
  shortDescription : Option String
  options : Option Json
  deprecated : Option Json

/-- The name of a module: the one that its documentation declares, if that is a text that is not
empty, or else the name that it was found under. -/
def ModuleEntry.declaredName (name : String) (fields : List (String × Json)) : String :=
  match Keyed.find? "module" fields with
  | some (.string declared) => if declared = "" then name else declared
  | _ => name

def ModuleEntry.field? (key : String) (fields : List (String × Json)) : Option Json :=
  (Keyed.find? key fields).filter (!·.isNull)

/-- The entry of a module from the fields of its documentation. A short description that is no text
is dropped. -/
def ModuleEntry.ofFields (name : String) (fields : List (String × Json)) : ModuleEntry where
  name := declaredName name fields
  shortDescription := (Keyed.find? "short_description" fields).bind Json.string?
  options := field? "options" fields
  deprecated := field? "deprecated" fields

/-- Directives in ascending order, each with the kinds that accept it in the order of aggregation.
-/
abbrev DirectiveIndex := List (String × List String)

/-- The three sections of a dataset. -/
structure Dataset where
  modules : List ModuleEntry
  directives : DirectiveIndex
  lookupPlugins : List String

/-- The sizes of the sections of a dataset. -/
structure DatasetSize where
  modules : Nat
  directives : Nat
  lookupPlugins : Nat
deriving DecidableEq, Repr

def Dataset.size (d : Dataset) : DatasetSize :=
  ⟨d.modules.length, d.directives.length, d.lookupPlugins.length⟩

end PluginDataset
