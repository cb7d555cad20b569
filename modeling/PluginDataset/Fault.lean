import PluginDataset.Documentation
import PluginDataset.Files.FileSystem

/-!
# Faults

What can go wrong, by cause, and the words in which it is reported.

## Main definitions

* `Fault` is the type of faults; `Fault.message` gives their words.
* `ValidationFault` lists what can be wrong with a stored dataset.
-/

namespace PluginDataset

/-- Why a configuration cannot be used. -/
inductive ConfigFault where
  | malformed (path : Path)
  | reported (text : String)
deriving DecidableEq, Repr

def ConfigFault.message : ConfigFault → List Char
  | .malformed path => "failed to parse ".toList ++ path.display ++ ": ".toList ++ detail
  | .reported text => text.toList

/-- Why a value is not of the form that a dataset prescribes. -/
inductive SchemaFault where
  | missingField (name : String)
  | wrongLength (found : Nat) (expected : String)
  | wrongType (found : Json) (expected : String)

/-- The words for a value that is of the wrong type. -/
def SchemaFault.describe : Json → List Char
  | .null => "null".toList
  | .bool true => "boolean \x60true\x60".toList
  | .bool false => "boolean \x60false\x60".toList
  | .number (.natural n) => "integer \x60".toList ++ Text.decimalDigits n ++ ['\x60']
  | .number (.negative n) => "integer \x60-".toList ++ Text.decimalDigits (n + 1) ++ ['\x60']
  | .number (.float x) => "floating point \x60".toList ++ x.text ++ ['\x60']
  | .string s => "string ".toList ++ Text.quoted s.toList
  | .array _ => "sequence".toList
  | .object _ => "map".toList

def SchemaFault.message : SchemaFault → List Char
  | .missingField name => "missing field \x60".toList ++ name.toList ++ ['\x60']
  | .wrongLength found expected =>
    "invalid length ".toList ++ Text.decimalDigits found ++ ", expected ".toList ++ expected.toList
  | .wrongType found expected =>
    "invalid type: ".toList ++ SchemaFault.describe found ++ ", expected ".toList ++ expected.toList

/-- What is wrong with a stored dataset. -/
inductive ValidationFault where
  | notUtf8 (path : Path)
  | malformed
  | rootNotObject
  | wrongKeys (what : String) (found expected : List String)
  | modulesNotList
  | entryNotObject
  | nameNotString
  | outOfOrder (name previous : String)
  | schema (fault : SchemaFault)
  | unreadable (fault : SchemaFault)
  | wrongOverride (key : String) (kinds : List String)
  | reported (text : String)

def quotedNames (names : List String) : List Char :=
  Text.quotedList (names.map String.toList)

def ValidationFault.message : ValidationFault → List Char
  | .notUtf8 path => path.display ++ " is not valid UTF-8".toList
  | .malformed => "invalid dataset JSON: ".toList ++ detail
  | .rootNotObject => "dataset root is not an object".toList
  | .wrongKeys what found expected =>
    what.toList ++ " keys are ".toList ++ quotedNames found ++ ", expected ".toList ++
      quotedNames expected
  | .modulesNotList => "modules is not a list".toList
  | .entryNotObject => "module entry is not an object".toList
  | .nameNotString => "module name is not a string".toList
  | .outOfOrder name previous =>
    "module ".toList ++ Text.quoted name.toList ++
      " is out of order or duplicated (after ".toList ++ Text.quoted previous.toList ++ [')']
  | .schema fault => "dataset schema mismatch: ".toList ++ fault.message
  | .unreadable fault => "deserialize: ".toList ++ fault.message
  | .wrongOverride key kinds =>
    "directive ".toList ++ Text.quoted key.toList ++ " must be ".toList ++ quotedNames kinds
  | .reported text => text.toList

/-- What can go wrong. Discovery reports its faults in its own words. -/
inductive Fault where
  | config (fault : ConfigFault)
  | discovery (text : String)
  | documentation (fault : DocumentationFault)
  | file (path : Path) (fault : FileFault)
  | validation (fault : ValidationFault)

def Fault.message : Fault → List Char
  | .config fault => "config error: ".toList ++ fault.message
  | .discovery text => "discovery error: ".toList ++ text.toList
  | .documentation fault => "parse error: ".toList ++ fault.message
  | .file path fault =>
    "I/O error at ".toList ++ Text.quotedBytes path.bytes ++ ": ".toList ++ fault.message
  | .validation fault => "validation error: ".toList ++ fault.message

section

variable {ε α β : Type} {x : Except ε α}

/-- A step after one that may fail gives a result if both do. -/
theorem bind_eq_ok_iff {f : α → Except ε β} {r : β} :
    (x >>= f) = .ok r ↔ ∃ a, x = .ok a ∧ f a = .ok r := by
  cases x <;> simp [bind, Except.bind]

theorem map_eq_ok_iff {f : α → β} {r : β} : x.map f = .ok r ↔ ∃ a, x = .ok a ∧ f a = r := by
  cases x <;> simp [Except.map]

end

end PluginDataset
