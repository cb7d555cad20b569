import PluginDataset.Keyed
import PluginDataset.Number.Shortest

/-!
# JSON values

Free-form values as documentation and datasets carry them. Integers are those of 64 bits, with or
without sign; other numbers are finite binary64 numbers. The members of an object stand in
ascending order of their keys.

## Main definitions

* `Json` is the type of values, `Json.Number` that of numbers.
* `Json.Canonical` says that all objects inside a value are in order, without a repeated key.
-/

namespace PluginDataset

/-- A JSON number: a natural number, the negative integer `-(n + 1)`, or a binary64 number. -/
inductive Json.Number where
  | natural (n : Fin (0x10000000000000000))
  | negative (n : Fin (0x8000000000000000))
  | float (x : Binary64)
deriving DecidableEq, Repr

inductive Json where
  | null
  | bool (b : Bool)
  | number (n : Json.Number)
  | string (s : String)
  | array (items : List Json)
  | object (members : List (String × Json))
deriving Repr

namespace Json

instance : Inhabited Json := ⟨.null⟩

def Number.ofInt? (i : Int) : Option Number :=
  if i < 0 then
    if h : (-i - 1).toNat < 0x8000000000000000 then some (.negative ⟨_, h⟩) else none
  else
    if h : i.toNat < 0x10000000000000000 then some (.natural ⟨_, h⟩) else none

/-- The number of items of a list. Lists are never longer than 64 bits can count. -/
def ofCount (n : Nat) : Json :=
  .number (.natural (Fin.ofNat _ n))

def ofChars (s : List Char) : Json :=
  .string (String.ofList s)

def ofStrings (names : List String) : Json :=
  .array (names.map .string)

/-- A value that may be absent, with `null` for absence. -/
def ofOption (v : Option Json) : Json :=
  v.getD .null

def isNull : Json → Bool
  | .null => true
  | _ => false

def string? : Json → Option String
  | .string s => some s
  | _ => none

def array? : Json → Option (List Json)
  | .array items => some items
  | _ => none

def object? : Json → Option (List (String × Json))
  | .object members => some members
  | _ => none

mutual

/-- Every object inside the value lists its members in ascending order of distinct keys. -/
def Canonical : Json → Prop
  | .array items => CanonicalItems items
  | .object members => Keyed.Ascending members ∧ CanonicalMembers members
  | _ => True

def CanonicalItems : List Json → Prop
  | [] => True
  | v :: rest => Canonical v ∧ CanonicalItems rest

def CanonicalMembers : List (String × Json) → Prop
  | [] => True
  | (_, v) :: rest => Canonical v ∧ CanonicalMembers rest

end

mutual

/-- The number of nested arrays and objects around the deepest value. -/
def depth : Json → Nat
  | .array items => depthItems items + 1
  | .object members => depthMembers members + 1
  | _ => 0

def depthItems : List Json → Nat
  | [] => 0
  | v :: rest => max (depth v) (depthItems rest)

def depthMembers : List (String × Json) → Nat
  | [] => 0
  | (_, v) :: rest => max (depth v) (depthMembers rest)

end

end Json

end PluginDataset
