import PluginDataset.Json.Basic

/-!
# YAML values

What a document means once aliases are followed and plain scalars are interpreted.

## Main definitions

* `Yaml.Value` is the type of values.
* `Value.same` is equality of values: mappings are equal in any order of their entries.
* `Value.hasRepeatedKey` finds entries with equal keys.
-/

namespace PluginDataset.Yaml

/-- A number. Integers are those of 64 bits, with or without sign. -/
inductive Number where
  | integer (n : Json.Number)
  | finite (x : Binary64)
  | infinite (negative : Bool)
  | notANumber
deriving DecidableEq, Repr

/-- Equality of numbers. An integer differs from the float of the same value; the two zeros are
equal, and so are all that are not numbers. -/
def Number.same : Number → Number → Bool
  | .finite x, .finite y => x.sameValue y
  | a, b => a == b

/-- A value. The tag of a tagged value is given without its leading mark. -/
inductive Value where
  | null
  | bool (b : Bool)
  | number (n : Number)
  | string (s : List Char)
  | sequence (items : List Value)
  | mapping (entries : List (Value × Value))
  | tagged (tag : List Char) (content : Value)

namespace Value

/-- A tag without its leading mark, unless it is the mark alone. -/
def bareTag (tag : List Char) : List Char :=
  match tag with
  | '!' :: c :: rest => c :: rest
  | tag => tag

mutual

def same : Value → Value → Bool
  | .null, .null => true
  | .bool a, .bool b => a == b
  | .number a, .number b => a.same b
  | .string a, .string b => a == b
  | .sequence xs, .sequence ys => sameItems xs ys
  | .mapping xs, .mapping ys => xs.length == ys.length && allIn xs ys
  | .tagged s x, .tagged t y => bareTag s == bareTag t && same x y
  | _, _ => false

def sameItems : List Value → List Value → Bool
  | [], [] => true
  | x :: xs, y :: ys => same x y && sameItems xs ys
  | _, _ => false

/-- Whether each entry has an equal one among others. -/
def allIn : List (Value × Value) → List (Value × Value) → Bool
  | [], _ => true
  | (k, v) :: rest, others =>
    (others.any fun (k', v') => same k k' && same v v') && allIn rest others

end

def hasRepeatedKey : List (Value × Value) → Bool
  | [] => false
  | (k, _) :: rest => (rest.any fun (k', _) => same k k') || hasRepeatedKey rest

end Value

/-- What keeps a value from being written as JSON: a key that is no string, or a key that is a
number without decimal notation. -/
inductive KeyFault where
  | notString
  | notFinite
deriving DecidableEq, Repr

def KeyFault.message : KeyFault → List Char
  | .notString => "key must be a string".toList
  | .notFinite => "float key must be finite (got NaN or +/-inf)".toList

namespace Value

/-- The text of a key of an object. Booleans and numbers become their text. -/
def keyText : Value → Except KeyFault (List Char)
  | .string s => .ok s
  | .bool true => .ok "true".toList
  | .bool false => .ok "false".toList
  | .number (.integer (.natural n)) => .ok (Text.decimalDigits n)
  | .number (.integer (.negative n)) => .ok ('-' :: Text.decimalDigits (n + 1))
  | .number (.integer (.float x)) => .ok x.text
  | .number (.finite x) => .ok x.text
  | .number _ => .error .notFinite
  | _ => .error .notString

/-- A number as JSON; infinities and what is not a number become `null`. -/
def numberJson : Number → Json
  | .integer n => .number n
  | .finite x => .number (.float x)
  | _ => .null

mutual

/-- A value as JSON. A tagged value becomes an object with the tag as its only key. -/
def toJson : Value → Except KeyFault Json
  | .null => .ok .null
  | .bool b => .ok (.bool b)
  | .number n => .ok (numberJson n)
  | .string s => .ok (.ofChars s)
  | .sequence items => (itemsToJson items).map .array
  | .mapping entries => (entriesToJson entries).map fun members => .object (Keyed.ofList members)
  | .tagged tag content =>
    (toJson content).map fun v => .object [(String.ofList ('!' :: bareTag tag), v)]

def itemsToJson : List Value → Except KeyFault (List Json)
  | [] => .ok []
  | v :: rest => do
    let v ← toJson v
    let rest ← itemsToJson rest
    return v :: rest

/-- Entries as JSON, in their order. The key of an entry is looked at before its value. -/
def entriesToJson : List (Value × Value) → Except KeyFault (List (String × Json))
  | [] => .ok []
  | (k, v) :: rest => do
    let key ← keyText k
    let v ← toJson v
    let rest ← entriesToJson rest
    return (String.ofList key, v) :: rest

end

end Value

end PluginDataset.Yaml
