import PluginDataset.Yaml.Value

/-!
# Meaning of plain scalars

A plain scalar is a null, a boolean, an integer, a float or a string, by its text alone.

## Main definitions

* `Yaml.integer?` reads integers in base ten, sixteen, eight and two.
* `Yaml.float?` reads floats.
* `Yaml.plainValue?` gives the meaning of a plain scalar.
-/

namespace PluginDataset.Yaml

def startsWithSign : List Char → Bool
  | c :: _ => c == '+' || c == '-'
  | [] => false

def dropPlus : List Char → List Char
  | '+' :: rest => rest
  | s => s

/-- Whether a text consists of at least two digits, the first of them zero, after an optional sign.
Such a text is a string. -/
def isPaddedDigits (s : List Char) : Bool :=
  let digits := if startsWithSign s then s.drop 1 else s
  match digits with
  | '0' :: rest => !rest.isEmpty && rest.all Char.isDigit
  | _ => false

/-- The magnitude that digits write after a mark of their base. -/
def marked? : List Char → Option Nat
  | '0' :: 'x' :: rest => Text.natOfDigits? 16 rest
  | '0' :: 'o' :: rest => Text.natOfDigits? 8 rest
  | '0' :: 'b' :: rest => Text.natOfDigits? 2 rest
  | _ => none

/-- The integer that a text writes, of any size. A sign may precede the mark of a base, but not
follow it; a plus sign may not be followed by another sign. -/
def integer? (s : List Char) : Option Int :=
  match s with
  | '-' :: rest =>
    match marked? rest with
    | some n => some (-(n : Int))
    | none => if isPaddedDigits s then none else (Text.natOfDigits? 10 rest).map fun n => -(n : Int)
  | s =>
    match marked? (dropPlus s) with
    | some n => some n
    | none =>
      if isPaddedDigits s then none else (Text.natOfDigits? 10 (dropPlus s)).map fun n => (n : Int)

/-- The digits of a decimal without sign and exponent, and the number of them after the point. At
least one digit has to be there. -/
def mantissa? (s : List Char) : Option (Nat × Nat) :=
  let whole := s.takeWhile Char.isDigit
  let split? := match s.dropWhile Char.isDigit with
    | [] => some []
    | '.' :: fraction => if fraction.all Char.isDigit then some fraction else none
    | _ => none
  match split? with
  | none => none
  | some fraction => (Text.natOfDigits? 10 (whole ++ fraction)).map (·, fraction.length)

def exponent? : List Char → Option Int
  | '+' :: rest => (Text.natOfDigits? 10 rest).map fun n => (n : Int)
  | '-' :: rest => (Text.natOfDigits? 10 rest).map fun n => -(n : Int)
  | rest => (Text.natOfDigits? 10 rest).map fun n => (n : Int)

/-- The finite float that a decimal text writes, rounded to nearest. -/
def decimal? (s : List Char) : Option Binary64 :=
  let negative := s.head? == some '-'
  let body := if startsWithSign s then s.drop 1 else s
  let isMark (c : Char) : Bool := c == 'e' || c == 'E'
  let exponent := match body.dropWhile (!isMark ·) with
    | [] => some 0
    | _ :: rest => exponent? rest
  match mantissa? (body.takeWhile (!isMark ·)), exponent with
  | some (digits, places), some e => Binary64.ofDecimal? negative digits (e - places)
  | _, _ => none

/-- The float that a text writes. Decimals beyond the largest float are none. -/
def float? (s : List Char) : Option Number :=
  if s = ".nan".toList ∨ s = ".NaN".toList ∨ s = ".NAN".toList then some .notANumber
  else
    let isInfinity (t : List Char) : Bool :=
      t == ".inf".toList || t == ".Inf".toList || t == ".INF".toList
    match s with
    | '-' :: rest => if isInfinity rest then some (.infinite true) else (decimal? s).map .finite
    | '+' :: rest =>
      if startsWithSign rest then none
      else if isInfinity rest then some (.infinite false)
      else (decimal? rest).map .finite
    | s => if isInfinity s then some (.infinite false) else (decimal? s).map .finite

/-- Whether a text is one of the spellings of null. -/
def isNullWord (s : List Char) : Bool :=
  s == "~".toList || s == "null".toList || s == "Null".toList || s == "NULL".toList

def boolean? (s : List Char) : Option Bool :=
  if s = "true".toList ∨ s = "True".toList ∨ s = "TRUE".toList then some true
  else if s = "false".toList ∨ s = "False".toList ∨ s = "FALSE".toList then some false
  else none

/-- The value of an integer; integers of more than 64 and at most 128 bits have none. -/
inductive IntegerMeaning where
  | value (n : Json.Number)
  | refused
  | tooLarge

def integerMeaning (i : Int) : IntegerMeaning :=
  match Json.Number.ofInt? i with
  | some n => .value n
  | none =>
    if -0x80000000000000000000000000000000 ≤ i ∧ i < 0x100000000000000000000000000000000 then
      .refused
    else .tooLarge

/-- The meaning of a plain scalar. Integers too large even for 128 bits are read as floats; a text
that is nothing else is a string. -/
def plainValue? (s : List Char) : Option Value :=
  let otherwise : Option Value :=
    if isPaddedDigits s then some (.string s)
    else
      match float? s with
      | some x => some (.number x)
      | none => some (.string s)
  if s = [] ∨ isNullWord s then some .null
  else
    match boolean? s with
    | some b => some (.bool b)
    | none =>
      match integer? s with
      | some i =>
        match integerMeaning i with
        | .value n => some (.number (.integer n))
        | .refused => none
        | .tooLarge => otherwise
      | none => otherwise

end PluginDataset.Yaml
