import PluginDataset.Json.Basic

/-!
# Reading JSON text

Strict reading: one value between blanks, no trailing commas, no unpaired surrogates, no numbers
beyond binary64, and at most a given number of nested arrays and objects. A key met twice keeps its
last value.

## Main definitions

* `Json.read?` reads a text with a limit on nesting.
* `Json.readString?` reads the characters of a string after its opening quote.
* `Json.readNumber?` reads a number.
-/

namespace PluginDataset.Json

def isSpace (c : Char) : Bool :=
  c == ' ' || c == '\n' || c == '\t' || c == '\r'

def skipBlanks (s : List Char) : List Char :=
  s.dropWhile isSpace

/-- The character that a letter after a backslash stands for. -/
def escapeChar? : Char → Option Char
  | '"' => some '"'
  | '\\' => some '\\'
  | '/' => some '/'
  | 'b' => some '\x08'
  | 'f' => some '\x0C'
  | 'n' => some '\n'
  | 'r' => some '\r'
  | 't' => some '\t'
  | _ => none

def codeUnit? (a b c d : Char) : Option Nat :=
  Text.natOfDigits? 16 [a, b, c, d]

/-- Adds a character in front of a string that has been read. -/
def consChar (c : Char) (r : Option (List Char × List Char)) : Option (List Char × List Char) :=
  r.map fun (s, rest) => (c :: s, rest)

/-- The characters of a string up to its closing quote, and the text after that quote. A code unit
of the first surrogate range has to be followed by one of the second, written the same way. -/
def readString? : List Char → Option (List Char × List Char)
  | [] => none
  | '"' :: rest => some ([], rest)
  | '\\' :: 'u' :: a :: b :: c :: d :: rest =>
    match codeUnit? a b c d with
    | none => none
    | some high =>
      if 0xD800 ≤ high ∧ high < 0xDC00 then
        match rest with
        | '\\' :: 'u' :: a' :: b' :: c' :: d' :: rest' =>
          match codeUnit? a' b' c' d' with
          | none => none
          | some low =>
            if 0xDC00 ≤ low ∧ low < 0xE000 then
              consChar (Char.ofNat (0x10000 + (high - 0xD800) * 0x400 + (low - 0xDC00)))
                (readString? rest')
            else none
        | _ => none
      else if 0xDC00 ≤ high ∧ high < 0xE000 then none
      else consChar (Char.ofNat high) (readString? rest)
  | '\\' :: c :: rest =>
    match escapeChar? c with
    | none => none
    | some x => consChar x (readString? rest)
  | c :: rest => if c.toNat < 0x20 then none else consChar c (readString? rest)

/-- A number in decimal notation while it is read: the digits as far as they fit into 64 bits, and
the power of ten that scales them. -/
structure Decimal where
  digits : Nat
  scale : Int
deriving DecidableEq, Repr

/-- Appends a digit to a whole number of 64 bits, if the result still has 64 bits. -/
def pushDigit? (digits : Nat) (c : Char) : Option Nat :=
  if digits * 10 + (c.toNat - 0x30) < 0x10000000000000000 then
    some (digits * 10 + (c.toNat - 0x30))
  else none

theorem pushDigit?_of_lt {digits : Nat} {c : Char}
    (h : digits * 10 + (c.toNat - 0x30) < 0x10000000000000000) :
    pushDigit? digits c = some (digits * 10 + (c.toNat - 0x30)) := by
  rw [pushDigit?, if_pos h]

-- the bound is a number that must never be counted down to
attribute [irreducible] pushDigit?

/-- Takes up whole digits. From the first one that no longer fits on, each digit only scales the
number. The flag tells whether all digits fitted. -/
def pushWhole : Bool → Decimal → List Char → Bool × Decimal
  | fits, d, [] => (fits, d)
  | true, d, c :: cs =>
    match pushDigit? d.digits c with
    | some n => pushWhole true { d with digits := n } cs
    | none => pushWhole false { d with scale := d.scale + 1 } cs
  | false, d, _ :: cs => pushWhole false { d with scale := d.scale + 1 } cs

/-- Takes up digits after the decimal point, up to the first one that no longer fits. -/
def pushFraction : Decimal → List Char → Decimal
  | d, [] => d
  | d, c :: cs =>
    match pushDigit? d.digits c with
    | some n => pushFraction ⟨n, d.scale - 1⟩ cs
    | none => d

/-- Powers of ten up to this one are scaled by in a single step. -/
def largestPower : Nat := 308

def powerOfTen? (n : Nat) : Option Binary64 :=
  Binary64.ofDecimal? false 1 n

/-- `x` scaled by `10 ^ scale`, rounded at every step. A scale beyond the largest power is a number
out of range, unless `x` is zero; one below it takes several divisions. -/
def scaled? : (fuel : Nat) → Binary64 → Int → Option Binary64
  | 0, _, _ => none
  | fuel + 1, x, scale =>
    if scale.natAbs ≤ largestPower then do
      let power ← powerOfTen? scale.natAbs
      if scale ≥ 0 then x.mul? power else x.div? power
    else if x.significand = 0 then some x
    else if scale ≥ 0 then none
    else do
      let x' ← x.div? (← powerOfTen? largestPower)
      scaled? fuel x' (scale + largestPower)

/-- The number that the digits and the scale stand for. The digits are rounded before they are
scaled. -/
def Decimal.toBinary64? (d : Decimal) (negative : Bool) : Option Binary64 := do
  let x ← Binary64.ofRatio? false d.digits 1
  return (← scaled? 8 x d.scale).withSign negative

def exponentLimit : Nat := 0x80000000

/-- The number with the exponent that digits after `e` write. An exponent that is too large makes
zero of zero and of every number that it scales down, and is out of range otherwise. -/
def Decimal.withExponent? (d : Decimal) (negative minus : Bool) (exponent : Nat) :
    Option Binary64 :=
  if exponent < exponentLimit then
    Decimal.toBinary64? { d with scale := if minus then d.scale - exponent else d.scale + exponent }
      negative
  else if d.digits = 0 || minus then some (.zero negative)
  else none

/-- The exponent of a number, if there is one, and the text after it. -/
def readExponent? (d : Decimal) (negative : Bool) (s : List Char) :
    Option (Number × List Char) :=
  let finish (x : Option Binary64) (rest : List Char) : Option (Number × List Char) :=
    x.map fun x => (.float x, rest)
  match s with
  | e :: s =>
    if e = 'e' ∨ e = 'E' then
      let (minus, s) := match s with
        | '+' :: s => (false, s)
        | '-' :: s => (true, s)
        | s => (false, s)
      do
        let exponent ← Text.natOfDigits? 10 (s.takeWhile Char.isDigit)
        finish (d.withExponent? negative minus exponent) (s.dropWhile Char.isDigit)
    else finish (d.toBinary64? negative) (e :: s)
  | [] => finish (d.toBinary64? negative) []

/-- An integer, which is a binary64 number when it has more than 64 bits or is a negative zero. -/
def integer? (negative : Bool) (digits : Nat) : Option Number :=
  let asFloat := (Binary64.ofRatio? negative digits 1).map Number.float
  if negative then
    if digits = 0 then asFloat
    else if h : digits - 1 < 0x8000000000000000 then some (.negative ⟨digits - 1, h⟩)
    else asFloat
  else if h : digits < 0x10000000000000000 then some (.natural ⟨digits, h⟩)
  else asFloat

/-- A number without its sign, and the text after it. -/
def readMagnitude? (negative : Bool) (s : List Char) : Option (Number × List Char) :=
  let whole := s.takeWhile Char.isDigit
  let rest := s.dropWhile Char.isDigit
  if whole = [] ∨ (whole.length > 1 ∧ whole.head? = some '0') then none
  else
    let (fits, d) := pushWhole true ⟨0, 0⟩ whole
    match rest with
    | '.' :: rest =>
      let fraction := rest.takeWhile Char.isDigit
      if fraction = [] then none
      else readExponent? (pushFraction d fraction) negative (rest.dropWhile Char.isDigit)
    | c :: rest' =>
      if c = 'e' ∨ c = 'E' ∨ !fits then readExponent? d negative (c :: rest')
      else (integer? negative d.digits).map (·, c :: rest')
    | [] =>
      if fits then (integer? negative d.digits).map (·, [])
      else readExponent? d negative []

def readNumber? : List Char → Option (Number × List Char)
  | '-' :: s => readMagnitude? true s
  | s => readMagnitude? false s

def expect? : List Char → List Char → Option (List Char)
  | [], s => some s
  | w :: ws, c :: cs => if w = c then expect? ws cs else none
  | _ :: _, [] => none

mutual

/-- A value without leading blanks, and the text after it. At most `depth` arrays and objects may
be nested in it; `fuel` bounds the number of steps. -/
def readValue? : (fuel depth : Nat) → List Char → Option (Json × List Char)
  | 0, _, _ => none
  | _ + 1, _, [] => none
  | fuel + 1, depth, c :: s =>
    if c = '"' then (readString? s).map fun (t, rest) => (.ofChars t, rest)
    else if c = '[' then
      match depth with
      | 0 => none
      | depth + 1 =>
        match skipBlanks s with
        | ']' :: rest => some (.array [], rest)
        | s => (readItems? fuel depth s).map fun (items, rest) => (.array items, rest)
    else if c = '\x7b' then
      match depth with
      | 0 => none
      | depth + 1 =>
        match skipBlanks s with
        | '\x7d' :: rest => some (.object [], rest)
        | s => (readMembers? fuel depth s).map fun (members, rest) =>
          (.object (Keyed.ofList members), rest)
    else if c = 'n' then (expect? "ull".toList s).map (Json.null, ·)
    else if c = 't' then (expect? "rue".toList s).map (Json.bool true, ·)
    else if c = 'f' then (expect? "alse".toList s).map (Json.bool false, ·)
    else (readNumber? (c :: s)).map fun (n, rest) => (.number n, rest)

/-- The items of an array from the first one to the closing bracket, and the text after it. -/
def readItems? : (fuel depth : Nat) → List Char → Option (List Json × List Char)
  | 0, _, _ => none
  | fuel + 1, depth, s =>
    match readValue? fuel depth s with
    | none => none
    | some (v, rest) =>
      match skipBlanks rest with
      | ']' :: rest => some ([v], rest)
      | ',' :: rest => (readItems? fuel depth (skipBlanks rest)).map fun (items, rest) =>
        (v :: items, rest)
      | _ => none

/-- The members of an object from the first one to the closing brace, in the order of the text, and
the text after it. -/
def readMembers? : (fuel depth : Nat) → List Char →
    Option (List (String × Json) × List Char)
  | 0, _, _ => none
  | fuel + 1, depth, s =>
    match s with
    | '"' :: s =>
      match readString? s with
      | none => none
      | some (key, rest) =>
        match skipBlanks rest with
        | ':' :: rest =>
          match readValue? fuel depth (skipBlanks rest) with
          | none => none
          | some (v, rest) =>
            match skipBlanks rest with
            | '\x7d' :: rest => some ([(String.ofList key, v)], rest)
            | ',' :: rest => (readMembers? fuel depth (skipBlanks rest)).map
              fun (members, rest) => ((String.ofList key, v) :: members, rest)
            | _ => none
        | _ => none
    | _ => none

end

/-- The value that a text holds, with at most `limit` nested arrays and objects. -/
def read? (limit : Nat) (s : List Char) : Option Json :=
  match readValue? (2 * s.length + 2) limit (skipBlanks s) with
  | some (v, rest) => if skipBlanks rest = [] then some v else none
  | none => none

end PluginDataset.Json
