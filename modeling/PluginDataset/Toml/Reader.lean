import PluginDataset.Number.Binary64
import PluginDataset.Toml.Text
import PluginDataset.Toml.Value

/-!
# Reading TOML documents

A document is a sequence of lines: headers, entries, comments and blank lines. Arrays and tables in
braces may be nested up to a limit.

## Main definitions

* `Toml.read?` reads a document.
-/

namespace PluginDataset.Toml

/-- A comment up to the end of its line, or the text as it is. -/
def skipComment : List Char → List Char
  | '#' :: rest => rest.dropWhile isTextChar
  | s => s

/-- The text after the end of a line, which may be the end of the document. -/
def endLine? : List Char → Option (List Char)
  | [] => some []
  | '\n' :: rest => some rest
  | '\r' :: '\n' :: rest => some rest
  | _ => none

/-- The text after the rest of a line that holds blanks and a comment only. -/
def finishLine? (s : List Char) : Option (List Char) :=
  endLine? (skipComment (skipBlanks s))

/-- The text after blanks, comments and line breaks. -/
def skipLines : (fuel : Nat) → List Char → List Char
  | 0, s => s
  | fuel + 1, s =>
    let s := skipBlanks s
    match s with
    | '#' :: _ =>
      match skipComment s with
      | '\n' :: rest => skipLines fuel rest
      | '\r' :: '\n' :: rest => skipLines fuel rest
      | _ => s
    | '\n' :: rest => skipLines fuel rest
    | '\r' :: '\n' :: rest => skipLines fuel rest
    | s => s

def isBareKeyChar (c : Char) : Bool :=
  c.isAlphanum || c == '-' || c == '_'

def readSimpleKey? (s : List Char) : Option (Key × List Char) :=
  match readLineString? s with
  | some r => some r
  | none =>
    match s.takeWhile isBareKeyChar with
    | [] => none
    | key => some (key, s.dropWhile isBareKeyChar)

/-- Keys with dots between them, and the text after them and the blanks that follow. -/
def readKeys? : (fuel : Nat) → List Char → Option (List Key × List Char)
  | 0, _ => none
  | fuel + 1, s =>
    match readSimpleKey? (skipBlanks s) with
    | none => none
    | some (key, rest) =>
      match skipBlanks rest with
      | '.' :: rest => (readKeys? fuel rest).map fun (keys, rest) => (key :: keys, rest)
      | rest => some ([key], rest)

/-- The number of parts from which on a key is refused, and of levels from which on a value is. -/
def nestingLimit : Nat := 80

/-- A key, as the keys before its last dot and the last one, and the text after it and the blanks
that follow. -/
def readKey? (s : List Char) : Option ((List Key × Key) × List Char) := do
  let (keys, rest) ← readKeys? (s.length + 1) s
  if keys.length < nestingLimit then
    let last ← keys.getLast?
    some ((keys.dropLast, last), rest)
  else none

/-- A number of exactly `width` digits within bounds, and the text after it. -/
def readFixed? (width low high : Nat) (s : List Char) : Option (Nat × List Char) := do
  let digits := s.take width
  if digits.length = width ∧ digits.all Char.isDigit then
    let n ← Text.natOfDigits? 10 digits
    if low ≤ n ∧ n ≤ high then some (n, s.drop width) else none
  else none

def readOneOf? (cs : List Char) : List Char → Option (List Char)
  | c :: rest => if cs.contains c then some rest else none
  | [] => none

def daysOf (year month : Nat) : Nat :=
  if month = 2 then if year % 4 = 0 ∧ (year % 100 ≠ 0 ∨ year % 400 = 0) then 29 else 28
  else if month = 4 ∨ month = 6 ∨ month = 9 ∨ month = 11 then 30
  else 31

def readDate? (s : List Char) : Option (List Char) := do
  let (year, s) ← readFixed? 4 0 9999 s
  let s ← readOneOf? ['-'] s
  let (month, s) ← readFixed? 2 1 12 s
  let s ← readOneOf? ['-'] s
  let (_, s) ← readFixed? 2 1 (daysOf year month) s
  some s

def readTime? (s : List Char) : Option (List Char) := do
  let (_, s) ← readFixed? 2 0 23 s
  let s ← readOneOf? [':'] s
  let (_, s) ← readFixed? 2 0 59 s
  let s ← readOneOf? [':'] s
  let (_, s) ← readFixed? 2 0 60 s
  match s with
  | '.' :: rest =>
    if (rest.takeWhile Char.isDigit).isEmpty then some s else some (rest.dropWhile Char.isDigit)
  | s => some s

/-- The text after the offset of a time, if there is one. -/
def skipOffset (s : List Char) : List Char :=
  let offset? : Option (List Char) :=
    match readOneOf? ['Z', 'z'] s with
    | some rest => some rest
    | none => do
      let s ← readOneOf? ['+', '-'] s
      let (_, s) ← readFixed? 2 0 23 s
      let s ← readOneOf? [':'] s
      let (_, s) ← readFixed? 2 0 59 s
      some s
  offset?.getD s

def readDateTime? (s : List Char) : Option (List Char) :=
  match readDate? s with
  | some rest =>
    match (readOneOf? ['T', 't', ' '] rest).bind readTime? with
    | some rest => some (skipOffset rest)
    | none => some rest
  | none => readTime? s

/-- Digits with underscores between them, of which the first comes next. -/
def readDigits? (base : Nat) : (fuel : Nat) → List Char → Option (List Char × List Char)
  | 0, _ => none
  | fuel + 1, s =>
    let isDigit (c : Char) : Bool := (Text.digitValue? base c).isSome
    match s.takeWhile isDigit with
    | [] => none
    | digits =>
      match s.dropWhile isDigit with
      | '_' :: rest =>
        (readDigits? base fuel rest).map fun (more, rest) => (digits ++ more, rest)
      | rest => some (digits, rest)

def digits? (base : Nat) (s : List Char) : Option (List Char × List Char) :=
  readDigits? base (s.length + 1) s

/-- An optional sign: whether it is a minus, and the text after it. -/
def readSign : List Char → Bool × List Char
  | '+' :: rest => (false, rest)
  | '-' :: rest => (true, rest)
  | s => (false, s)

/-- The digits of a decimal integer, which has no leading zeros. -/
def readWhole? : List Char → Option (List Char × List Char)
  | '0' :: rest => some (['0'], rest)
  | s => digits? 10 s

def fitsInteger (negative : Bool) (n : Nat) : Bool :=
  n < 0x8000000000000000 || (negative && n == 0x8000000000000000)

def readExponent? : List Char → Option (Int × List Char)
  | c :: rest =>
    if c = 'e' ∨ c = 'E' then do
      let (negative, s) := readSign rest
      let (digits, s) ← digits? 10 s
      let n ← Text.natOfDigits? 10 digits
      some (if negative then -(n : Int) else n, s)
    else none
  | [] => none

/-- A float or an integer, and the text after it. Floats above the largest one are refused. -/
def readNumber? (s : List Char) : Option (Value × List Char) :=
  let based? (base : Nat) (s : List Char) : Option (Value × List Char) := do
    let (digits, rest) ← digits? base s
    let n ← Text.natOfDigits? base digits
    if fitsInteger false n then some (.integer, rest) else none
  match s with
  | '0' :: 'x' :: rest => based? 16 rest
  | '0' :: 'o' :: rest => based? 8 rest
  | '0' :: 'b' :: rest => based? 2 rest
  | s =>
    let (negative, body) := readSign s
    if "inf".toList.isPrefixOf body ∨ "nan".toList.isPrefixOf body then some (.float, body.drop 3)
    else do
      let (whole, rest) ← readWhole? body
      let (fraction, rest) ← match rest with
        | '.' :: more => digits? 10 more
        | rest => some ([], rest)
      let exponent := readExponent? rest
      if fraction = [] ∧ exponent.isNone then
        let n ← Text.natOfDigits? 10 whole
        if fitsInteger negative n then some (.integer, rest) else none
      else
        let (e, rest) := exponent.getD (0, rest)
        let n ← Text.natOfDigits? 10 (whole ++ fraction)
        if negative ∨ (Binary64.ofDecimal? negative n (e - fraction.length)).isSome then
          some (.float, rest)
        else none

/-- A value that holds no other values, and the text after it. -/
def readScalar? (s : List Char) : Option (Value × List Char) :=
  match s with
  | [] => none
  | c :: _ =>
    if c = '"' ∨ c = '\'' then (readString? s).map fun (t, rest) => (.string t, rest)
    else if c = 't' ∧ "true".toList.isPrefixOf s then some (.boolean true, s.drop 4)
    else if c = 'f' ∧ "false".toList.isPrefixOf s then some (.boolean false, s.drop 5)
    else
      match readDateTime? s with
      | some rest => some (.dateTime, rest)
      | none => readNumber? s

mutual

/-- A value, and the text after it. At most `depth` arrays and tables may be nested in it; `fuel`
bounds the number of steps. -/
def readValue? : (fuel depth : Nat) → List Char → Option (Value × List Char)
  | 0, _, _ => none
  | fuel + 1, depth, s =>
    match s, depth with
    | '[' :: _, 0 => none
    | '\x7b' :: _, 0 => none
    | '[' :: rest, depth + 1 =>
      (readItems? fuel depth (skipLines rest.length rest)).map
        fun (items, rest) => (.array items, rest)
    | '\x7b' :: rest, depth + 1 =>
      match skipBlanks rest with
      | '\x7d' :: rest => some (.table .inBraces [], rest)
      | rest =>
        match readEntries? fuel depth rest with
        | none => none
        | some (entries, rest) =>
          (inlineTable? entries).map fun t => (.table .inBraces t, rest)
    | s, _ => readScalar? s

/-- The items of an array up to its closing bracket, and the text after it. -/
def readItems? : (fuel depth : Nat) → List Char → Option (List Value × List Char)
  | 0, _, _ => none
  | _ + 1, _, ']' :: rest => some ([], rest)
  | fuel + 1, depth, s =>
    match readValue? fuel depth s with
    | none => none
    | some (v, rest) =>
      match skipLines rest.length rest with
      | ']' :: rest => some ([v], rest)
      | ',' :: rest => (readItems? fuel depth (skipLines rest.length rest)).map
        fun (items, rest) => (v :: items, rest)
      | _ => none

/-- The entries between braces up to the closing one, and the text after it. -/
def readEntries? : (fuel depth : Nat) → List Char →
    Option (List (List Key × Key × Value) × List Char)
  | 0, _, _ => none
  | fuel + 1, depth, s =>
    match readKey? s with
    | some ((path, key), '=' :: rest) =>
      match readValue? fuel depth (skipBlanks rest) with
      | none => none
      | some (v, rest) =>
        match skipBlanks rest with
        | '\x7d' :: rest => some ([(path, key, v)], rest)
        | ',' :: rest => (readEntries? fuel depth rest).map
          fun (entries, rest) => ((path, key, v) :: entries, rest)
        | _ => none
    | _ => none

end

/-- The key of a header up to its closing brackets, and the text after the line. -/
def readHeader? (closing s : List Char) : Option ((List Key × Key) × List Char) := do
  let (keys, rest) ← readKey? s
  if closing.isPrefixOf rest then some (keys, ← finishLine? (rest.drop closing.length)) else none

/-- One line, and the text after it; comments and blank lines hold no statement. -/
def readLine? (s : List Char) : Option (Option Statement × List Char) :=
  match skipBlanks s with
  | [] => some (none, [])
  | '#' :: rest => (finishLine? ('#' :: rest)).map (none, ·)
  | '\n' :: rest => some (none, rest)
  | '\r' :: '\n' :: rest => some (none, rest)
  | '[' :: '[' :: rest => (readHeader? [']', ']'] rest).map
    fun ((path, key), rest) => (some (.doubleHeader path key), rest)
  | '[' :: rest => (readHeader? [']'] rest).map
    fun ((path, key), rest) => (some (.header path key), rest)
  | s =>
    match readKey? s with
    | some ((path, key), '=' :: rest) =>
      match readValue? (2 * rest.length + 2) (nestingLimit - 1) (skipBlanks rest) with
      | none => none
      | some (v, rest) => (finishLine? rest).map fun rest => (some (.entry path key v), rest)
    | _ => none

def readLines? : (fuel : Nat) → List Char → Option (List Statement)
  | 0, _ => none
  | fuel + 1, s =>
    match s with
    | [] => some []
    | s =>
      match readLine? s with
      | none => none
      | some (line?, rest) => (readLines? fuel rest).map (line?.toList ++ ·)

/-- The table of a document. A byte order mark at its start is passed over. -/
def read? (s : List Char) : Option Table :=
  let s := match s with
    | '\uFEFF' :: rest => rest
    | s => s
  (readLines? (s.length + 1) s).bind build?

end PluginDataset.Toml
