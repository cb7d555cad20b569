import PluginDataset.Text.Utf8
import PluginDataset.Yaml.Cursor

/-!
# YAML tags and directives

A tag is a handle and a suffix, or a whole tag between `<` and `>`. Suffixes are sequences of
bytes, since a percent sign and two digits write a byte.

## Main definitions

* `Yaml.readTag?` reads a tag.
* `Yaml.readDirective?` reads a directive at the start of a line.
-/

namespace PluginDataset.Yaml

/-- A tag as it is written: a handle, which may be empty, and a suffix. -/
structure TagText where
  handle : List Char
  suffix : List UInt8
deriving DecidableEq, Repr

/-- Characters of a tag's suffix other than letters, digits and the percent sign. -/
def isUriMark (x : Char) : Bool :=
  ";/?:@&=+$.!~*'()".toList.contains x

/-- Characters that are allowed in a suffix only between `<` and `>` and in directives. -/
def isWideUriMark (x : Char) : Bool :=
  x == ',' || x == '[' || x == ']'

/-- The byte that a percent sign and two digits write. -/
def percentByte? : List Char → Option UInt8
  | '%' :: a :: b :: _ => (Text.natOfDigits? 16 [a, b]).map UInt8.ofNat
  | _ => none

/-- The number of bytes of a character that starts with the byte. -/
def leadWidth? (b : UInt8) : Option Nat :=
  if b < 0x80 then some 1
  else if b &&& 0xE0 = 0xC0 then some 2
  else if b &&& 0xF0 = 0xE0 then some 3
  else if b &&& 0xF8 = 0xF0 then some 4
  else none

/-- `n` bytes in percent notation, each of which continues a character. -/
def readTrailBytes? : Nat → Cursor → Option (List UInt8 × Cursor)
  | 0, c => some ([], c)
  | n + 1, c => do
    let b ← percentByte? c.rest
    if b &&& 0xC0 = 0x80 then
      let (bytes, c) ← readTrailBytes? n (c.advanceBy 3)
      some (b :: bytes, c)
    else none

/-- The bytes of one character in percent notation. -/
def readPercent? (c : Cursor) : Option (List UInt8 × Cursor) := do
  let b ← percentByte? c.rest
  let width ← leadWidth? b
  let (bytes, c) ← readTrailBytes? (width - 1) (c.advanceBy 3)
  some (b :: bytes, c)

def readUri? (wide : Bool) : (fuel : Nat) → Cursor → Option (List UInt8 × Cursor)
  | 0, c => some ([], c)
  | fuel + 1, c =>
    match c.rest with
    | [] => some ([], c)
    | x :: _ =>
      if x = '%' then do
        let (bytes, c) ← readPercent? c
        let (later, c) ← readUri? wide fuel c
        some (bytes ++ later, c)
      else if isNameChar x || isUriMark x || (wide && isWideUriMark x) then do
        let (later, c) ← readUri? wide fuel c.advance
        some (Utf8.encode [x] ++ later, c)
      else some ([], c)

def readSuffix? (wide : Bool) (c : Cursor) : Option (List UInt8 × Cursor) := do
  let (bytes, c) ← readUri? wide (c.left + 1) c
  if bytes = [] then none else some (bytes, c)

/-- A handle: an exclamation mark, or a name between two. The second mark may be missing. -/
def readHandle? (c : Cursor) : Option (List Char × Cursor) :=
  if c.at? (· == '!') then
    let name := c.advance.rest.takeWhile isNameChar
    let c := c.advance.skipWhile isNameChar
    if c.at? (· == '!') then some ('!' :: name ++ ['!'], c.advance) else some ('!' :: name, c)
  else none

/-- A handle that a directive may define: one mark alone, or a name between two. -/
def isDefinable (handle : List Char) : Bool :=
  handle == ['!'] || (handle.length ≥ 2 && handle.getLast? == some '!')

def readTagText? (c : Cursor) : Option (TagText × Cursor) := do
  if c.advance.at? (· == '<') then
    let (suffix, c) ← readSuffix? true (c.advanceBy 2)
    if c.at? (· == '>') then some (⟨[], suffix⟩, c.advance) else none
  else
    let (handle, c) ← readHandle? c
    if handle.length ≥ 2 && handle.getLast? == some '!' then
      let (suffix, c) ← readSuffix? false c
      some (⟨handle, suffix⟩, c)
    else
      let (later, c) ← readUri? false (c.left + 1) c
      let suffix := Utf8.encode (handle.drop 1) ++ later
      if suffix = [] then some (⟨[], Utf8.encode ['!']⟩, c) else some (⟨['!'], suffix⟩, c)

/-- A tag at the position of its exclamation mark, and the position after it. It ends at a blank or
a line end, and inside brackets or braces also at a comma. -/
def readTag? (flow : Bool) (c : Cursor) : Option (TagText × Cursor) := do
  let (tag, c) ← readTagText? c
  if endsWord c.rest || (flow && c.at? (· == ',')) then some (tag, c) else none

inductive Directive where
  | version (major minor : Nat)
  | handle (handle : List Char) (expansion : List UInt8)
deriving DecidableEq, Repr

def readVersionNumber? (c : Cursor) : Option (Nat × Cursor) := do
  let digits := c.rest.takeWhile Char.isDigit
  if digits.length > 9 then none
  else some (← Text.natOfDigits? 10 digits, c.skipWhile Char.isDigit)

/-- The rest of a directive line, which holds only blanks and a comment. -/
def endDirective? (c : Cursor) : Option Cursor :=
  let c := c.skipWhile isBlank
  let c := if c.at? (· == '#') then c.skipToBreak else c
  if endsLine c.rest then some c.advanceLine else none

/-- A directive at the position of its percent sign, and the position after its line. -/
def readDirective? (c : Cursor) : Option (Directive × Cursor) := do
  let c := c.advance
  let name := c.rest.takeWhile isNameChar
  let c := c.skipWhile isNameChar
  if name = [] || !endsWord c.rest then none
  else if name = "YAML".toList then
    let (major, c) ← readVersionNumber? (c.skipWhile isBlank)
    if c.at? (· == '.') then
      let (minor, c) ← readVersionNumber? c.advance
      some (.version major minor, ← endDirective? c)
    else none
  else if name = "TAG".toList then
    let (handle, c) ← readHandle? (c.skipWhile isBlank)
    if !isDefinable handle || !c.at? isBlank then none
    else
      let (expansion, c) ← readSuffix? true (c.skipWhile isBlank)
      if endsWord c.rest then some (.handle handle expansion, ← endDirective? c) else none
  else none

end PluginDataset.Yaml
