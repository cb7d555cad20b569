import PluginDataset.Text.Digits

/-!
# Reading positions in a YAML text

A position in a text that is being read, with the line and column that indentation rules look at,
and the classes of characters that the rules distinguish.

## Main definitions

* `Yaml.Cursor` is a position; `Cursor.advance` and `Cursor.advanceLine` move it.
* `Yaml.isPrintable` decides which characters a text may hold at all.
-/

namespace PluginDataset.Yaml

def isPrintable (c : Char) : Bool :=
  let n := c.toNat
  n == 0x09 || n == 0x0A || n == 0x0D || (0x20 ≤ n && n ≤ 0x7E) || n == 0x85 ||
    (0xA0 ≤ n && n ≤ 0xD7FF) || (0xE000 ≤ n && n ≤ 0xFFFD) || 0x10000 ≤ n

def isBlank (c : Char) : Bool :=
  c == ' ' || c == '\t'

def isBreak (c : Char) : Bool :=
  c == '\n' || c == '\r' || c == '\u0085' || c == '\u2028' || c == '\u2029'

def isNameChar (c : Char) : Bool :=
  c.isAlphanum || c == '_' || c == '-'

/-- Whether the text is at its end or starts with a blank or a line break. -/
def endsWord : List Char → Bool
  | [] => true
  | c :: _ => isBlank c || isBreak c

/-- Whether the text is at its end or starts with a line break. -/
def endsLine : List Char → Bool
  | [] => true
  | c :: _ => isBreak c

/-- A position: the text that is left, the number of characters in the whole text and before the
position, its line and its column. -/
structure Cursor where
  rest : List Char
  size : Nat
  index : Nat := 0
  line : Nat := 0
  column : Nat := 0
deriving DecidableEq, Repr

namespace Cursor

def start (text : List Char) : Cursor where
  rest := text
  size := text.length

def left (c : Cursor) : Nat :=
  c.size - c.index

/-- The position after a character that is no line break. -/
def advance (c : Cursor) : Cursor :=
  { c with rest := c.rest.drop 1, index := c.index + 1, column := c.column + 1 }

/-- The position after `n` characters that are no line breaks. -/
def advanceBy (c : Cursor) (n : Nat) : Cursor :=
  { c with rest := c.rest.drop n, index := c.index + n, column := c.column + n }

/-- The position after a line break. A carriage return and a line feed are one break. -/
def advanceLine (c : Cursor) : Cursor :=
  match c.rest with
  | '\r' :: '\n' :: rest => { c with rest, index := c.index + 2, line := c.line + 1, column := 0 }
  | _ :: rest => { c with rest, index := c.index + 1, line := c.line + 1, column := 0 }
  | [] => c

/-- The text of the line break at the position: a line feed, or a separator kept as it is. -/
def breakText (c : Cursor) : List Char :=
  match c.rest with
  | x :: _ =>
    if x == '\u2028' || x == '\u2029' then [x] else if isBreak x then ['\n'] else []
  | [] => []

/-- Whether the position is at a character of the class. -/
def at? (c : Cursor) (p : Char → Bool) : Bool :=
  match c.rest with
  | x :: _ => p x
  | [] => false

/-- The position after the characters of a class that holds no line break. -/
def skipWhile (c : Cursor) (p : Char → Bool) : Cursor :=
  c.advanceBy (c.rest.takeWhile p).length

def skipToBreak (c : Cursor) : Cursor :=
  c.skipWhile fun x => !isBreak x

/-- Whether a line starts here with `---` or `...` as a word of its own. -/
def atDocumentMark (c : Cursor) : Bool :=
  c.column == 0 &&
    match c.rest with
    | '-' :: '-' :: '-' :: rest => endsWord rest
    | '.' :: '.' :: '.' :: rest => endsWord rest
    | _ => false

end Cursor

end PluginDataset.Yaml
