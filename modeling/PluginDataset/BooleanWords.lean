import PluginDataset.Text.Blank
import PluginDataset.Text.Lines

/-!
# Boolean words

Documentation is written in the older dialect of YAML, where plain `yes`, `no`, `on` and `off` are
booleans. They are replaced by `true` and `false` before the text is read. The replacement looks at
one line at a time: at the value after `key: ` or `- `, and at the items of a sequence in brackets.
Lines inside a block scalar, which are those indented deeper than its header, are left alone.

## Main definitions

* `BooleanWords.spellings` lists the twelve words, `BooleanWords.word?` knows them.
* `BooleanWords.span?` finds the value of a line.
* `BooleanWords.normalizeItems` replaces the words of a sequence in brackets.
* `BooleanWords.normalize` replaces those of a text.

## Main results

* `BooleanWords.word?_eq_some_iff`: the boolean of a word is the one under which it is listed.
-/

namespace PluginDataset.BooleanWords

/-- The words that stand for a boolean. -/
def spellings : Bool → List (List Char)
  | true => ["yes".toList, "Yes".toList, "YES".toList, "on".toList, "On".toList, "ON".toList]
  | false => ["no".toList, "No".toList, "NO".toList, "off".toList, "Off".toList, "OFF".toList]

/-- The boolean that a word stands for. -/
def word? (s : List Char) : Option Bool :=
  if s ∈ spellings true then some true
  else if s ∈ spellings false then some false
  else none

/-- No word stands for both booleans. -/
theorem notMem_spellings_true {s : List Char} (h : s ∈ spellings false) : s ∉ spellings true := by
  have hall : ∀ w ∈ spellings false, w ∉ spellings true := by decide
  exact hall s h

theorem word?_eq_some_iff {s : List Char} {b : Bool} : word? s = some b ↔ s ∈ spellings b := by
  rw [word?]
  split
  · next htrue =>
    cases b with
    | true => exact iff_of_true rfl htrue
    | false => exact iff_of_false (by simp) fun hfalse => notMem_spellings_true hfalse htrue
  · next htrue =>
    split
    · next hfalse =>
      cases b with
      | true => exact iff_of_false (by simp) htrue
      | false => exact iff_of_true rfl hfalse
    · next hfalse =>
      cases b with
      | true => exact iff_of_false (by simp) htrue
      | false => exact iff_of_false (by simp) hfalse

theorem word?_ne_none_iff {s : List Char} : word? s ≠ none ↔ ∃ b, s ∈ spellings b := by
  simp only [Option.ne_none_iff_exists', word?_eq_some_iff]

theorem word?_eq_none_iff {s : List Char} : word? s = none ↔ ∀ b, s ∉ spellings b := by
  rw [Option.eq_none_iff_forall_ne_some]
  exact forall_congr' fun b => not_congr word?_eq_some_iff

def booleanText : Bool → List Char
  | true => "true".toList
  | false => "false".toList

/-- A line in three parts around its value. -/
structure Span where
  before : List Char
  value : List Char
  after : List Char
deriving DecidableEq, Repr

/-- Puts a text in front of the first of two parts. -/
def prepend (s : List Char) (parts : List Char × List Char) : List Char × List Char :=
  (s ++ parts.1, parts.2)

/-- The markers `- ` at the start of a text with the spaces between and after them, and the rest.
With `spaces`, leading spaces belong to the first part too. -/
def splitMarkers : (spaces : Bool) → List Char → List Char × List Char
  | true, ' ' :: rest => prepend [' '] (splitMarkers true rest)
  | _, '-' :: ' ' :: rest => prepend ['-', ' '] (splitMarkers true rest)
  | _, s => ([], s)

/-- A text cut after its first colon that is followed by a space, if there is one. -/
def splitKey? : List Char → Option (List Char × List Char)
  | [] => none
  | ':' :: ' ' :: rest => some ([':', ' '], rest)
  | c :: rest => (splitKey? rest).map (prepend [c])

/-- The text before its first `#` that follows a space, without that space. -/
def beforeComment : List Char → List Char
  | [] => []
  | ' ' :: '#' :: _ => []
  | c :: rest => c :: beforeComment rest

/-- Whether the text starts a comment or a quoted scalar. -/
def startsQuotedOrComment : List Char → Bool
  | c :: _ => c == '#' || c == '\'' || c == '"'
  | [] => false

/-- The head of a line, with its markers and its key, and what comes after it. A line without a key
has a value only as an item of a block sequence. -/
def splitHead? (line : List Char) : Option (List Char × List Char) :=
  let (markers, rest) := splitMarkers true line
  if startsQuotedOrComment rest then none
  else
    match splitKey? rest with
    | some (key, rest) =>
      some (markers ++ key ++ rest.takeWhile (· == ' '), rest.dropWhile (· == ' '))
    | none => if markers.contains '-' then some (markers, rest) else none

/-- The value of a line `key: value` or `- value`, without a comment after it and without blanks at
its end. -/
def span? (line : List Char) : Option Span :=
  match splitHead? line with
  | none => none
  | some (before, rest) =>
    let value := Text.trimEnd (beforeComment rest)
    if value = [] then none else some ⟨before, value, rest.drop value.length⟩

def isBlockHeader : List Char → Bool
  | c :: rest => (c == '|' || c == '>') && rest.all fun c => c == '+' || c == '-' || c.isDigit
  | [] => false

def consItem (c : Char) : List (List Char) → List (List Char)
  | [] => [[c]]
  | item :: rest => (c :: item) :: rest

/-- The items of a text separated by commas. There is at least one. -/
def items : List Char → List (List Char)
  | [] => [[]]
  | c :: cs => if c = ',' then [] :: items cs else consItem c (items cs)

def joinItems (parts : List (List Char)) : List Char :=
  [','].intercalate parts

/-- Whether a character is a quote of either kind. -/
def isQuote (c : Char) : Bool :=
  c == '\'' || c == '"'

/-- An item with its word replaced. The blanks around the word stay. -/
def normalizeItem (item : List Char) : List Char :=
  match word? (Text.trim item) with
  | some b =>
    let leading := item.takeWhile Text.isBlank
    leading ++ booleanText b ++ item.drop (leading.length + (Text.trim item).length)
  | none => item

/-- Items with their words replaced where they stand outside quotes: `quoted` tells whether the
number of quotes before the first item is odd. -/
def normalizeItemsFrom : (quoted : Bool) → List (List Char) → List (List Char)
  | _, [] => []
  | quoted, item :: rest =>
    let odd := item.countP isQuote % 2 == 1
    (if quoted then item else normalizeItem item) :: normalizeItemsFrom (quoted != odd) rest

/-- The text between the brackets of a value, if nothing inside is nested. -/
def flowInner? (value : List Char) : Option (List Char) :=
  match value with
  | '[' :: rest =>
    if rest.getLast? = some ']' then
      let inner := rest.dropLast
      if inner.any fun c => c == '[' || c == ']' || c == '\x7b' || c == '\x7d' then none
      else some inner
    else none
  | _ => none

/-- A sequence in brackets with its words replaced. -/
def normalizeItems (inner : List Char) : List Char :=
  '[' :: joinItems (normalizeItemsFrom false (items inner)) ++ [']']

def normalizeValue (value : List Char) : List Char :=
  match word? value, flowInner? value with
  | some b, _ => booleanText b
  | none, some inner => normalizeItems inner
  | none, none => value

/-- A line that is not inside a block scalar, with its words replaced. -/
def normalizeLine (line : List Char) : List Char :=
  match span? line with
  | some s => s.before ++ normalizeValue s.value ++ s.after
  | none => line

/-- The indent that a block scalar opened by the line has to exceed. -/
def opensBlock? (line : List Char) : Option Nat :=
  match span? line with
  | some s => if isBlockHeader s.value then some (Text.leadingSpaces line) else none
  | none => none

/-- Whether a line belongs to the block scalar whose header has the indent `parent`: it is blank or
indented deeper. -/
def insideBlock (parent : Option Nat) (line : List Char) : Bool :=
  match parent with
  | some indent => line.all Text.isBlank || Text.leadingSpaces line > indent
  | none => false

/-- Lines with their words replaced; `parent` is the indent of the header of an open block scalar.
-/
def normalizeLines : (parent : Option Nat) → List (List Char) → List (List Char)
  | _, [] => []
  | parent, line :: rest =>
    if insideBlock parent line then line :: normalizeLines parent rest
    else normalizeLine line :: normalizeLines (opensBlock? line) rest

def normalize (text : List Char) : List Char :=
  (normalizeLines none (Text.lines text)).flatten

end PluginDataset.BooleanWords
