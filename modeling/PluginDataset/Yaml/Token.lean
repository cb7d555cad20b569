import PluginDataset.Yaml.Scalar
import PluginDataset.Yaml.Tag

/-!
# YAML tokens

A text as a sequence of tokens. Block collections are recognised by columns: a collection starts
where a deeper column is used for an entry and ends where a line starts further left. A key is
recognised only when its colon is reached, on the same line and at most 1024 characters after its
start; the tokens for it are then inserted where it started.

## Main definitions

* `Yaml.Token` is the type of tokens.
* `Yaml.Lexing` is the state between two tokens; `Lexing.next?` reads one more.
* `Yaml.tokens?` gives all tokens of a text.
-/

namespace PluginDataset.Yaml

inductive Token where
  | directive (d : Directive)
  | documentStart
  | documentEnd
  | blockSequenceStart
  | blockMappingStart
  | blockEnd
  | flowSequenceStart
  | flowSequenceEnd
  | flowMappingStart
  | flowMappingEnd
  | blockEntry
  | flowEntry
  | key
  | value
  | alias (name : List Char)
  | anchor (name : List Char)
  | tag (t : TagText)
  | scalar (text : List Char) (plain : Bool)
deriving DecidableEq, Repr

/-- A place that may turn out to be the start of a key: the number of tokens before it, and its
position. A required one has to turn out so. -/
structure KeyStart where
  tokens : Nat
  index : Nat
  line : Nat
  column : Nat
  required : Bool

/-- The state between two tokens. The tokens are listed last one first. The indents of the open
block collections and the possible key starts of the open brackets and braces are listed innermost
first; `key` is the possible key start of the innermost level. -/
structure Lexing where
  cursor : Cursor
  tokens : List Token := []
  count : Nat := 0
  indents : List Nat := []
  keyAllowed : Bool := true
  key : Option KeyStart := none
  outerKeys : List (Option KeyStart) := []

namespace Lexing

def flow (l : Lexing) : Bool :=
  !l.outerKeys.isEmpty

/-- The column of the innermost block collection, `-1` outside all of them. -/
def indent (l : Lexing) : Int :=
  match l.indents with
  | n :: _ => n
  | [] => -1

def push (l : Lexing) (t : Token) : Lexing :=
  { l with tokens := t :: l.tokens, count := l.count + 1 }

def insert (l : Lexing) (n : Nat) (t : Token) : Lexing :=
  let later := l.count - n
  { l with tokens := l.tokens.take later ++ t :: l.tokens.drop later, count := l.count + 1 }

def moveTo (l : Lexing) (c : Cursor) : Lexing :=
  { l with cursor := c }

def allowKey (l : Lexing) (allowed : Bool) : Lexing :=
  { l with keyAllowed := allowed }

/-- A key start that can still be completed at a position; a required one that cannot is an error.
-/
def fresh? (c : Cursor) : Option KeyStart → Option (Option KeyStart)
  | none => some none
  | some k =>
    if k.line < c.line || k.index + 1024 < c.index then
      if k.required then none else some none
    else some (some k)

/-- Drops the key starts that can no longer be completed. -/
def dropStale? (l : Lexing) : Option Lexing := do
  let key ← fresh? l.cursor l.key
  let outerKeys ← l.outerKeys.mapM (fresh? l.cursor)
  some { l with key, outerKeys }

/-- Gives up the key start of the innermost level. -/
def dropKey? (l : Lexing) : Option Lexing :=
  match l.key with
  | some k => if k.required then none else some { l with key := none }
  | none => some l

/-- Notes the position as the start of a possible key. -/
def noteKey? (l : Lexing) : Option Lexing :=
  if l.keyAllowed then do
    let c := l.cursor
    let required := !l.flow && l.indent == c.column
    let l ← l.dropKey?
    some { l with key := some ⟨l.count, c.index, c.line, c.column, required⟩ }
  else some l

/-- Closes the block collections that start right of a column. -/
def closeBlocks (column : Int) (l : Lexing) : Lexing :=
  if l.flow then l
  else
    let closed := l.indents.takeWhile fun (n : Nat) => decide ((n : Int) > column)
    { l with
      tokens := List.replicate closed.length .blockEnd ++ l.tokens
      count := l.count + closed.length
      indents := l.indents.drop closed.length }

/-- Opens a block collection at a column, unless one is open there. Its token goes after the first
`place` tokens. -/
def openBlock (l : Lexing) (column place : Nat) (t : Token) : Lexing :=
  if l.flow || l.indent ≥ column then l
  else { l.insert place t with indents := column :: l.indents }

/-- The position of the next token: after blanks, comments and line breaks. A tab counts as a blank
only where no key may start. A line break outside brackets and braces allows a key. -/
def skipToToken : (fuel : Nat) → Lexing → Lexing
  | 0, l => l
  | fuel + 1, l =>
    let c := l.cursor
    let c := if c.column == 0 && c.at? (· == '\uFEFF') then c.advance else c
    let tabs := l.flow || !l.keyAllowed
    let c := c.skipWhile fun x => x == ' ' || (tabs && x == '\t')
    let c := if c.at? (· == '#') then c.skipToBreak else c
    if c.at? isBreak then
      skipToToken fuel { l with cursor := c.advanceLine, keyAllowed := l.keyAllowed || !l.flow }
    else l.moveTo c

/-- Ends the document before a mark or a directive. -/
def endDocument? (l : Lexing) : Option Lexing := do
  let l ← (l.closeBlocks (-1)).dropKey?
  some (l.allowKey false)

def openFlow? (l : Lexing) (t : Token) : Option Lexing := do
  let l ← l.noteKey?
  let l := { l with key := none, outerKeys := l.key :: l.outerKeys, keyAllowed := true }
  some ((l.push t).moveTo l.cursor.advance)

def closeFlow? (l : Lexing) (t : Token) : Option Lexing := do
  let l ← l.dropKey?
  let l := match l.outerKeys with
    | k :: outer => { l with key := k, outerKeys := outer }
    | [] => l
  some (((l.allowKey false).push t).moveTo l.cursor.advance)

def flowEntry? (l : Lexing) : Option Lexing := do
  let l ← l.dropKey?
  some (((l.allowKey true).push .flowEntry).moveTo l.cursor.advance)

def blockEntry? (l : Lexing) : Option Lexing := do
  if !l.flow && !l.keyAllowed then none
  else
    let l := l.openBlock l.cursor.column l.count .blockSequenceStart
    let l ← l.dropKey?
    some (((l.allowKey true).push .blockEntry).moveTo l.cursor.advance)

def explicitKey? (l : Lexing) : Option Lexing := do
  if !l.flow && !l.keyAllowed then none
  else
    let l := l.openBlock l.cursor.column l.count .blockMappingStart
    let l ← l.dropKey?
    some (((l.allowKey !l.flow).push .key).moveTo l.cursor.advance)

/-- A colon before a value. If a key may have started earlier, it did. -/
def value? (l : Lexing) : Option Lexing :=
  match l.key with
  | some k =>
    let l := (l.insert k.tokens .key).openBlock k.column k.tokens .blockMappingStart
    let l := { l with key := none, keyAllowed := false }
    some ((l.push .value).moveTo l.cursor.advance)
  | none =>
    if !l.flow && !l.keyAllowed then none
    else
      let l := l.openBlock l.cursor.column l.count .blockMappingStart
      some (((l.allowKey !l.flow).push .value).moveTo l.cursor.advance)

def mayFollowName (x : Char) : Bool :=
  "?:,]\x7d%@\x60".toList.contains x

def name? (l : Lexing) (token : List Char → Token) : Option Lexing := do
  let l ← l.noteKey?
  let name := l.cursor.advance.rest.takeWhile isNameChar
  let c := l.cursor.advance.skipWhile isNameChar
  if name ≠ [] && (endsWord c.rest || c.at? mayFollowName) then
    some (((l.allowKey false).push (token name)).moveTo c)
  else none

def tag? (l : Lexing) : Option Lexing := do
  let l ← l.noteKey?
  let (t, c) ← readTag? l.flow l.cursor
  some (((l.allowKey false).push (.tag t)).moveTo c)

def blockScalar? (l : Lexing) : Option Lexing := do
  let l ← l.dropKey?
  let (text, c) ← readBlock? l.indent l.cursor
  some (((l.allowKey true).push (.scalar text false)).moveTo c)

def quotedScalar? (l : Lexing) (double : Bool) : Option Lexing := do
  let l ← l.noteKey?
  let (text, c) ← readQuoted? double l.cursor
  some (((l.allowKey false).push (.scalar text false)).moveTo c)

/-- A plain scalar. A line break after it allows a key. -/
def plainScalar? (l : Lexing) : Option Lexing := do
  let l ← l.noteKey?
  let (text, c, broken) ← readPlain? l.flow (l.indent + 1) l.cursor
  some (((l.allowKey broken).push (.scalar text true)).moveTo c)

/-- Characters that cannot start a plain scalar without regard to what follows. -/
def isIndicator (x : Char) : Bool :=
  "-?:,[]\x7b\x7d#&*!|>'\"%@\x60".toList.contains x

/-- Whether a plain scalar starts with `x` before `rest`. -/
def startsPlain (flow : Bool) (x : Char) (rest : List Char) : Bool :=
  let blankNext := match rest with
    | y :: _ => isBlank y
    | [] => false
  (!isIndicator x && !isBlank x && !isBreak x) || (x == '-' && !blankNext) ||
    (!flow && (x == '?' || x == ':') && !endsWord rest)

/-- Reads the token that starts with `x` before `rest`. -/
def dispatch? (l : Lexing) (x : Char) (rest : List Char) : Option Lexing :=
  if l.cursor.column = 0 ∧ x = '%' then do
    let l ← l.endDocument?
    let (d, c) ← readDirective? l.cursor
    some ((l.push (.directive d)).moveTo c)
  else if l.cursor.atDocumentMark then do
    let l ← l.endDocument?
    some ((l.push (if x = '-' then .documentStart else .documentEnd)).moveTo (l.cursor.advanceBy 3))
  else if x = '[' then l.openFlow? .flowSequenceStart
  else if x = '\x7b' then l.openFlow? .flowMappingStart
  else if x = ']' then l.closeFlow? .flowSequenceEnd
  else if x = '\x7d' then l.closeFlow? .flowMappingEnd
  else if x = ',' then l.flowEntry?
  else if x = '-' ∧ endsWord rest then l.blockEntry?
  else if x = '?' ∧ (l.flow || endsWord rest) then l.explicitKey?
  else if x = ':' ∧ (l.flow || endsWord rest) then l.value?
  else if x = '*' then l.name? .alias
  else if x = '&' then l.name? .anchor
  else if x = '!' then l.tag?
  else if (x = '|' ∨ x = '>') ∧ !l.flow then l.blockScalar?
  else if x = '\'' then l.quotedScalar? false
  else if x = '"' then l.quotedScalar? true
  else if startsPlain l.flow x rest then l.plainScalar?
  else none

/-- Reads one more token, or the end of the text. The flag tells whether it was the end. -/
def next? (l : Lexing) : Option (Bool × Lexing) := do
  let l ← (l.skipToToken (l.cursor.left + 1)).dropStale?
  let l := l.closeBlocks l.cursor.column
  match l.cursor.rest with
  | [] => do
    let l ← (l.closeBlocks (-1)).dropKey?
    some (true, l)
  | x :: rest => (l.dispatch? x rest).map (false, ·)

def run? : (fuel : Nat) → Lexing → Option (List Token)
  | 0, _ => none
  | fuel + 1, l => do
    match ← l.next? with
    | (true, l) => some l.tokens.reverse
    | (false, l) => run? fuel l

end Lexing

def tokens? (text : List Char) : Option (List Token) :=
  if text.all isPrintable then Lexing.run? (text.length + 1) { cursor := .start text }
  else none

end PluginDataset.Yaml
