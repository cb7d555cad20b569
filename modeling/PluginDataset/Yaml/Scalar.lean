import PluginDataset.Yaml.Cursor

/-!
# Texts of YAML scalars

Plain scalars, scalars in single or double quotes, and block scalars. Line breaks inside the first
three are folded: one break becomes a space, and of several the first one is dropped. Block scalars
keep their breaks, unless they ask for folding.

## Main definitions

* `Yaml.readQuoted?` reads a scalar in quotes.
* `Yaml.readPlain?` reads a plain scalar.
* `Yaml.readBlock?` reads a block scalar.
-/

namespace PluginDataset.Yaml

/-- What stands between two words of a scalar: blanks on one line, or line breaks. -/
structure Gap where
  broken : Bool := false
  blanks : List Char := []
  firstBreak : List Char := []
  laterBreaks : List Char := []

def Gap.text (g : Gap) : List Char :=
  if g.broken then
    if g.firstBreak = ['\n'] then if g.laterBreaks = [] then [' '] else g.laterBreaks
    else g.firstBreak ++ g.laterBreaks
  else g.blanks

/-- Reads blanks and line breaks into a gap. With `indent?`, a tab left of that column on a
continuation line is refused. -/
def readGap? (indent? : Option Int) : (fuel : Nat) → Gap → Cursor → Option (Gap × Cursor)
  | 0, g, c => some (g, c)
  | fuel + 1, g, c =>
    match c.rest with
    | [] => some (g, c)
    | x :: _ =>
      if isBlank x then
        let left := match indent? with
          | some indent => (c.column : Int) < indent
          | none => false
        if g.broken && left && x == '\t' then none
        else if g.broken then readGap? indent? fuel g c.advance
        else readGap? indent? fuel { g with blanks := g.blanks ++ [x] } c.advance
      else if isBreak x then
        let g' :=
          if g.broken then { g with laterBreaks := g.laterBreaks ++ c.breakText }
          else { g with broken := true, blanks := [], firstBreak := c.breakText }
        readGap? indent? fuel g' c.advanceLine
      else some (g, c)

/-- The character that a letter after a backslash stands for in double quotes. -/
def escapedChar? : Char → Option Char
  | '0' => some '\x00'
  | 'a' => some '\x07'
  | 'b' => some '\x08'
  | 't' => some '\t'
  | '\t' => some '\t'
  | 'n' => some '\n'
  | 'v' => some '\x0B'
  | 'f' => some '\x0C'
  | 'r' => some '\r'
  | 'e' => some '\x1B'
  | ' ' => some ' '
  | '"' => some '"'
  | '/' => some '/'
  | '\\' => some '\\'
  | 'N' => some '\u0085'
  | '_' => some '\u00A0'
  | 'L' => some '\u2028'
  | 'P' => some '\u2029'
  | _ => none

/-- The number of digits that a letter after a backslash asks for. -/
def escapeWidth? : Char → Option Nat
  | 'x' => some 2
  | 'u' => some 4
  | 'U' => some 8
  | _ => none

/-- The character of an escape in double quotes, and its length with the backslash. -/
def readEscape? : List Char → Option (Char × Nat)
  | '\\' :: x :: rest =>
    match escapedChar? x, escapeWidth? x with
    | some y, _ => some (y, 2)
    | none, some width => do
      let digits := rest.take width
      if digits.length < width then none
      else
        let n ← Text.natOfDigits? 16 digits
        if n.isValidChar then some (Char.ofNat n, width + 2) else none
    | none, none => none
  | _ => none

/-- One word of a scalar in quotes: its characters in reverse, the position after it, and whether
it ended with an escaped line break. -/
def readQuotedWord? (double : Bool) : (fuel : Nat) → List Char → Cursor →
    Option (List Char × Cursor × Bool)
  | 0, _, _ => none
  | fuel + 1, acc, c =>
    match c.rest with
    | [] => some (acc, c, false)
    | x :: rest =>
      if isBlank x || isBreak x then some (acc, c, false)
      else if double then
        if x = '"' then some (acc, c, false)
        else if x = '\\' then
          if rest != [] && endsLine rest then some (acc, c.advance.advanceLine, true)
          else do
            let (y, length) ← readEscape? c.rest
            readQuotedWord? double fuel (y :: acc) (c.advanceBy length)
        else readQuotedWord? double fuel (x :: acc) c.advance
      else if x = '\'' then
        match rest with
        | '\'' :: _ => readQuotedWord? double fuel ('\'' :: acc) (c.advanceBy 2)
        | _ => some (acc, c, false)
      else readQuotedWord? double fuel (x :: acc) c.advance

/-- The words of a scalar in quotes from a position on, added in reverse to `acc`. -/
def readQuotedWords? (double : Bool) : (fuel : Nat) → List Char → Cursor →
    Option (List Char × Cursor)
  | 0, _, _ => none
  | fuel + 1, acc, c =>
    if c.atDocumentMark || c.rest = [] then none
    else do
      let (acc, c, escapedBreak) ← readQuotedWord? double (fuel + 1) acc c
      if c.at? (· == if double then '"' else '\'') then some (acc, c.advance)
      else
        let (gap, c) ← readGap? none (fuel + 1) { broken := escapedBreak } c
        readQuotedWords? double fuel (gap.text.reverse ++ acc) c

/-- The text of a scalar in quotes at the position of its opening quote, and the position after it.
-/
def readQuoted? (double : Bool) (c : Cursor) : Option (List Char × Cursor) :=
  (readQuotedWords? double (c.left + 1) [] c.advance).map fun (acc, c) => (acc.reverse, c)

/-- Characters that end a plain scalar inside brackets or braces. -/
def isFlowIndicator (x : Char) : Bool :=
  x == ',' || x == '[' || x == ']' || x == '\x7b' || x == '\x7d'

/-- Whether a colon is followed by a character that may not follow it inside brackets or braces. -/
def badFlowColon : List Char → Bool
  | ':' :: x :: _ => isFlowIndicator x || x == '?'
  | _ => false

def endsPlain (flow : Bool) : List Char → Bool
  | [] => true
  | x :: rest => (x == ':' && endsWord rest) || (flow && isFlowIndicator x)

/-- One word of a plain scalar, in reverse in front of `acc`, and the position after it. -/
def readPlainWord? (flow : Bool) : (fuel : Nat) → List Char → Cursor →
    Option (List Char × Cursor)
  | 0, acc, c => some (acc, c)
  | fuel + 1, acc, c =>
    match c.rest with
    | [] => some (acc, c)
    | x :: _ =>
      if isBlank x || isBreak x then some (acc, c)
      else if flow && badFlowColon c.rest then none
      else if endsPlain flow c.rest then some (acc, c)
      else readPlainWord? flow fuel (x :: acc) c.advance

/-- The words of a plain scalar from a position on, in reverse in front of `acc`, the position after
them, and whether a line break was read after the last word. -/
def readPlainWords? (flow : Bool) (indent : Int) : (fuel : Nat) → List Char → Gap → Cursor →
    Option (List Char × Cursor × Bool)
  | 0, _, _, _ => none
  | fuel + 1, acc, gap, c =>
    if c.atDocumentMark || c.at? (· == '#') then some (acc, c, gap.broken)
    else do
      let (word, c) ← readPlainWord? flow (fuel + 1) [] c
      let (acc, gap) := if word = [] then (acc, gap) else (word ++ (gap.text.reverse ++ acc), {})
      if !(c.at? fun x => isBlank x || isBreak x) then some (acc, c, gap.broken)
      else
        let (gap, c) ← readGap? (some indent) (fuel + 1) gap c
        if !flow && (c.column : Int) < indent then some (acc, c, gap.broken)
        else readPlainWords? flow indent fuel acc gap c

/-- The text of a plain scalar, the position after it and the blanks that follow it, and whether
these hold a line break. Continuation lines outside brackets and braces reach to `indent`. -/
def readPlain? (flow : Bool) (indent : Int) (c : Cursor) : Option (List Char × Cursor × Bool) :=
  (readPlainWords? flow indent (c.left + 1) [] {} c).map
    fun (acc, c, broken) => (acc.reverse, c, broken)

/-- What a block scalar does with the line breaks at its end. -/
inductive Chomping where
  | strip
  | clip
  | keep
deriving DecidableEq, Repr

/-- The sign after the indicator of a block scalar. -/
def chomping? : Char → Option Chomping
  | '+' => some .keep
  | '-' => some .strip
  | _ => none

/-- The header of a block scalar after its indicator: chomping, the indent in figures, and the
position after both, which may come in either order. An indent of zero is refused. -/
def readBlockHeader? (c : Cursor) : Option (Chomping × Option Nat × Cursor) :=
  let figure (x : Char) : Option Nat := Text.digitValue? 10 x
  match c.rest with
  | x :: rest =>
    match chomping? x, figure x with
    | some ch, _ =>
      match rest.head?.bind figure with
      | some 0 => none
      | some n => some (ch, some n, c.advanceBy 2)
      | none => some (ch, none, c.advance)
    | none, some 0 => none
    | none, some n =>
      match rest.head?.bind chomping? with
      | some ch => some (ch, some n, c.advanceBy 2)
      | none => some (.clip, some n, c.advance)
    | none, none => some (.clip, none, c)
  | [] => some (.clip, none, c)

/-- Reads the indent and the line breaks before a line of a block scalar: the breaks, the greatest
column reached, and the position. A tab in place of indent is refused. -/
def readBlockBreaks? (indent? : Option Nat) : (fuel : Nat) → (breaks : List Char) →
    (greatest : Nat) → Cursor → Option (List Char × Nat × Cursor)
  | 0, breaks, greatest, c => some (breaks, greatest, c)
  | fuel + 1, breaks, greatest, c =>
    let within (column : Nat) : Bool := match indent? with
      | some indent => column < indent
      | none => true
    let spaces := (c.rest.takeWhile (· == ' ')).length
    let c := c.advanceBy (match indent? with
      | some indent => min spaces (indent - c.column)
      | none => spaces)
    let greatest := max greatest c.column
    if within c.column && c.at? (· == '\t') then none
    else if c.at? isBreak then
      readBlockBreaks? indent? fuel (breaks ++ c.breakText) greatest c.advanceLine
    else some (breaks, greatest, c)

/-- What has been read of the lines of a block scalar: the text in reverse, the break that ended the
last line, the breaks of empty lines after it, and whether the last line started with a blank. -/
structure BlockText where
  acc : List Char := []
  lastBreak : List Char := []
  breaks : List Char := []
  leadingBlank : Bool := false

/-- The lines of a block scalar with the given indent from a position on. -/
def readBlockLines? (literal : Bool) (indent : Nat) : (fuel : Nat) → BlockText → Cursor →
    Option (BlockText × Cursor)
  | 0, _, _ => none
  | fuel + 1, b, c =>
    if c.column != indent || c.rest = [] then some (b, c)
    else do
      let blank := c.at? isBlank
      let folds := !literal && b.lastBreak.head? == some '\n' && !b.leadingBlank && !blank
      let joint :=
        if folds then if b.breaks = [] then [' '] else b.breaks
        else b.lastBreak ++ b.breaks
      let line := c.rest.takeWhile fun x => !isBreak x
      let c := c.skipToBreak
      let lastBreak := c.breakText
      let c := c.advanceLine
      let (breaks, _, c) ← readBlockBreaks? (some indent) (fuel + 1) [] 0 c
      let acc := line.reverse ++ (joint.reverse ++ b.acc)
      readBlockLines? literal indent fuel { acc, lastBreak, breaks, leadingBlank := blank } c

/-- The text of a block scalar at the position of its indicator, and the position after it.
`parent` is the column of the collection around it, `-1` at the top. -/
def readBlock? (parent : Int) (c : Cursor) : Option (List Char × Cursor) := do
  let literal := c.at? (· == '|')
  let (chomping, figure, c) ← readBlockHeader? c.advance
  let c := c.skipWhile isBlank
  let c := if c.at? (· == '#') then c.skipToBreak else c
  if !endsLine c.rest then none
  else
    let c := c.advanceLine
    let given : Option Nat := figure.map fun n => if parent ≥ 0 then parent.toNat + n else n
    let (breaks, greatest, c) ← readBlockBreaks? given (c.left + 1) [] 0 c
    let indent := given.getD (max (max greatest (parent + 1).toNat) 1)
    let (b, c) ← readBlockLines? literal indent (c.left + 1) { breaks } c
    let tail := match chomping with
      | .strip => []
      | .clip => b.lastBreak
      | .keep => b.lastBreak ++ b.breaks
    some (b.acc.reverse ++ tail, c)

end PluginDataset.Yaml
