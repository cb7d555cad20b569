/-!
# Openings of documentation literals

A documentation literal is opened by an assignment at the start of a line: one of three names, an
equals sign between optional spaces and tabs, up to two letters in front of the literal, and three
quotes of one kind.

## Main definitions

* `Literal.BlockName` lists the three names, `Literal.Quote` the two kinds of quote.
* `Literal.Opening.parse?` reads an opening at the start of a line.
* `Literal.openings` lists all openings of a source text, each with the text after it.
-/

namespace PluginDataset.Literal

/-- A name that a documentation literal is assigned to. -/
inductive BlockName where
  | documentation
  | examples
  | returns
deriving DecidableEq, Repr

def BlockName.word : BlockName → List Char
  | .documentation => "DOCUMENTATION".toList
  | .examples => "EXAMPLES".toList
  | .returns => "RETURN".toList

inductive Quote where
  | single
  | double
deriving DecidableEq, Repr

/-- The character of which three open and close a literal. -/
def Quote.mark : Quote → Char
  | .single => '\''
  | .double => '"'

/-- The start of a documentation literal. A raw literal keeps its backslashes. -/
structure Opening where
  name : BlockName
  raw : Bool
  quote : Quote
deriving DecidableEq, Repr

def after? : List Char → List Char → Option (List Char)
  | [], s => some s
  | w :: ws, c :: cs => if w = c then after? ws cs else none
  | _ :: _, [] => none

def skipTabsAndSpaces (s : List Char) : List Char :=
  s.dropWhile fun c => c == ' ' || c == '\t'

def isLiteralPrefix (c : Char) : Bool :=
  c == 'r' || c == 'R' || c == 'u' || c == 'U' || c == 'b' || c == 'B'

/-- At most `n` letters in front of a literal, and the text after them. -/
def takeLetters : Nat → List Char → List Char × List Char
  | n + 1, c :: cs =>
    if isLiteralPrefix c then
      let (letters, rest) := takeLetters n cs
      (c :: letters, rest)
    else ([], c :: cs)
  | _, s => ([], s)

/-- Three quotes of one kind, and the text after them. -/
def quote? : List Char → Option (Quote × List Char)
  | '\'' :: '\'' :: '\'' :: rest => some (.single, rest)
  | '"' :: '"' :: '"' :: rest => some (.double, rest)
  | _ => none

/-- One of the three names, and the text after it. -/
def blockName? (s : List Char) : Option (BlockName × List Char) :=
  let named (name : BlockName) := (after? name.word s).map fun rest => (name, rest)
  named .documentation <|> named .examples <|> named .returns

/-- An opening at the start of a line, and the text after its quotes. -/
def Opening.parse? (s : List Char) : Option (Opening × List Char) := do
  let (name, rest) ← blockName? s
  let rest ← after? ['='] (skipTabsAndSpaces rest)
  let (letters, rest) := takeLetters 2 (skipTabsAndSpaces rest)
  let (quote, rest) ← quote? rest
  return (⟨name, letters.any fun c => c == 'r' || c == 'R', quote⟩, rest)

/-- The openings of a text, each with the text after it. The flag tells whether the text starts at
the start of a line; lines end with a line feed only. -/
def openingsFrom : (lineStart : Bool) → List Char → List (Opening × List Char)
  | _, [] => []
  | lineStart, c :: cs =>
    let later := openingsFrom (c == '\n') cs
    match if lineStart then Opening.parse? (c :: cs) else none with
    | some found => found :: later
    | none => later

/-- The openings of a source text in order, each with the text after it. They are looked for on
every line, wherever literals end. -/
def openings (source : List Char) : List (Opening × List Char) :=
  openingsFrom true source

end PluginDataset.Literal
