import PluginDataset.Text.Digits

/-!
# Strings in TOML

Strings in double quotes have escapes, strings in single quotes have none. Either kind may span
lines between triple quotes; a line break directly after the opening is dropped.

## Main definitions

* `Toml.readString?` reads a string of any kind on one line or several.
* `Toml.stringForm` chooses the quotes of a string, `Toml.stringText` writes it.
-/

namespace PluginDataset.Toml

/-- Characters that strings and comments may hold as they are. -/
def isTextChar (c : Char) : Bool :=
  c == '\t' || (0x20 ≤ c.toNat && c.toNat != 0x7F)

/-- Adds a character in front of a string that has been read. -/
def consChar (c : Char) (r : Option (List Char × List Char)) : Option (List Char × List Char) :=
  r.map fun (s, rest) => (c :: s, rest)

/-- The character that a letter after a backslash stands for. -/
def escapedLetter? : Char → Option Char
  | 'b' => some '\x08'
  | 't' => some '\t'
  | 'n' => some '\n'
  | 'f' => some '\x0C'
  | 'r' => some '\r'
  | '"' => some '"'
  | '\\' => some '\\'
  | _ => none

def codePoint? (digits : List Char) : Option Char :=
  (Text.natOfDigits? 16 digits).bind fun n => if n.isValidChar then some (Char.ofNat n) else none

def startsBreak : List Char → Bool
  | '\n' :: _ => true
  | '\r' :: '\n' :: _ => true
  | _ => false

def skipBlanks (s : List Char) : List Char :=
  s.dropWhile fun c => c == ' ' || c == '\t'

/-- The characters of a string in double quotes up to the closing quote, and the text after it. -/
def basic? : List Char → Option (List Char × List Char)
  | [] => none
  | '"' :: rest => some ([], rest)
  | '\\' :: 'u' :: a :: b :: c :: d :: rest =>
    match codePoint? [a, b, c, d] with
    | some x => consChar x (basic? rest)
    | none => none
  | '\\' :: 'U' :: a :: b :: c :: d :: e :: f :: g :: h :: rest =>
    match codePoint? [a, b, c, d, e, f, g, h] with
    | some x => consChar x (basic? rest)
    | none => none
  | '\\' :: c :: rest =>
    match escapedLetter? c with
    | some x => consChar x (basic? rest)
    | none => none
  | c :: rest => if isTextChar c then consChar c (basic? rest) else none

/-- The characters of a string in single quotes up to the closing quote, and the text after it. -/
def literal? : List Char → Option (List Char × List Char)
  | [] => none
  | '\'' :: rest => some ([], rest)
  | c :: rest => if isTextChar c then consChar c (literal? rest) else none

/-- The end of a string after three closing quotes: up to two more quotes belong to it. -/
def closeTriple (quote : Char) : List Char → List Char × List Char
  | a :: b :: rest =>
    if a = quote ∧ b = quote then ([a, b], rest)
    else if a = quote then ([a], b :: rest)
    else ([], a :: b :: rest)
  | [a] => if a = quote then ([a], []) else ([], [a])
  | [] => ([], [])

/-- The characters of a string in triple double quotes. With `skipping`, blanks and line breaks are
passed over, as they are after a backslash at the end of a line. -/
def tripleBasic? : (skipping : Bool) → List Char → Option (List Char × List Char)
  | _, [] => none
  | true, ' ' :: rest => tripleBasic? true rest
  | true, '\t' :: rest => tripleBasic? true rest
  | true, '\n' :: rest => tripleBasic? true rest
  | true, '\r' :: '\n' :: rest => tripleBasic? true rest
  | _, '"' :: '"' :: '"' :: rest => some (closeTriple '"' rest)
  | _, '\\' :: 'u' :: a :: b :: c :: d :: rest =>
    match codePoint? [a, b, c, d] with
    | some x => consChar x (tripleBasic? false rest)
    | none => none
  | _, '\\' :: 'U' :: a :: b :: c :: d :: e :: f :: g :: h :: rest =>
    match codePoint? [a, b, c, d, e, f, g, h] with
    | some x => consChar x (tripleBasic? false rest)
    | none => none
  | _, '\\' :: c :: rest =>
    match escapedLetter? c with
    | some x => consChar x (tripleBasic? false rest)
    | none => if startsBreak (skipBlanks (c :: rest)) then tripleBasic? true (c :: rest) else none
  | _, '\n' :: rest => consChar '\n' (tripleBasic? false rest)
  | _, '\r' :: '\n' :: rest => consChar '\n' (tripleBasic? false rest)
  | _, c :: rest => if isTextChar c then consChar c (tripleBasic? false rest) else none

/-- The characters of a string in triple single quotes. -/
def tripleLiteral? : List Char → Option (List Char × List Char)
  | [] => none
  | '\'' :: '\'' :: '\'' :: rest => some (closeTriple '\'' rest)
  | '\n' :: rest => consChar '\n' (tripleLiteral? rest)
  | '\r' :: '\n' :: rest => consChar '\n' (tripleLiteral? rest)
  | c :: rest => if isTextChar c then consChar c (tripleLiteral? rest) else none

def dropBreak : List Char → List Char
  | '\n' :: rest => rest
  | '\r' :: '\n' :: rest => rest
  | s => s

/-- A string at its opening quotes, and the text after it. -/
def readString? : List Char → Option (List Char × List Char)
  | '"' :: '"' :: '"' :: rest => tripleBasic? false (dropBreak rest)
  | '\'' :: '\'' :: '\'' :: rest => tripleLiteral? (dropBreak rest)
  | '"' :: rest => basic? rest
  | '\'' :: rest => literal? rest
  | _ => none

/-- A string on one line at its opening quote, and the text after it. -/
def readLineString? : List Char → Option (List Char × List Char)
  | '"' :: rest => basic? rest
  | '\'' :: rest => literal? rest
  | _ => none

/-- A character in double quotes; line breaks are kept between triple quotes only. -/
def escapedChar (breaks : Bool) (c : Char) : List Char :=
  match c with
  | '\x08' => ['\\', 'b']
  | '\t' => ['\\', 't']
  | '\n' => if breaks then ['\n'] else ['\\', 'n']
  | '\x0C' => ['\\', 'f']
  | '\r' => ['\\', 'r']
  | '"' => ['\\', '"']
  | '\\' => ['\\', '\\']
  | c =>
    if c.toNat < 0x20 ∨ c.toNat = 0x7F then
      ['\\', 'u', '0', '0'] ++ (Text.hexByte (UInt8.ofNat c.toNat)).map Char.toUpper
    else [c]

/-- A text between triple double quotes. Of double quotes in a row every third one has a backslash;
`run` without one stand before the text. -/
def escapedBetweenTriples : (run : Nat) → List Char → List Char
  | _, [] => []
  | run, c :: cs =>
    if c = '"' ∧ run < 2 then '"' :: escapedBetweenTriples (run + 1) cs
    else escapedChar true c ++ escapedBetweenTriples 0 cs

/-- The greatest number of a mark in a row; `run` stand before the text and `best` is the greatest
number so far. -/
def longestRun (mark : Char) : (run best : Nat) → List Char → Nat
  | run, best, [] => max run best
  | run, best, c :: cs =>
    if c = mark then longestRun mark (run + 1) best cs else longestRun mark 0 (max run best) cs

/-- The form in which a string is written. -/
inductive StringForm where
  | basic
  | literal
  | tripleBasic
  | tripleLiteral
deriving DecidableEq, Repr

/-- The first form in which a string needs no escapes, double quotes before single ones and single
before triple. A string that needs escapes in every form has double quotes, triple ones if it has
several lines. Controls other than tabs and line breaks always need escapes. -/
def stringForm (s : List Char) : StringForm :=
  let plain := s.all fun c => isTextChar c || c == '\n'
  let backslash := s.contains '\\'
  let breaks := s.contains '\n'
  let singles := longestRun '\'' 0 0 s
  let doubles := longestRun '"' 0 0 s
  if plain && !backslash && !breaks && doubles == 0 then .basic
  else if plain && !breaks && singles == 0 then .literal
  else if plain && !backslash && doubles ≤ 2 then .tripleBasic
  else if plain && singles ≤ 2 then .tripleLiteral
  else if breaks then .tripleBasic
  else .basic

/-- A string as it is written. A string of several lines starts on a line of its own. -/
def stringText (s : List Char) : List Char :=
  let start := if s.contains '\n' then ['\n'] else []
  match stringForm s with
  | .basic => '"' :: s.flatMap (escapedChar false) ++ ['"']
  | .literal => '\'' :: s ++ ['\'']
  | .tripleBasic =>
    "\"\"\"".toList ++ start ++ escapedBetweenTriples 0 s ++ "\"\"\"".toList
  | .tripleLiteral => "'''".toList ++ start ++ s ++ "'''".toList

end PluginDataset.Toml
