import PluginDataset.Json.Basic

/-!
# JSON text

Two layouts of a value: on one line, and over several lines with an indent of two spaces for each
level, where empty arrays and objects stay on one line. Characters outside ASCII are kept; quotes,
backslashes and controls are escaped.

## Main definitions

* `Json.compact` writes a value on one line.
* `Json.pretty` writes a value over several lines.
-/

namespace PluginDataset.Json

def escapedChar (c : Char) : List Char :=
  match c with
  | '"' => ['\\', '"']
  | '\\' => ['\\', '\\']
  | '\x08' => ['\\', 'b']
  | '\x0C' => ['\\', 'f']
  | '\n' => ['\\', 'n']
  | '\r' => ['\\', 'r']
  | '\t' => ['\\', 't']
  | c =>
    if c.toNat < 0x20 then ['\\', 'u', '0', '0'] ++ Text.hexByte (UInt8.ofNat c.toNat)
    else [c]

def stringText (s : String) : List Char :=
  '"' :: s.toList.flatMap escapedChar ++ ['"']

def Number.text : Number → List Char
  | .natural n => Text.decimalDigits n
  | .negative n => '-' :: Text.decimalDigits (n + 1)
  | .float x => x.text

def scalarText : Json → List Char
  | .null => "null".toList
  | .bool true => "true".toList
  | .bool false => "false".toList
  | .number n => n.text
  | .string s => stringText s
  | .array _ => "[]".toList
  | .object _ => "\x7b\x7d".toList

mutual

def compact : Json → List Char
  | .array (v :: rest) => '[' :: (compact v ++ (compactItems rest ++ [']']))
  | .object ((k, v) :: rest) =>
    '\x7b' :: (stringText k ++ ':' :: (compact v ++ (compactMembers rest ++ ['\x7d'])))
  | v => scalarText v

def compactItems : List Json → List Char
  | [] => []
  | v :: rest => ',' :: (compact v ++ compactItems rest)

def compactMembers : List (String × Json) → List Char
  | [] => []
  | (k, v) :: rest => ',' :: (stringText k ++ ':' :: (compact v ++ compactMembers rest))

end

/-- The end of a line and the indent of the next one. -/
def newline (level : Nat) : List Char :=
  '\n' :: List.replicate (2 * level) ' '

mutual

/-- A value over several lines; `level` is the level of the line on which it starts. -/
def prettyAt (level : Nat) : Json → List Char
  | .array (v :: rest) =>
    '[' :: (newline (level + 1) ++ (prettyAt (level + 1) v ++
      (prettyItems (level + 1) rest ++ (newline level ++ [']']))))
  | .object ((k, v) :: rest) =>
    '\x7b' :: (newline (level + 1) ++ (stringText k ++ ':' :: ' ' :: (prettyAt (level + 1) v ++
      (prettyMembers (level + 1) rest ++ (newline level ++ ['\x7d'])))))
  | v => scalarText v

def prettyItems (level : Nat) : List Json → List Char
  | [] => []
  | v :: rest => ',' :: (newline level ++ (prettyAt level v ++ prettyItems level rest))

def prettyMembers (level : Nat) : List (String × Json) → List Char
  | [] => []
  | (k, v) :: rest =>
    ',' :: (newline level ++ (stringText k ++ ':' :: ' ' :: (prettyAt level v ++
      prettyMembers level rest)))

end

def pretty (v : Json) : List Char :=
  prettyAt 0 v

end PluginDataset.Json
