import PluginDataset.Text.Digits
import PluginDataset.Text.Hidden
import PluginDataset.Text.Utf8

/-!
# Quoted text in messages

Messages show names and paths between double quotes. A quote, a backslash and the common controls
are written with a backslash, other characters without a glyph by number, and bytes that spell no
character as `\xFF`.

## Main definitions

* `Text.quoted` shows a text, `Text.quotedBytes` shows bytes that may be ill-formed.
* `Text.quotedList` shows a list of texts in brackets.
-/

namespace PluginDataset.Text

def quotedChar (c : Char) : List Char :=
  match c with
  | '\x00' => ['\\', '0']
  | '\t' => ['\\', 't']
  | '\n' => ['\\', 'n']
  | '\r' => ['\\', 'r']
  | '"' => ['\\', '"']
  | '\\' => ['\\', '\\']
  | c => if isHidden c then "\\u\x7b".toList ++ hexDigits c.toNat ++ ['\x7d'] else [c]

def quoted (s : List Char) : List Char :=
  '"' :: s.flatMap quotedChar ++ ['"']

def quotedByte (b : UInt8) : List Char :=
  "\\x".toList ++ (hexByte b).map Char.toUpper

def quotedBytes (bytes : List UInt8) : List Char :=
  let piece : Utf8.Piece → List Char
    | .char c => quotedChar c
    | .illFormed bytes => bytes.flatMap quotedByte
  '"' :: (Utf8.pieces bytes).flatMap piece ++ ['"']

/-- A list of texts in quotes, separated by commas and enclosed in brackets. -/
def quotedList (items : List (List Char)) : List Char :=
  '[' :: [',', ' '].intercalate (items.map quoted) ++ [']']

example : quotedChar '\n' = ['\\', 'n'] := rfl

end PluginDataset.Text
