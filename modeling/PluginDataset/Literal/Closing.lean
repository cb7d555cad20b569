import PluginDataset.Literal.Opening
import PluginDataset.Text.Utf8

/-!
# The end of a documentation literal

A literal ends at the first three quotes of its kind. A backslash takes the character after it out
of consideration, in raw literals too.

## Main definitions

* `Literal.closingOffset?` finds the closing quotes in the bytes of a text.
* `Literal.body?` gives the text up to the closing quotes.
-/

namespace PluginDataset.Literal

def Quote.byte (q : Quote) : UInt8 :=
  UInt8.ofNat q.mark.toNat

/-- Whether the bytes start with the three closing quotes. -/
def startsClosing (mark : UInt8) : List UInt8 → Bool
  | a :: b :: c :: _ => a == mark && b == mark && c == mark
  | _ => false

/-- The number of bytes before the closing quotes. The byte after a backslash is passed over. -/
def closingOffset? (mark : UInt8) : List UInt8 → Option Nat
  | [] => none
  | [_] => none
  | a :: b :: rest =>
    if a = 0x5C then (closingOffset? mark rest).map (· + 2)
    else if startsClosing mark (a :: b :: rest) then some 0
    else (closingOffset? mark (b :: rest)).map (· + 1)

/-- The text up to the closing quotes of a literal that is open at the start of the text. -/
def body? (q : Quote) (s : List Char) : Option (List Char) := do
  let offset ← closingOffset? q.byte (Utf8.encode s)
  let (body, _) ← Utf8.splitAt? offset s
  return body

end PluginDataset.Literal
