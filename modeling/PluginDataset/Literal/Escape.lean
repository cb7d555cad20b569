import PluginDataset.Text.Digits

/-!
# Backslash escapes of literals

In a literal that is not raw, a backslash and the characters after it stand for one character: a
letter for a control, up to three octal digits, or two, four or eight hexadecimal digits after `x`,
`u` or `U`. A backslash before a line feed stands for nothing. Every other pair is kept as it is.

## Main definitions

* `Literal.unescape` decodes a body.
* `Literal.EscapeFault` lists what can be wrong with an escape.
-/

namespace PluginDataset.Literal

/-- What is wrong with an escape: too few hexadecimal digits for its width, or a number that is no
character. -/
inductive EscapeFault where
  | truncated (width : Nat)
  | outOfRange (code : Nat)
  | octalOutOfRange (code : Nat)
deriving DecidableEq, Repr

def EscapeFault.message : EscapeFault → List Char
  | .truncated width =>
    "truncated ".toList ++ Text.decimalDigits width ++ "-digit hex escape".toList
  | .outOfRange code =>
    "code point 0x".toList ++ Text.hexDigits code ++ " out of range".toList
  | .octalOutOfRange code => "octal escape ".toList ++ Text.octalDigits code

/-- How much of an escape has been read. -/
inductive EscapeState where
  /-- No escape is open. -/
  | text
  /-- A backslash has been read. -/
  | backslash
  /-- Octal digits have been read; up to `left` more may follow. -/
  | octal (value left : Nat)
  /-- Some of `width` hexadecimal digits have been read; `left` more have to follow. -/
  | hex (width left value : Nat)
deriving DecidableEq, Repr

/-- The character that a letter after a backslash stands for. -/
def escapedLetter? : Char → Option Char
  | '\\' => some '\\'
  | '\'' => some '\''
  | '"' => some '"'
  | 'a' => some '\x07'
  | 'b' => some '\x08'
  | 'f' => some '\x0C'
  | 'n' => some '\n'
  | 'r' => some '\r'
  | 't' => some '\t'
  | 'v' => some '\x0B'
  | _ => none

/-- The number of digits that a letter after a backslash asks for. -/
def hexWidth? : Char → Option Nat
  | 'x' => some 2
  | 'u' => some 4
  | 'U' => some 8
  | _ => none

/-- The state after a backslash and `c`, and what the two stand for if they are complete. -/
def afterBackslash (c : Char) : EscapeState × List Char :=
  if c = '\n' then (.text, [])
  else
    match escapedLetter? c, hexWidth? c, Text.digitValue? 8 c with
    | some x, _, _ => (.text, [x])
    | none, some width, _ => (.hex width width 0, [])
    | none, none, some digit => (.octal digit 2, [])
    | none, none, none => (.text, ['\\', c])

/-- The state after `c` outside an escape, and what it stands for. -/
def afterText (c : Char) : EscapeState × List Char :=
  if c = '\\' then (.backslash, []) else (.text, [c])

/-- The character with a number, if there is one. -/
def characterOf (fault : Nat → EscapeFault) (code : Nat) : Except EscapeFault Char :=
  if code.isValidChar then .ok (Char.ofNat code) else .error (fault code)

/-- The state after `c`, and the characters that are decided by it. An octal escape ends before the
first character that is no octal digit; a hexadecimal one may not. -/
def EscapeState.step : EscapeState → Char → Except EscapeFault (EscapeState × List Char)
  | .text, c => .ok (afterText c)
  | .backslash, c => .ok (afterBackslash c)
  | .octal value left, c =>
    match Text.digitValue? 8 c with
    | some digit =>
      let value := value * 8 + digit
      if left ≤ 1 then (characterOf .octalOutOfRange value).map fun x => (.text, [x])
      else .ok (.octal value (left - 1), [])
    | none =>
      (characterOf .octalOutOfRange value).map fun x =>
        let (state, out) := afterText c
        (state, x :: out)
  | .hex width left value, c =>
    match Text.digitValue? 16 c with
    | none => .error (.truncated width)
    | some digit =>
      let value := value * 16 + digit
      if left ≤ 1 then (characterOf .outOfRange value).map fun x => (.text, [x])
      else .ok (.hex width (left - 1) value, [])

/-- What the end of the body decides. A backslash at the end is kept. -/
def EscapeState.finish : EscapeState → Except EscapeFault (List Char)
  | .text => .ok []
  | .backslash => .ok ['\\']
  | .octal value _ => (characterOf .octalOutOfRange value).map fun x => [x]
  | .hex width _ _ => .error (.truncated width)

def unescapeFrom : EscapeState → List Char → Except EscapeFault (List Char)
  | state, [] => state.finish
  | state, c :: cs => do
    let (state, out) ← state.step c
    return out ++ (← unescapeFrom state cs)

def unescape (body : List Char) : Except EscapeFault (List Char) :=
  unescapeFrom .text body

end PluginDataset.Literal
