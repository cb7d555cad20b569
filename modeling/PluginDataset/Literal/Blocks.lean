import PluginDataset.Literal.Closing
import PluginDataset.Literal.Escape

/-!
# Documentation blocks of a source text

The texts bound to the three names of documentation literals. The first binding of a name counts;
later openings of the same name are passed over without looking at them.

## Main definitions

* `Literal.Blocks` holds the text of each name that is bound.
* `Literal.blocks` collects them from a source text.
-/

namespace PluginDataset.Literal

/-- What is wrong with a literal. -/
inductive BlockFault where
  | unterminated (name : BlockName)
  | invalidEscape (name : BlockName) (fault : EscapeFault)
deriving DecidableEq, Repr

def BlockFault.message : BlockFault → List Char
  | .unterminated name => "unterminated ".toList ++ name.word ++ " block".toList
  | .invalidEscape name fault =>
    "invalid escape in ".toList ++ name.word ++ " block: ".toList ++ fault.message

/-- The texts that are bound to the names. -/
structure Blocks where
  documentation : Option (List Char) := none
  examples : Option (List Char) := none
  returns : Option (List Char) := none
deriving DecidableEq, Repr

def Blocks.get? (b : Blocks) : BlockName → Option (List Char)
  | .documentation => b.documentation
  | .examples => b.examples
  | .returns => b.returns

def Blocks.set (b : Blocks) (text : List Char) : BlockName → Blocks
  | .documentation => { b with documentation := some text }
  | .examples => { b with examples := some text }
  | .returns => { b with returns := some text }

/-- The text of a literal with the given opening, from the text after the opening. -/
def Opening.text (o : Opening) (rest : List Char) : Except BlockFault (List Char) :=
  match body? o.quote rest with
  | none => .error (.unterminated o.name)
  | some body =>
    if o.raw then .ok body
    else (unescape body).mapError (.invalidEscape o.name)

/-- Adds the block of an opening, unless its name is bound already. -/
def Blocks.add (b : Blocks) (found : Opening × List Char) : Except BlockFault Blocks :=
  let (o, rest) := found
  if (b.get? o.name).isSome then .ok b
  else (o.text rest).map fun text => b.set text o.name

def blocks (source : List Char) : Except BlockFault Blocks :=
  (openings source).foldlM Blocks.add {}

end PluginDataset.Literal
