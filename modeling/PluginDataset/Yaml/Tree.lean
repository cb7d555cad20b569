import PluginDataset.Yaml.Token

/-!
# YAML trees

The nodes of a document with their tags, anchors and aliases, before aliases are followed and
scalars are interpreted.

## Main definitions

* `Yaml.Tree` is the type of nodes; its parameter is what anchors and aliases are named by.
* `Yaml.document?` reads the one document of a sequence of tokens.
-/

namespace PluginDataset.Yaml

/-- A node. A tag is given in full, as bytes. -/
inductive Tree (α : Type) where
  | alias (target : α)
  | scalar (anchor : Option α) (tag : Option (List UInt8)) (plain : Bool) (text : List Char)
  | sequence (anchor : Option α) (tag : Option (List UInt8)) (items : List (Tree α))
  | mapping (anchor : Option α) (tag : Option (List UInt8)) (entries : List (Tree α × Tree α))

abbrev Node := Tree (List Char)

/-- The node that stands where nothing is written. -/
def emptyNode : Node :=
  .scalar none none true []

abbrev Handles := List (List Char × List UInt8)

def standardHandles : Handles :=
  [(['!'], Utf8.encode ['!']), (['!', '!'], Utf8.encode "tag:yaml.org,2002:".toList)]

def TagText.full? (handles : Handles) (t : TagText) : Option (List UInt8) :=
  if t.handle = [] then some t.suffix
  else (handles.lookup t.handle).map (· ++ t.suffix)

/-- Anchor and tag before a node, in either order. -/
def properties? (handles : Handles) :
    List Token → Option (Option (List Char) × Option (List UInt8) × List Token)
  | .anchor a :: .tag t :: rest => (t.full? handles).map fun tag => (some a, some tag, rest)
  | .tag t :: .anchor a :: rest => (t.full? handles).map fun tag => (some a, some tag, rest)
  | .anchor a :: rest => some (some a, none, rest)
  | .tag t :: rest => (t.full? handles).map fun tag => (none, some tag, rest)
  | tokens => some (none, none, tokens)

/-- Whether the next token ends an item of a block sequence without a node. -/
def endsBlockItem : List Token → Bool
  | .blockEntry :: _ | .blockEnd :: _ => true
  | _ => false

/-- Whether the next token ends an item of a sequence that is not indented. -/
def endsFlatItem : List Token → Bool
  | .blockEntry :: _ | .key :: _ | .value :: _ | .blockEnd :: _ => true
  | _ => false

/-- Whether the next token ends a key or value of a block mapping without a node. -/
def endsBlockPart : List Token → Bool
  | .key :: _ | .value :: _ | .blockEnd :: _ => true
  | _ => false

/-- Whether the next token ends a key inside brackets without a node. -/
def endsPairKey : List Token → Bool
  | .value :: _ | .flowEntry :: _ | .flowSequenceEnd :: _ => true
  | _ => false

/-- Whether the next token ends a value inside brackets without a node. -/
def endsPairValue : List Token → Bool
  | .flowEntry :: _ | .flowSequenceEnd :: _ => true
  | _ => false

/-- Whether the next token ends a key inside braces without a node. -/
def endsFlowKey : List Token → Bool
  | .value :: _ | .flowEntry :: _ | .flowMappingEnd :: _ => true
  | _ => false

/-- Whether the next token ends a value inside braces without a node. -/
def endsFlowValue : List Token → Bool
  | .flowEntry :: _ | .flowMappingEnd :: _ => true
  | _ => false

mutual

/-- A node and the tokens after it. Block collections are read only with `block`, a sequence that is
not indented only with `flat`. Anchors and tags alone stand for an empty scalar. -/
def node? (handles : Handles) : (fuel : Nat) → (block flat : Bool) → List Token →
    Option (Node × List Token)
  | 0, _, _, _ => none
  | _ + 1, _, _, .alias name :: rest => some (.alias name, rest)
  | fuel + 1, block, flat, tokens =>
    match properties? handles tokens with
    | none => none
    | some (anchor, tag, rest) =>
      match rest with
      | .scalar text plain :: rest => some (.scalar anchor tag plain text, rest)
      | .flowSequenceStart :: rest =>
        (flowItems? handles fuel true rest).map fun (items, rest) =>
          (.sequence anchor tag items, rest)
      | .flowMappingStart :: rest =>
        (flowEntries? handles fuel true rest).map fun (entries, rest) =>
          (.mapping anchor tag entries, rest)
      | token :: rest' =>
        if flat ∧ token = .blockEntry then
          (flatItems? handles fuel (token :: rest')).map fun (items, rest) =>
            (.sequence anchor tag items, rest)
        else if block ∧ token = .blockSequenceStart then
          (blockItems? handles fuel rest').map fun (items, rest) =>
            (.sequence anchor tag items, rest)
        else if block ∧ token = .blockMappingStart then
          (blockEntries? handles fuel rest').map fun (entries, rest) =>
            (.mapping anchor tag entries, rest)
        else if anchor.isSome ∨ tag.isSome then some (.scalar anchor tag true [], token :: rest')
        else none
      | [] => if anchor.isSome ∨ tag.isSome then some (.scalar anchor tag true [], []) else none

def nodeUnless? (handles : Handles) : (fuel : Nat) → (ends block flat : Bool) → List Token →
    Option (Node × List Token)
  | 0, _, _, _, _ => none
  | fuel + 1, ends, block, flat, tokens =>
    if ends then some (emptyNode, tokens) else node? handles fuel block flat tokens

/-- The items of a block sequence after its start. -/
def blockItems? (handles : Handles) : (fuel : Nat) → List Token →
    Option (List Node × List Token)
  | 0, _ => none
  | _ + 1, .blockEnd :: rest => some ([], rest)
  | fuel + 1, .blockEntry :: rest =>
    match nodeUnless? handles fuel (endsBlockItem rest) true false rest with
    | none => none
    | some (item, rest) =>
      (blockItems? handles fuel rest).map fun (items, rest) => (item :: items, rest)
  | _ + 1, _ => none

def flatItems? (handles : Handles) : (fuel : Nat) → List Token →
    Option (List Node × List Token)
  | 0, _ => none
  | fuel + 1, .blockEntry :: rest =>
    match nodeUnless? handles fuel (endsFlatItem rest) true false rest with
    | none => none
    | some (item, rest) =>
      (flatItems? handles fuel rest).map fun (items, rest) => (item :: items, rest)
  | _ + 1, tokens => some ([], tokens)

/-- The entries of a block mapping after its start. -/
def blockEntries? (handles : Handles) : (fuel : Nat) → List Token →
    Option (List (Node × Node) × List Token)
  | 0, _ => none
  | _ + 1, .blockEnd :: rest => some ([], rest)
  | fuel + 1, .key :: rest =>
    match nodeUnless? handles fuel (endsBlockPart rest) true true rest with
    | none => none
    | some (key, rest) =>
      let value? := match rest with
        | .value :: rest => nodeUnless? handles fuel (endsBlockPart rest) true true rest
        | rest => some (emptyNode, rest)
      match value? with
      | none => none
      | some (value, rest) =>
        (blockEntries? handles fuel rest).map fun (entries, rest) => ((key, value) :: entries, rest)
  | _ + 1, _ => none

/-- The items inside brackets after the opening one, or after an item unless `first`. -/
def flowItems? (handles : Handles) : (fuel : Nat) → (first : Bool) → List Token →
    Option (List Node × List Token)
  | 0, _, _ => none
  | _ + 1, _, .flowSequenceEnd :: rest => some ([], rest)
  | fuel + 1, first, tokens =>
    let start? := match first, tokens with
      | true, tokens => some tokens
      | false, .flowEntry :: tokens => some tokens
      | false, _ => none
    match start? with
    | none => none
    | some (.flowSequenceEnd :: rest) => some ([], rest)
    | some (.key :: rest) =>
      match pair? handles fuel rest with
      | none => none
      | some (pair, rest) =>
        (flowItems? handles fuel false rest).map fun (items, rest) =>
          (.mapping none none [pair] :: items, rest)
    | some tokens =>
      match node? handles fuel false false tokens with
      | none => none
      | some (item, rest) =>
        (flowItems? handles fuel false rest).map fun (items, rest) => (item :: items, rest)

/-- A key and a value inside brackets, after the token for the key. A missing key takes up the token
that ends it. -/
def pair? (handles : Handles) : (fuel : Nat) → List Token →
    Option ((Node × Node) × List Token)
  | 0, _ => none
  | fuel + 1, tokens =>
    let key? :=
      if endsPairKey tokens then some (emptyNode, tokens.drop 1)
      else node? handles fuel false false tokens
    match key? with
    | none => none
    | some (key, .value :: rest) =>
      (nodeUnless? handles fuel (endsPairValue rest) false false rest).map fun (value, rest) =>
        ((key, value), rest)
    | some (key, rest) => some ((key, emptyNode), rest)

/-- The entries inside braces after the opening one, or after an entry unless `first`. -/
def flowEntries? (handles : Handles) : (fuel : Nat) → (first : Bool) → List Token →
    Option (List (Node × Node) × List Token)
  | 0, _, _ => none
  | _ + 1, _, .flowMappingEnd :: rest => some ([], rest)
  | fuel + 1, first, tokens =>
    let start? := match first, tokens with
      | true, tokens => some tokens
      | false, .flowEntry :: tokens => some tokens
      | false, _ => none
    match start? with
    | none => none
    | some (.flowMappingEnd :: rest) => some ([], rest)
    | some tokens =>
      let entry? := match tokens with
        | .key :: rest =>
          match nodeUnless? handles fuel (endsFlowKey rest) false false rest with
          | none => none
          | some (key, .value :: rest) =>
            (nodeUnless? handles fuel (endsFlowValue rest) false false rest).map
              fun (value, rest) => ((key, value), rest)
          | some (key, rest) => some ((key, emptyNode), rest)
        | tokens =>
          (node? handles fuel false false tokens).map fun (key, rest) => ((key, emptyNode), rest)
      match entry? with
      | none => none
      | some (entry, rest) =>
        (flowEntries? handles fuel false rest).map fun (entries, rest) => (entry :: entries, rest)

end

/-- The directives before a document: whether a version was given, the handles that they define, and
the tokens after them. Neither a version nor a handle may be given twice. -/
def directives? : (version : Bool) → Handles → List Token → Option (Handles × Bool × List Token)
  | version, handles, .directive (.version major minor) :: rest =>
    if version || major != 1 || !(minor == 1 || minor == 2) then none
    else directives? true handles rest
  | version, handles, .directive (.handle handle expansion) :: rest =>
    if (handles.lookup handle).isSome then none
    else directives? version (handles ++ [(handle, expansion)]) rest
  | version, handles, rest => some (handles, version || !handles.isEmpty, rest)

/-- Whether the next token ends a document without a node. -/
def endsDocument : List Token → Bool
  | [] | .directive _ :: _ | .documentStart :: _ | .documentEnd :: _ => true
  | _ => false

/-- The tokens after the marks that end a document. -/
def skipDocumentEnds (tokens : List Token) : List Token :=
  tokens.dropWhile (· == .documentEnd)

/-- The root of the one document that the tokens hold; an empty sequence of tokens holds an empty
node. Directives ask for an explicit start. -/
def document? (tokens : List Token) : Option Node := do
  let (handles, directed, rest) ← directives? false [] tokens
  let content ← match rest with
    | .documentStart :: rest => some rest
    | rest => if directed then none else some rest
  let handles := handles ++ standardHandles
  let (root, rest) ←
    if endsDocument content && (content != rest || rest.isEmpty) then some (emptyNode, content)
    else node? handles (4 * content.length + 4) true false content
  if skipDocumentEnds rest = [] then some root else none

end PluginDataset.Yaml
