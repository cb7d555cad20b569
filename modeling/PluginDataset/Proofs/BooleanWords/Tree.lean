import PluginDataset.Proofs.BooleanWords.Line
import PluginDataset.Proofs.Text.Lines

/-!
# Boolean words in trees

Documentation is a tree of block mappings, printed line by line. Replacing the boolean words in its
text gives the text of the tree with its plain scalars and the words in its brackets replaced, and
with nothing else changed.

Whether a line is looked at depends on the lines before it, through the indent of the header of an
open block scalar. The invariant is that this indent is not smaller than that of the mapping that is
being read, so that the next key closes the block scalar.

## Main definitions

* `BooleanWords.Scalar`, `BooleanWords.BlockScalar` and `BooleanWords.Node` are the values in a
  tree, `BooleanWords.Mapping` is the tree.
* `BooleanWords.Mapping.print` is the text of a tree, `BooleanWords.Mapping.normalized` the tree
  with its words replaced.
* `BooleanWords.Rewrites` says what becomes of lines wherever a mapping may go on.

## Main results

* `BooleanWords.normalize_print`: replacing words commutes with printing.
-/

namespace PluginDataset.BooleanWords

/-! ## Trees -/

/-- A key, or a word of a sequence in brackets: letters, digits and underscores. -/
structure Word where
  text : List Char
  isWordChar : ∀ c ∈ text, isWordChar c = true

/-- A plain scalar: a bare value that does not look like a sequence or the header of a block
scalar. -/
structure Plain where
  text : List Char
  isBare : IsBare text
  head : ∀ c ∈ text.head?, c ∉ ['[', '|', '>']

/-- A scalar in quotes. The content may hold anything but a line feed. -/
structure Quoted where
  mark : Char
  content : List Char
  isQuote : isQuote mark = true
  oneLine : '\n' ∉ content

/-- A value on one line. -/
inductive Scalar where
  | plain (p : Plain)
  | quoted (q : Quoted)
  | flow (words : List Word)

/-- A line of a block scalar: any text behind an indent deeper than that of the key, or blanks. -/
inductive BlockLine where
  | deeper (text : List Char) (oneLine : '\n' ∉ text)
  | blank (text : List Char) (oneLine : '\n' ∉ text) (isBlank : ∀ c ∈ text, Text.isBlank c = true)

structure BlockScalar where
  folded : Bool
  indicators : List Char
  isIndicator : ∀ c ∈ indicators, c = '+' ∨ c = '-' ∨ c.isDigit = true
  lines : List BlockLine

/-- A value of a mapping. The items of a sequence and the entries of an inner mapping are indented
by `extra + 1` spaces more than the key. -/
inductive Node where
  | scalar (s : Scalar)
  | block (b : BlockScalar)
  | sequence (extra : Nat) (items : List Scalar)
  | mapping (extra : Nat) (entries : List (Word × Node))

/-- A tree. The order of its entries is that of the text. -/
abbrev Mapping := List (Word × Node)

/-! ## Printing -/

def Scalar.text : Scalar → List Char
  | .plain p => p.text
  | .quoted q => q.mark :: (q.content ++ [q.mark])
  | .flow words => flowText (words.map Word.text)

def BlockScalar.header (b : BlockScalar) : List Char :=
  (if b.folded then '>' else '|') :: b.indicators

/-- A line of a block scalar under a key with the given indent. -/
def BlockLine.line (indent : Nat) : BlockLine → List Char
  | .deeper text _ => List.replicate (indent + 1) ' ' ++ (text ++ ['\n'])
  | .blank text _ _ => text ++ ['\n']

mutual

/-- The lines of a value with its key. -/
def Node.lines : (indent : Nat) → (key : Word) → Node → List (List Char)
  | indent, key, .scalar s => [entryLine indent key.text s.text]
  | indent, key, .block b =>
    entryLine indent key.text b.header :: b.lines.map (BlockLine.line indent)
  | indent, key, .sequence extra items =>
    headLine indent key.text :: items.map fun s => itemLine (indent + 1 + extra) s.text
  | indent, key, .mapping extra entries =>
    headLine indent key.text :: mappingLines (indent + 1 + extra) entries

/-- The lines of the entries of a mapping. -/
def mappingLines : (indent : Nat) → List (Word × Node) → List (List Char)
  | _, [] => []
  | indent, (key, node) :: rest => node.lines indent key ++ mappingLines indent rest

end

/-- The text of a tree that is indented as a whole. -/
def Mapping.print (indent : Nat) (m : Mapping) : List Char :=
  (mappingLines indent m).flatten

/-! ## Replacing words -/

theorem isWordChar_booleanText (b : Bool) : ∀ c ∈ booleanText b, isWordChar c = true :=
  List.all_eq_true.1 (by cases b <;> rfl)

def Word.normalized (w : Word) : Word where
  text := replaced w.text
  isWordChar := by
    rcases replaced_cases w.text with ⟨b, -, h⟩ | ⟨-, h⟩
    · rw [h]
      exact isWordChar_booleanText b
    · rw [h]
      exact w.isWordChar

def Plain.normalized (p : Plain) : Plain where
  text := replaced p.text
  isBare := by
    rcases replaced_cases p.text with ⟨b, -, h⟩ | ⟨-, h⟩
    · rw [h]
      exact isBare_of_isWordChar (by cases b <;> decide) (isWordChar_booleanText b)
    · rw [h]
      exact p.isBare
  head := by
    rcases replaced_cases p.text with ⟨b, -, h⟩ | ⟨-, h⟩
    · rw [h]
      intro c hc
      cases b <;> (obtain rfl := Option.some.inj hc; decide)
    · rw [h]
      exact p.head

def Scalar.normalized : Scalar → Scalar
  | .plain p => .plain p.normalized
  | .quoted q => .quoted q
  | .flow words => .flow (words.map Word.normalized)

mutual

/-- The value with its plain scalars and the words in its brackets replaced. -/
def Node.normalized : Node → Node
  | .scalar s => .scalar s.normalized
  | .block b => .block b
  | .sequence extra items => .sequence extra (items.map Scalar.normalized)
  | .mapping extra entries => .mapping extra (normalizedEntries entries)

/-- The entries with their values replaced. The keys stay. -/
def normalizedEntries : List (Word × Node) → List (Word × Node)
  | [] => []
  | (key, node) :: rest => (key, node.normalized) :: normalizedEntries rest

end

def Mapping.normalized (m : Mapping) : Mapping :=
  normalizedEntries m

/-! ## Lines of scalars -/

theorem isBlockHeader_eq_false {s : List Char} (h : ∀ c ∈ s.head?, c ≠ '|' ∧ c ≠ '>') :
    isBlockHeader s = false := by
  cases s with
  | nil => rfl
  | cons c s => simp [isBlockHeader, h c rfl]

/-- A scalar is quoted, or it is bare and replaced as a value. -/
theorem Scalar.quoted_or_bare (s : Scalar) :
    (∃ q, s = .quoted q) ∨
      IsBare s.text ∧ isBlockHeader s.text = false ∧
        normalizeValue s.text = s.normalized.text := by
  cases s with
  | plain p =>
    have hbracket : ∀ c ∈ p.text.head?, c ≠ '[' := by
      rintro c hc rfl
      exact p.head '[' hc (by decide)
    have hheader : ∀ c ∈ p.text.head?, c ≠ '|' ∧ c ≠ '>' := by
      intro c hc
      have hmem := p.head c hc
      simp only [List.mem_cons, List.not_mem_nil, or_false, not_or] at hmem
      exact hmem.2
    exact .inr ⟨p.isBare, isBlockHeader_eq_false hheader, normalizeValue_eq_replaced hbracket⟩
  | quoted q => exact .inl ⟨q, rfl⟩
  | flow words =>
    have hchars : ∀ w ∈ words.map Word.text, ∀ c ∈ w, isWordChar c = true := by
      intro w hw
      obtain ⟨word, _, rfl⟩ := List.mem_map.1 hw
      exact word.isWordChar
    have htexts : (words.map Word.normalized).map Word.text =
        (words.map Word.text).map replaced := by
      rw [List.map_map, List.map_map]
      rfl
    refine .inr ⟨isBare_flowText hchars, rfl, ?_⟩
    rw [normalized, text, text, htexts]
    exact normalizeValue_flowText hchars

/-- On a line with its key, only the value is replaced, and no block scalar is opened. -/
theorem Scalar.normalizeLine_entryLine (s : Scalar) (key : Word) (indent : Nat) :
    normalizeLine (entryLine indent key.text s.text) = entryLine indent key.text s.normalized.text ∧
      opensBlock? (entryLine indent key.text s.text) = none := by
  rcases s.quoted_or_bare with ⟨q, rfl⟩ | ⟨hbare, hheader, hvalue⟩
  · exact normalizeLine_quotedEntry key.isWordChar q.isQuote (q.content ++ [q.mark])
  · rw [BooleanWords.normalizeLine_entryLine key.isWordChar hbare, hvalue,
      opensBlock?_entryLine key.isWordChar hbare, hheader]
    exact ⟨rfl, rfl⟩

/-- The same for a line with its marker. -/
theorem Scalar.normalizeLine_itemLine (s : Scalar) (indent : Nat) :
    normalizeLine (itemLine indent s.text) = itemLine indent s.normalized.text ∧
      opensBlock? (itemLine indent s.text) = none := by
  rcases s.quoted_or_bare with ⟨q, rfl⟩ | ⟨hbare, hheader, hvalue⟩
  · exact normalizeLine_quotedItem q.isQuote (q.content ++ [q.mark])
  · rw [BooleanWords.normalizeLine_itemLine hbare, hvalue, opensBlock?_itemLine hbare hheader]
    exact ⟨rfl, rfl⟩

theorem BlockScalar.mem_header (b : BlockScalar) {c : Char} (hc : c ∈ b.header) :
    c ∈ ['|', '>', '+', '-'] ∨ isWordChar c = true := by
  rcases List.mem_cons.1 hc with rfl | hc
  · cases b.folded <;> exact .inl (by decide)
  · rcases b.isIndicator c hc with rfl | rfl | hdigit
    · exact .inl (by decide)
    · exact .inl (by decide)
    · exact .inr (by simp [isWordChar, Char.isAlphanum, hdigit])

theorem BlockScalar.notMem_header (b : BlockScalar) {c : Char} (hc : c ∉ ['|', '>', '+', '-'])
    (hword : isWordChar c = false) : c ∉ b.header := by
  intro hmem
  rcases b.mem_header hmem with h | h
  · exact hc h
  · rw [h] at hword
    exact absurd hword (by decide)

theorem BlockScalar.isBlank_header (b : BlockScalar) {c : Char} (hc : c ∈ b.header) :
    Text.isBlank c = false := by
  rcases b.mem_header hc with hmem | hword
  · simp only [List.mem_cons, List.not_mem_nil, or_false] at hmem
    rcases hmem with rfl | rfl | rfl | rfl <;> rfl
  · exact isBlank_of_isWordChar hword

theorem BlockScalar.isBare_header (b : BlockScalar) : IsBare b.header where
  ne_nil := List.cons_ne_nil _ _
  oneLine := b.notMem_header (by decide) (by decide)
  head := by
    intro c hc
    obtain rfl := Option.some.inj hc
    cases b.folded <;> decide
  getLast := fun c hc => b.isBlank_header (List.mem_of_mem_getLast? hc)
  noMarker := by
    intro hstart
    have hdash := (List.cons_prefix_cons.1 hstart).1
    cases hfolded : b.folded <;> simp [hfolded] at hdash
  noKey := fun hin => b.notMem_header (c := ':') (by decide) (by decide) (hin.subset (by simp))
  noComment := fun hin => b.notMem_header (c := '#') (by decide) (by decide) (hin.subset (by simp))

theorem BlockScalar.isBlockHeader_header (b : BlockScalar) : isBlockHeader b.header = true := by
  have hmark : ∀ folded : Bool, (if folded then '>' else '|') = '|' ∨
      (if folded then '>' else '|') = '>' := by decide
  simpa [header, isBlockHeader, hmark, or_assoc] using b.isIndicator

/-- The header of a block scalar stays, and opens it. -/
theorem BlockScalar.normalizeLine_header (b : BlockScalar) (key : Word) (indent : Nat) :
    normalizeLine (entryLine indent key.text b.header) = entryLine indent key.text b.header ∧
      opensBlock? (entryLine indent key.text b.header) = some indent := by
  have hvalue : normalizeValue b.header = b.header :=
    normalizeValue_cons (by cases b.folded <;> decide) b.indicators
  rw [BooleanWords.normalizeLine_entryLine key.isWordChar b.isBare_header, hvalue,
    opensBlock?_entryLine key.isWordChar b.isBare_header, b.isBlockHeader_header]
  exact ⟨rfl, rfl⟩

/-! ## Block scalars from line to line -/

/-- The indent of the header of the open block scalar after a line. -/
def nextParent (parent : Option Nat) (line : List Char) : Option Nat :=
  if insideBlock parent line then parent else opensBlock? line

theorem normalizeLines_append (parent : Option Nat) (ls ms : List (List Char)) :
    normalizeLines parent (ls ++ ms) =
      normalizeLines parent ls ++ normalizeLines (ls.foldl nextParent parent) ms := by
  induction ls generalizing parent with
  | nil => rfl
  | cons line ls ih =>
    rw [List.cons_append, normalizeLines, normalizeLines, List.foldl_cons, nextParent]
    split
    · rw [ih, List.cons_append]
    · rw [ih, List.cons_append]

/-- An open block scalar, if there is one, ends at the next line with this indent. -/
def EndsAt (parent : Option Nat) (indent : Nat) : Prop :=
  ∀ p ∈ parent, indent ≤ p

/-- Wherever a mapping with this indent may go on, the lines become others, and the mapping may go
on after them. -/
def Rewrites (indent : Nat) (ls ls' : List (List Char)) : Prop :=
  ∀ parent, EndsAt parent indent →
    normalizeLines parent ls = ls' ∧ EndsAt (ls.foldl nextParent parent) indent

section

variable {indent : Nat} {line line' : List Char} {ls ls' ms ms' : List (List Char)}

theorem endsAt_none (indent : Nat) : EndsAt none indent := by
  simp [EndsAt]

theorem EndsAt.mono {parent : Option Nat} {inner : Nat} (h : EndsAt parent inner)
    (hindent : indent ≤ inner) : EndsAt parent indent :=
  fun p hp => hindent.trans (h p hp)

/-- A line that is not blank ends the block scalar. -/
theorem insideBlock_eq_false {parent : Option Nat} (h : EndsAt parent indent) {s : List Char}
    (hne : s ≠ []) (hs : ∀ c ∈ s.head?, Text.isBlank c = false) :
    insideBlock parent (List.replicate indent ' ' ++ s) = false := by
  cases parent with
  | none => rfl
  | some p =>
    have hp : indent ≤ p := h p rfl
    have hspaces : Text.leadingSpaces (List.replicate indent ' ' ++ s) = indent := by
      rw [Text.leadingSpaces_replicate, Text.leadingSpaces_eq_zero (head_ne_space hs), Nat.add_zero]
    obtain ⟨c, t, rfl⟩ := List.exists_cons_of_ne_nil hne
    have hblank : (List.replicate indent ' ' ++ c :: t).all Text.isBlank = false := by
      simp [hs c rfl]
    rw [insideBlock, hblank, hspaces]
    simpa using hp

/-- A key ends the block scalar. -/
theorem insideBlock_key {parent : Option Nat} (h : EndsAt parent indent) (key : Word)
    (rest : List Char) :
    insideBlock parent (List.replicate indent ' ' ++ (key.text ++ ':' :: rest)) = false :=
  insideBlock_eq_false h (by simp) fun c hc => (start_key key.isWordChar rest c hc).1.1

theorem normalizeLines_of_insideBlock {parent : Option Nat}
    (h : ∀ line ∈ ls, insideBlock parent line = true) :
    normalizeLines parent ls = ls ∧ ls.foldl nextParent parent = parent := by
  induction ls with
  | nil => exact ⟨rfl, rfl⟩
  | cons line ls ih =>
    rw [List.forall_mem_cons] at h
    obtain ⟨hlines, hafter⟩ := ih h.2
    rw [normalizeLines, if_pos h.1, hlines, List.foldl_cons, nextParent, if_pos h.1]
    exact ⟨rfl, hafter⟩

theorem Rewrites.nil (indent : Nat) : Rewrites indent [] [] :=
  fun _ h => ⟨rfl, h⟩

theorem Rewrites.append (h : Rewrites indent ls ls') (h' : Rewrites indent ms ms') :
    Rewrites indent (ls ++ ms) (ls' ++ ms') := by
  intro parent hparent
  obtain ⟨hlines, hafter⟩ := h parent hparent
  obtain ⟨hlines', hafter'⟩ := h' _ hafter
  rw [normalizeLines_append, hlines, hlines', List.foldl_append]
  exact ⟨rfl, hafter'⟩

/-- A line that ends open block scalars and opens none, before lines that may be deeper. -/
theorem Rewrites.cons {inner : Nat}
    (hends : ∀ parent, EndsAt parent indent → insideBlock parent line = false)
    (hline : normalizeLine line = line' ∧ opensBlock? line = none) (hindent : indent ≤ inner)
    (h : Rewrites inner ls ls') : Rewrites indent (line :: ls) (line' :: ls') := by
  intro parent hparent
  have hinside := hends parent hparent
  -- nothing is open after the line, so that the next lines may be indented in any way
  obtain ⟨hlines, hafter⟩ := h none (endsAt_none inner)
  rw [normalizeLines, hinside, hline.1, hline.2, List.foldl_cons, nextParent, hinside, hline.2]
  simp only [Bool.false_eq_true, if_false, hlines, true_and]
  exact hafter.mono hindent

/-- The lines of a block scalar, and only they, are passed over after its header. -/
theorem Rewrites.block
    (hends : ∀ parent, EndsAt parent indent → insideBlock parent line = false)
    (hline : normalizeLine line = line ∧ opensBlock? line = some indent)
    (h : ∀ l ∈ ls, insideBlock (some indent) l = true) :
    Rewrites indent (line :: ls) (line :: ls) := by
  intro parent hparent
  have hinside := hends parent hparent
  obtain ⟨hlines, hafter⟩ := normalizeLines_of_insideBlock h
  rw [normalizeLines, hinside, hline.1, hline.2, List.foldl_cons, nextParent, hinside, hline.2]
  simp only [Bool.false_eq_true, if_false, hlines, hafter, true_and]
  -- the block scalar stays open: it ends at the next key, which is indented like its own at most
  intro p hp
  exact (Option.some.inj hp).le

end

/-! ## Trees from line to line -/

/-- A line that is indented deeper than the header is taken for one of the block scalar. -/
theorem insideBlock_replicate {parent indent : Nat} (h : parent < indent) (s : List Char) :
    insideBlock (some parent) (List.replicate indent ' ' ++ s) = true := by
  have hspaces := Text.leadingSpaces_replicate indent s
  have hdeeper : Text.leadingSpaces (List.replicate indent ' ' ++ s) > parent := by omega
  rw [insideBlock, decide_eq_true hdeeper, Bool.or_true]

theorem insideBlock_line {parent indent : Nat} (h : parent ≤ indent) (l : BlockLine) :
    insideBlock (some parent) (l.line indent) = true := by
  cases l with
  | deeper text _ => exact insideBlock_replicate (by omega) (text ++ ['\n'])
  | blank text _ hblank =>
    have hall : (text ++ ['\n']).all Text.isBlank = true := by
      simpa using ⟨hblank, rfl⟩
    rw [insideBlock, BlockLine.line, hall, Bool.true_or]

theorem rewrites_items (items : List Scalar) (indent : Nat) :
    Rewrites indent (items.map fun s => itemLine indent s.text)
      ((items.map Scalar.normalized).map fun s => itemLine indent s.text) := by
  induction items with
  | nil => exact .nil indent
  | cons s items ih =>
    refine .cons ?_ (s.normalizeLine_itemLine indent) le_rfl ih
    intro parent hparent
    exact insideBlock_eq_false hparent (List.cons_ne_nil _ _) (by simp; decide)

mutual

/-- The lines of a value are rewritten to those of the value with its words replaced. -/
theorem rewrites_lines (node : Node) (key : Word) (indent : Nat) :
    Rewrites indent (node.lines indent key) (node.normalized.lines indent key) := by
  have hends : ∀ rest parent, EndsAt parent indent →
      insideBlock parent (List.replicate indent ' ' ++ (key.text ++ ':' :: rest)) = false :=
    fun rest parent hparent => insideBlock_key hparent key rest
  have hhead : normalizeLine (headLine indent key.text) = headLine indent key.text ∧
      opensBlock? (headLine indent key.text) = none := normalizeLine_headLine key.isWordChar
  match node with
  | .scalar s =>
    rw [Node.normalized, Node.lines, Node.lines]
    exact .cons (hends _) (s.normalizeLine_entryLine key indent) le_rfl (.nil indent)
  | .block b =>
    have hlines : ∀ line ∈ b.lines.map (BlockLine.line indent),
        insideBlock (some indent) line = true := by
      simpa using fun l _ => insideBlock_line le_rfl l
    rw [Node.normalized, Node.lines]
    exact .block (hends _) (b.normalizeLine_header key indent) hlines
  | .sequence extra items =>
    have hitems := rewrites_items items (indent + 1 + extra)
    rw [Node.normalized, Node.lines, Node.lines]
    exact .cons (hends _) hhead (by omega) hitems
  | .mapping extra entries =>
    have hentries := rewrites_mappingLines entries (indent + 1 + extra)
    rw [Node.normalized, Node.lines, Node.lines]
    exact .cons (hends _) hhead (by omega) hentries

theorem rewrites_mappingLines (entries : List (Word × Node)) (indent : Nat) :
    Rewrites indent (mappingLines indent entries)
      (mappingLines indent (normalizedEntries entries)) := by
  match entries with
  | [] =>
    rw [normalizedEntries, mappingLines]
    exact .nil indent
  | (key, node) :: rest =>
    have hnode := rewrites_lines node key indent
    have hrest := rewrites_mappingLines rest indent
    rw [normalizedEntries, mappingLines, mappingLines]
    exact hnode.append hrest

end

/-! ## Lines with their ends -/

theorem isLine_replicate (indent : Nat) {s : List Char} (hs : '\n' ∉ s) :
    Text.IsLine (List.replicate indent ' ' ++ (s ++ ['\n'])) := by
  refine ⟨List.replicate indent ' ' ++ s, ?_, by rw [List.append_assoc]⟩
  simp [hs]

theorem Word.oneLine (w : Word) : '\n' ∉ w.text :=
  notMem_of_isWordChar w.isWordChar (by decide)

theorem Scalar.oneLine (s : Scalar) : '\n' ∉ s.text := by
  rcases s.quoted_or_bare with ⟨q, rfl⟩ | ⟨hbare, _⟩
  · have hmark : '\n' ≠ q.mark := (ne_of_isQuote q.isQuote rfl).symm
    simp [text, hmark, q.oneLine]
  · exact hbare.oneLine

theorem BlockLine.isLine (l : BlockLine) (indent : Nat) : Text.IsLine (l.line indent) := by
  cases l with
  | deeper text oneLine => exact isLine_replicate (indent + 1) oneLine
  | blank text oneLine _ => exact ⟨text, oneLine, rfl⟩

theorem isLine_entryLine (indent : Nat) (key : Word) {value : List Char} (hvalue : '\n' ∉ value) :
    Text.IsLine (entryLine indent key.text value) := by
  have hs : '\n' ∉ key.text ++ ':' :: ' ' :: value := by simp [key.oneLine, hvalue]
  simpa [entryLine] using isLine_replicate indent hs

theorem isLine_itemLine (indent : Nat) (s : Scalar) : Text.IsLine (itemLine indent s.text) := by
  have hs : '\n' ∉ '-' :: ' ' :: s.text := by simp [s.oneLine]
  simpa [itemLine] using isLine_replicate indent hs

theorem isLine_headLine (indent : Nat) (key : Word) : Text.IsLine (headLine indent key.text) := by
  have hs : '\n' ∉ key.text ++ [':'] := by simp [key.oneLine]
  simpa [headLine] using isLine_replicate indent hs

mutual

theorem isLine_of_mem_lines (node : Node) (key : Word) (indent : Nat) :
    ∀ line ∈ node.lines indent key, Text.IsLine line := by
  match node with
  | .scalar s => simpa [Node.lines] using isLine_entryLine indent key s.oneLine
  | .block b =>
    have hheader := isLine_entryLine indent key b.isBare_header.oneLine
    simpa [Node.lines, hheader] using fun l _ => BlockLine.isLine l indent
  | .sequence extra items =>
    simpa [Node.lines, isLine_headLine] using fun s _ => isLine_itemLine (indent + 1 + extra) s
  | .mapping extra entries =>
    have hentries := isLine_of_mem_mappingLines entries (indent + 1 + extra)
    simpa [Node.lines, isLine_headLine] using hentries

theorem isLine_of_mem_mappingLines (entries : List (Word × Node)) (indent : Nat) :
    ∀ line ∈ mappingLines indent entries, Text.IsLine line := by
  match entries with
  | [] => simp [mappingLines]
  | (key, node) :: rest =>
    have hnode := isLine_of_mem_lines node key indent
    have hrest := isLine_of_mem_mappingLines rest indent
    intro line hline
    rw [mappingLines, List.mem_append] at hline
    exact hline.elim (hnode line) (hrest line)

end

/-- Replacing boolean words commutes with printing: in the text of a tree just the plain scalars
and the words of sequences in brackets are replaced. -/
theorem normalize_print (m : Mapping) (indent : Nat) :
    normalize (m.print indent) = m.normalized.print indent := by
  have hlines := Text.lines_flatten (isLine_of_mem_mappingLines m indent)
  have hrewrites := (rewrites_mappingLines m indent none (endsAt_none indent)).1
  rw [normalize, Mapping.print, hlines, hrewrites]
  rfl

example : normalize "a: |\n  b: no\nc: [yes, nope]\nd:\n  e: no\n".toList =
    "a: |\n  b: no\nc: [true, nope]\nd:\n  e: false\n".toList := by
  decide

end PluginDataset.BooleanWords
