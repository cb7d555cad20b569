import PluginDataset.Proofs.BooleanWords.Replacement
import PluginDataset.Proofs.BooleanWords.Span
import PluginDataset.Proofs.BooleanWords.Tree

/-!
# Mappings in block sequences

An item of a block sequence may be a mapping whose first key stands behind the dash, two columns
after it, and whose other keys stand below the first one. A block scalar is told by the indent of
the line of its header, which for the first key is the column of the dash: the keys below it are
indented deeper, so that they are taken for lines of the block scalar. All other items are replaced
like mappings on their own.

## Main definitions

* `BooleanWords.MappingItem` is a mapping in a block sequence, `BooleanWords.printItems` the text of
  a sequence.
* `BooleanWords.MappingItem.normalized` is an item with its words replaced,
  `BooleanWords.MappingItem.rewritten` what becomes of it.

## Main results

* `BooleanWords.normalizeLine_dashed_entryLine`, `BooleanWords.normalizeLine_dashed_headLine`: a
  line behind a dash is replaced like the line without it.
* `BooleanWords.rewrites_item`: the lines of an item, wherever the sequence may go on.
* `BooleanWords.normalize_printItems`: what becomes of a block sequence of mappings.
* `BooleanWords.normalize_printItems_ne`: a sequence in which a word stays.
-/

namespace PluginDataset.BooleanWords

variable {column : Nat} {key : List Char}

/-! ## Items -/

/-- A mapping in a block sequence. It has a first entry. -/
structure MappingItem where
  key : Word
  value : Node
  rest : Mapping

namespace MappingItem

def entries (i : MappingItem) : Mapping :=
  (i.key, i.value) :: i.rest

/-- The item with all of its words replaced. -/
def normalized (i : MappingItem) : MappingItem :=
  ⟨i.key, i.value.normalized, i.rest.normalized⟩

/-- Whether the first value is a block scalar. -/
def opensBlock (i : MappingItem) : Bool :=
  match i.value with
  | .block _ => true
  | _ => false

/-- What becomes of the item: a block scalar behind the dash hides the entries below it. -/
def rewritten (i : MappingItem) : MappingItem :=
  if i.opensBlock then i else i.normalized

end MappingItem

/-- A line with a dash two columns before its text. -/
def dashed (column : Nat) (line : List Char) : List Char :=
  List.replicate column ' ' ++ '-' :: ' ' :: line.drop (column + 2)

/-- The lines of an item with its dash in a column, and its keys two columns after it. -/
def MappingItem.lines (column : Nat) (i : MappingItem) : List (List Char) :=
  (mappingLines (column + 2) i.entries).modifyHead (dashed column)

/-- The text of a block sequence of mappings. -/
def printItems (column : Nat) (list : List MappingItem) : List Char :=
  (list.flatMap (MappingItem.lines column)).flatten

/-! ## Lines behind a dash -/

theorem dashed_replicate (column : Nat) (s : List Char) :
    dashed column (List.replicate (column + 2) ' ' ++ s) =
      List.replicate column ' ' ++ '-' :: ' ' :: s := by
  rw [dashed, List.drop_left' List.length_replicate]

theorem leadingSpaces_dashed (column : Nat) (line : List Char) :
    Text.leadingSpaces (dashed column line) = column := by
  rw [dashed, Text.leadingSpaces_replicate, Text.leadingSpaces_eq_zero (by simp), Nat.add_zero]

section

variable {line line' before before' rest : List Char}

/-- A value is found in the same way on lines that differ before it. -/
theorem span?_congr (h : splitHead? line = some (before, rest))
    (h' : splitHead? line' = some (before', rest)) {value after : List Char}
    (hspan : span? line = some ⟨before, value, after⟩) :
    span? line' = some ⟨before', value, after⟩ := by
  obtain ⟨hentry, hends⟩ := span?_eq_some_iff.1 hspan
  obtain ⟨-, rfl⟩ := Prod.mk.inj (Option.some.inj (h.symm.trans hentry))
  exact span?_eq_some_iff.2 ⟨h', hends⟩

/-- Lines that differ before their values are replaced alike. -/
theorem normalizeLine_congr (h : splitHead? line = some (before, rest))
    (h' : splitHead? line' = some (before', rest)) :
    (∃ rest', normalizeLine line = before ++ rest' ∧ normalizeLine line' = before' ++ rest') ∧
      opensBlock? line' = (opensBlock? line).map fun _ => Text.leadingSpaces line' := by
  cases hspan : span? line with
  | none =>
    have hspan' : span? line' = none := by
      by_contra hne
      obtain ⟨⟨b, value, after⟩, hsome⟩ := Option.ne_none_iff_exists'.1 hne
      obtain ⟨rfl, -⟩ :=
        Prod.mk.inj (Option.some.inj (h'.symm.trans (span?_eq_some_iff.1 hsome).1))
      rw [span?_congr h' h hsome] at hspan
      simp at hspan
    simp only [normalizeLine, opensBlock?, hspan, hspan', Option.map_none, and_true]
    exact ⟨rest, (append_of_splitHead? h).symm, (append_of_splitHead? h').symm⟩
  | some span =>
    obtain ⟨b, value, after⟩ := span
    obtain ⟨rfl, -⟩ :=
      Prod.mk.inj (Option.some.inj (h.symm.trans (span?_eq_some_iff.1 hspan).1))
    have hspan' := span?_congr h h' hspan
    simp only [normalizeLine, opensBlock?, hspan, hspan', List.append_assoc]
    refine ⟨⟨_, rfl, rfl⟩, ?_⟩
    split <;> rfl

end

/-- What stands behind a key is found whatever markers stand in front of it. -/
theorem splitHead?_of_markers {markers : List Char} (hmarkers : IsMarkers markers)
    (hkey : ∀ c ∈ key, isWordChar c = true) (r : List Char) :
    splitHead? (markers ++ (key ++ ':' :: ' ' :: r)) =
      some (markers ++ (key ++ ':' :: ' ' :: r.takeWhile (· == ' ')),
        r.dropWhile (· == ' ')) := by
  have hcolon : ':' ∉ key := notMem_of_isWordChar hkey (by decide)
  have hstart := start_key hkey (' ' :: r)
  have hspace := head_ne_space fun c hc => (hstart c hc).1.1
  have hsplit := splitMarkers_eq_iff.2
    ⟨rfl, hmarkers, hspace, not_marker_isPrefix_key hkey (' ' :: r)⟩
  have hplain := startsQuotedOrComment_eq_false fun c hc => (hstart c hc).2
  simp only [splitHead?, hsplit, hplain, splitKey?_append hcolon, Bool.false_eq_true, if_false]
  simp

theorem isMarkers_replicate {s : List Char} (h : IsMarkers s) (n : Nat) :
    IsMarkers (List.replicate n ' ' ++ s) := by
  induction n with
  | zero => exact h
  | succ n ih =>
    rw [List.replicate_succ, List.cons_append]
    exact .space ih

/-- A line `key: value` behind a dash is replaced like the line without the dash, but for the indent
of a block scalar. -/
theorem normalizeLine_dashed_entryLine (column : Nat) (hkey : ∀ c ∈ key, isWordChar c = true)
    (value : List Char) :
    normalizeLine (dashed column (entryLine (column + 2) key value)) =
        dashed column (normalizeLine (entryLine (column + 2) key value)) ∧
      opensBlock? (dashed column (entryLine (column + 2) key value)) =
        (opensBlock? (entryLine (column + 2) key value)).map fun _ => column := by
  have hindent : IsMarkers (List.replicate (column + 2) ' ') := by
    simpa using isMarkers_replicate .nil (column + 2)
  have hdash : IsMarkers (List.replicate column ' ' ++ ['-', ' ']) :=
    isMarkers_replicate (.marker .nil) column
  have hsplit := splitHead?_of_markers hindent hkey (value ++ ['\n'])
  have hsplit' := splitHead?_of_markers hdash hkey (value ++ ['\n'])
  have hdashed : dashed column (entryLine (column + 2) key value) =
      List.replicate column ' ' ++ ['-', ' '] ++ (key ++ ':' :: ' ' :: (value ++ ['\n'])) := by
    rw [entryLine, dashed_replicate]
    simp
  obtain ⟨⟨rest, hline, hline'⟩, hopens⟩ := normalizeLine_congr hsplit hsplit'
  rw [← hdashed] at hline' hopens
  rw [← entryLine] at hline hopens
  rw [hline, hline', hopens, leadingSpaces_dashed,
    List.append_assoc (List.replicate (column + 2) ' '), dashed_replicate]
  simp

section

variable (hkey : ∀ c ∈ key, isWordChar c = true)

include hkey

theorem notMem_key_colon {c : Char} (hc : isWordChar c = false) (hne : c ≠ ':') :
    c ∉ key ++ [':'] := by
  simpa [hne] using notMem_of_isWordChar hkey hc

/-- A key with its colon is a bare value. -/
theorem isBare_key : IsBare (key ++ [':']) where
  ne_nil := by simp
  oneLine := notMem_key_colon hkey (by decide) (by decide)
  head := fun c hc => ⟨(start_key hkey [] c hc).1.1, (start_key hkey [] c hc).2⟩
  getLast := by simp; decide
  noMarker := not_marker_isPrefix_key hkey []
  noKey := fun hin =>
    notMem_key_colon hkey (c := ' ') (by decide) (by decide) (hin.subset (by simp))
  noComment := fun hin =>
    notMem_key_colon hkey (c := ' ') (by decide) (by decide) (hin.subset (by simp))

/-- A key with its colon is neither a word nor a sequence. -/
theorem normalizeValue_key : normalizeValue (key ++ [':']) = key ++ [':'] := by
  have hbracket : ∀ c ∈ (key ++ [':']).head?, c ≠ '[' := by
    rintro c hc rfl
    exact notMem_key_colon hkey (by decide) (by decide) (List.mem_of_mem_head? hc)
  have hword : word? (key ++ [':']) = none :=
    word?_eq_none (List.mem_append_right key (List.mem_singleton_self ':')) rfl
  rw [normalizeValue_eq_replaced hbracket, replaced, hword]

theorem isBlockHeader_key : isBlockHeader (key ++ [':']) = false := by
  refine isBlockHeader_eq_false fun c hc => ⟨?_, ?_⟩ <;>
    (rintro rfl
     exact notMem_key_colon hkey (by decide) (by decide) (List.mem_of_mem_head? hc))

/-- Behind a dash a key of its own is the value of the line. -/
theorem normalizeLine_dashed_headLine (column : Nat) :
    normalizeLine (dashed column (headLine (column + 2) key)) =
        dashed column (normalizeLine (headLine (column + 2) key)) ∧
      opensBlock? (dashed column (headLine (column + 2) key)) = none := by
  have hdashed : dashed column (headLine (column + 2) key) = itemLine column (key ++ [':']) := by
    rw [headLine, dashed_replicate, itemLine, List.append_assoc]
    rfl
  rw [(normalizeLine_headLine hkey).1, hdashed, normalizeLine_itemLine (isBare_key hkey),
    normalizeValue_key hkey]
  exact ⟨rfl, opensBlock?_itemLine (isBare_key hkey) (isBlockHeader_key hkey)⟩

end

/-! ## Items from line to line -/

/-- A dash ends the block scalars that the items before it have opened. -/
theorem insideBlock_dashed {parent : Option Nat} (h : EndsAt parent column) (line : List Char) :
    insideBlock parent (dashed column line) = false :=
  insideBlock_eq_false h (List.cons_ne_nil _ _) (by simp; decide)

/-- A dash in front of lines that open no block scalar with the first one. -/
theorem Rewrites.dashed {line : List Char} {ls ls' : List (List Char)}
    (h : Rewrites (column + 2) (line :: ls) ls') (hopens : opensBlock? line = none)
    (hline : normalizeLine (dashed column line) = dashed column (normalizeLine line) ∧
      opensBlock? (dashed column line) = none) :
    Rewrites column (dashed column line :: ls) (ls'.modifyHead (dashed column)) := by
  intro parent hparent
  have hinside := insideBlock_dashed hparent line
  -- without a dash the line would leave nothing open either
  obtain ⟨rfl, hafter⟩ := h none (endsAt_none (column + 2))
  rw [List.foldl_cons, nextParent, insideBlock, hopens] at hafter
  rw [normalizeLines, normalizeLines, hinside, insideBlock, hline.1, hline.2, hopens,
    List.foldl_cons, nextParent, hinside, hline.2]
  exact ⟨rfl, hafter.mono (by omega)⟩

mutual

/-- A value whose key is indented deeper than the header is taken for lines of the block scalar. -/
theorem insideBlock_of_mem_lines (node : Node) (key : Word) {parent indent : Nat}
    (h : parent < indent) :
    ∀ line ∈ node.lines indent key, insideBlock (some parent) line = true := by
  match node with
  | .scalar s => simpa [Node.lines, entryLine] using insideBlock_replicate h _
  | .block b =>
    have hheader := insideBlock_replicate h (key.text ++ ':' :: ' ' :: (b.header ++ ['\n']))
    simpa [Node.lines, entryLine, hheader] using fun l _ => insideBlock_line h.le l
  | .sequence extra items =>
    have hhead := insideBlock_replicate h (key.text ++ [':', '\n'])
    have hdeeper : parent < indent + 1 + extra := by omega
    simpa [Node.lines, headLine, itemLine, hhead] using fun s _ => insideBlock_replicate hdeeper _
  | .mapping extra entries =>
    have hhead := insideBlock_replicate h (key.text ++ [':', '\n'])
    have hdeeper : parent < indent + 1 + extra := by omega
    simpa [Node.lines, headLine, hhead] using insideBlock_of_mem_mappingLines entries hdeeper

theorem insideBlock_of_mem_mappingLines (entries : List (Word × Node)) {parent indent : Nat}
    (h : parent < indent) :
    ∀ line ∈ mappingLines indent entries, insideBlock (some parent) line = true := by
  match entries with
  | [] => simp [mappingLines]
  | (key, node) :: rest =>
    have hnode := insideBlock_of_mem_lines node key h
    have hrest := insideBlock_of_mem_mappingLines rest h
    intro line hline
    rw [mappingLines, List.mem_append] at hline
    exact hline.elim (hnode line) (hrest line)

end

/-- Wherever a sequence may go on, an item is replaced whole, unless it starts with a block scalar:
then it stays. -/
theorem rewrites_item (column : Nat) (i : MappingItem) :
    Rewrites column (i.lines column) (i.rewritten.lines column) := by
  obtain ⟨key, value, rest⟩ := i
  have hentries := rewrites_mappingLines ((key, value) :: rest) (column + 2)
  cases value with
  | scalar s =>
    have hline := normalizeLine_dashed_entryLine column key.isWordChar s.text
    have hopens := (s.normalizeLine_entryLine key (column + 2)).2
    rw [hopens] at hline
    exact hentries.dashed hopens hline
  | block b =>
    have hline := normalizeLine_dashed_entryLine column key.isWordChar b.header
    obtain ⟨hsame, hopens⟩ := b.normalizeLine_header key (column + 2)
    rw [hsame, hopens] at hline
    refine .block (fun parent hparent => insideBlock_dashed hparent _) hline ?_
    -- the keys below the dash are indented deeper than it
    have hentries := insideBlock_of_mem_mappingLines ((key, .block b) :: rest)
      (show column < column + 2 by omega)
    exact fun line hmem => hentries line (List.mem_cons_of_mem _ hmem)
  | sequence extra items =>
    have hline := normalizeLine_dashed_headLine key.isWordChar column
    exact hentries.dashed (normalizeLine_headLine key.isWordChar).2 hline
  | mapping extra entries =>
    have hline := normalizeLine_dashed_headLine key.isWordChar column
    exact hentries.dashed (normalizeLine_headLine key.isWordChar).2 hline

theorem rewrites_flatMap (column : Nat) (list : List MappingItem) :
    Rewrites column (list.flatMap (MappingItem.lines column))
      ((list.map MappingItem.rewritten).flatMap (MappingItem.lines column)) := by
  induction list with
  | nil => exact .nil column
  | cons i list ih =>
    rw [List.map_cons, List.flatMap_cons, List.flatMap_cons]
    exact (rewrites_item column i).append ih

/-! ## Texts of sequences -/

/-- A dash fits in front of a line that is longer than its indent. -/
theorem isLine_dashed {line : List Char} (h : Text.IsLine line)
    (hlength : column + 2 < line.length) : Text.IsLine (dashed column line) := by
  obtain ⟨s, hs, rfl⟩ := h
  have hle : column + 2 ≤ s.length := by
    rw [List.length_append, List.length_singleton] at hlength
    omega
  have hafter : '\n' ∉ '-' :: ' ' :: s.drop (column + 2) := by
    simpa using fun hmem => hs (List.mem_of_mem_drop hmem)
  rw [dashed, List.drop_append_of_le_length hle]
  exact isLine_replicate column hafter

theorem isLine_of_mem_item (column : Nat) (i : MappingItem) :
    ∀ line ∈ i.lines column, Text.IsLine line := by
  obtain ⟨key, value, rest⟩ := i
  obtain ⟨first, ls, hlines, hlength⟩ : ∃ first ls,
      mappingLines (column + 2) ((key, value) :: rest) = first :: ls ∧
        column + 2 < first.length := by
    cases value <;>
      exact ⟨_, _, rfl, by
        simp only [entryLine, headLine, List.length_append, List.length_replicate, List.length_cons]
        omega⟩
  have hentries := isLine_of_mem_mappingLines ((key, value) :: rest) (column + 2)
  rw [hlines, List.forall_mem_cons] at hentries
  rw [MappingItem.lines, MappingItem.entries, hlines, List.modifyHead_cons, List.forall_mem_cons]
  exact ⟨isLine_dashed hentries.1 hlength, hentries.2⟩

/-- In the text of a block sequence of mappings just the words of the values are replaced, but for
the mappings that start with a block scalar: they stay, words and all. -/
theorem normalize_printItems (column : Nat) (list : List MappingItem) :
    normalize (printItems column list) = printItems column (list.map MappingItem.rewritten) := by
  have hlines : ∀ line ∈ list.flatMap (MappingItem.lines column), Text.IsLine line := by
    simpa using fun line i _ => isLine_of_mem_item column i line
  have hrewrites := (rewrites_flatMap column list none (endsAt_none column)).1
  rw [normalize, printItems, Text.lines_flatten hlines, hrewrites]
  rfl

/-- A mapping that starts with a block scalar, and has a word after it. -/
def hidingItem : MappingItem where
  key := ⟨"text".toList, List.all_eq_true.1 rfl⟩
  value := .block ⟨false, [], by simp, [.deeper " line".toList (by decide)]⟩
  rest := [(⟨"required".toList, List.all_eq_true.1 rfl⟩,
    .scalar (.plain ⟨"yes".toList,
      isBare_of_isWordChar (by decide) (List.all_eq_true.1 rfl), by simp⟩))]

/-- The word stays, as if its line belonged to the block scalar. -/
theorem normalize_printItems_ne :
    printItems 0 [hidingItem] = "- text: |\n    line\n  required: yes\n".toList ∧
      normalize (printItems 0 [hidingItem]) = printItems 0 [hidingItem] ∧
      normalize (printItems 0 [hidingItem]) ≠ printItems 0 [hidingItem.normalized] := by
  decide

end PluginDataset.BooleanWords
