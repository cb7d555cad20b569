import PluginDataset.Proofs.BooleanWords.Replacement
import PluginDataset.Proofs.BooleanWords.Span

/-!
# Words that have been replaced

Replacing the words of a text a second time changes nothing, whatever the text is. A line on which
a word was replaced has another length, but it is cut in the same places: what replaces a value
starts and ends with a letter or a bracket, and it has a colon before a space or a number sign
after one only where the value had. The indent of the line stays too, so that the same block scalars
are open on the lines after it.

## Main definitions

* `BooleanWords.HasEdges` describes the values that may be replaced, and what replaces them.

## Main results

* `BooleanWords.normalizeValue_normalizeValue`: no word is left in a value.
* `BooleanWords.span?_replace`: what replaces a value is found in its place.
* `BooleanWords.normalize_normalize`: replacing the words of a text is idempotent.
-/

namespace PluginDataset.BooleanWords

variable {value line : List Char}

/-! ## Items -/

/-- Blanks around a text that has none at its ends. -/
theorem trim_append {leading s trailing : List Char}
    (hleading : ∀ c ∈ leading, Text.isBlank c = true)
    (htrailing : ∀ c ∈ trailing, Text.isBlank c = true) (hne : s ≠ [])
    (hs : ∀ c ∈ s, Text.isBlank c = false) : Text.trim (leading ++ (s ++ trailing)) = s := by
  have hhead : ∀ c ∈ (s ++ trailing).head?, Text.isBlank c = false := by
    intro c hc
    rw [List.head?_append_of_ne_nil s hne] at hc
    exact hs c (List.mem_of_mem_head? hc)
  rw [Text.trim, Text.trimStart, (cut_append hleading hhead).2]
  exact Text.trimEnd_append (fun c hc => hs c (List.mem_of_mem_getLast? hc)) htrailing

theorem isWordChar_of_isAlpha {c : Char} (h : c.isAlpha = true) : isWordChar c = true := by
  simp [isWordChar, Char.isAlphanum, h]

theorem word?_replaced (s : List Char) : word? (replaced s) = none := by
  rcases replaced_cases s with ⟨b, -, hsame⟩ | ⟨hnone, hsame⟩
  · rw [hsame]
    exact word?_booleanText b
  · rw [hsame]
    exact word?_eq_none_iff.2 hnone

/-- The blanks around a word that is replaced are those around what replaces it. -/
theorem trim_normalizeItem (item : List Char) :
    Text.trim (normalizeItem item) = replaced (Text.trim item) := by
  obtain ⟨leading, trailing, hleading, htrailing, hitem, hnormal⟩ := exists_normalizeItem item
  rcases replaced_cases (Text.trim item) with ⟨b, -, hsame⟩ | ⟨-, hsame⟩
  · have hblank : ∀ c ∈ booleanText b, Text.isBlank c = false := fun c hc =>
      isBlank_of_isWordChar (isWordChar_of_isAlpha (isAlpha_booleanText b c hc))
    rw [hnormal, hsame]
    exact trim_append hleading htrailing (booleanText_ne_nil b) hblank
  · rw [hnormal, hsame, ← hitem]

theorem normalizeItem_normalizeItem (item : List Char) :
    normalizeItem (normalizeItem item) = normalizeItem item := by
  rw [normalizeItem, trim_normalizeItem, word?_replaced]

/-- Replaced items have as many quotes as before, so that the same ones are inside quotes. -/
theorem normalizeItemsFrom_normalizeItemsFrom (quoted : Bool) (parts : List (List Char)) :
    normalizeItemsFrom quoted (normalizeItemsFrom quoted parts) =
      normalizeItemsFrom quoted parts := by
  induction parts generalizing quoted with
  | nil => rfl
  | cons part parts ih =>
    have hcount : (normalizeItem part).countP isQuote = part.countP isQuote := by
      refine (reworded_normalizeItem part).countP_eq fun c hc => ?_
      rcases isQuote_iff.1 hc with rfl | rfl <;> rfl
    cases quoted with
    | true => simp only [normalizeItemsFrom, if_true, ih]
    | false =>
      simp only [normalizeItemsFrom, Bool.false_eq_true, if_false, hcount, ih,
        normalizeItem_normalizeItem]

theorem notMem_of_forall₂ {parts parts' : List (List Char)}
    (h : List.Forall₂ Reworded parts parts') {c : Char} (hc : c.isAlpha = false)
    (hparts : ∀ part ∈ parts, c ∉ part) : ∀ part ∈ parts', c ∉ part := by
  induction h with
  | nil => exact hparts
  | cons hpart _ ih =>
    rw [List.forall_mem_cons] at hparts ⊢
    exact ⟨fun hmem => hparts.1 ((hpart.mem_iff hc).1 hmem), ih hparts.2⟩

/-- Replaced items are cut where they were joined. -/
theorem items_normalizeItemsFrom (quoted : Bool) (inner : List Char) :
    items (joinItems (normalizeItemsFrom quoted (items inner))) =
      normalizeItemsFrom quoted (items inner) := by
  obtain ⟨hne, hcomma, _⟩ := items_spec inner
  have hreworded := forall₂_normalizeItemsFrom quoted (items inner)
  refine items_joinItems (fun hnil => hne ?_) (notMem_of_forall₂ hreworded rfl hcomma)
  rw [← List.length_eq_zero_iff, hreworded.length_eq, hnil, List.length_nil]

/-! ## Values -/

theorem normalizeValue_booleanText (b : Bool) :
    normalizeValue (booleanText b) = booleanText b := by
  cases b <;> rfl

theorem normalizeValue_eq_normalizeItems {inner : List Char}
    (hinner : inner.any isBracket = false) :
    normalizeValue ('[' :: (inner ++ [']'])) = normalizeItems inner := by
  have hword : word? ('[' :: (inner ++ [']'])) = none := word?_eq_none List.mem_cons_self rfl
  rw [normalizeValue, hword, flowInner?_eq_some_iff.2 ⟨rfl, hinner⟩]

/-- A sequence that was replaced is one between the same brackets. -/
theorem normalizeValue_normalizeItems {inner : List Char} (hinner : inner.any isBracket = false) :
    normalizeValue (normalizeItems inner) = normalizeItems inner := by
  have hany : (joinItems (normalizeItemsFrom false (items inner))).any isBracket = false := by
    rw [List.any_eq_false, ← List.countP_eq_zero] at hinner ⊢
    rw [← hinner]
    refine (reworded_items false inner).countP_eq fun c hc => ?_
    simp only [isBracket, Bool.or_eq_true, beq_iff_eq] at hc
    rcases hc with ((rfl | rfl) | rfl) | rfl <;> rfl
  rw [normalizeItems, List.cons_append, normalizeValue_eq_normalizeItems hany, normalizeItems,
    items_normalizeItemsFrom, normalizeItemsFrom_normalizeItemsFrom, List.cons_append]

/-- A value that was replaced is not replaced again. -/
theorem normalizeValue_normalizeValue (value : List Char) :
    normalizeValue (normalizeValue value) = normalizeValue value := by
  conv_rhs => rw [normalizeValue]
  conv_lhs => rw [normalizeValue.eq_def value]
  split
  · next b _ => exact normalizeValue_booleanText b
  · next inner _ hinner => exact normalizeValue_normalizeItems (flowInner?_eq_some_iff.1 hinner).2
  · next hword hflow => rw [normalizeValue, hword, hflow]

/-- A character of a word, or a bracket around a sequence. -/
def isEdge (c : Char) : Bool :=
  isWordChar c || c == '[' || c == ']'

/-- A text that starts and ends with such a character. -/
structure HasEdges (s : List Char) : Prop where
  ne_nil : s ≠ []
  head : ∀ c ∈ s.head?, isEdge c = true
  getLast : ∀ c ∈ s.getLast?, isEdge c = true

theorem hasEdges_of_isAlpha {s : List Char} (hne : s ≠ []) (h : ∀ c ∈ s, c.isAlpha = true) :
    HasEdges s := by
  have hedge : ∀ c ∈ s, isEdge c = true := fun c hc => by
    rw [isEdge, isWordChar_of_isAlpha (h c hc), Bool.true_or, Bool.true_or]
  exact ⟨hne, fun c hc => hedge c (List.mem_of_mem_head? hc),
    fun c hc => hedge c (List.mem_of_mem_getLast? hc)⟩

theorem hasEdges_brackets (s : List Char) : HasEdges ('[' :: (s ++ [']'])) where
  ne_nil := List.cons_ne_nil _ _
  head := by
    intro c hc
    obtain rfl := Option.some.inj hc
    decide
  getLast := by
    intro c hc
    rw [← List.cons_append, List.getLast?_concat] at hc
    obtain rfl := Option.some.inj hc
    decide

/-- A value stays, or it has edges and so has what replaces it. -/
theorem normalizeValue_eq_or (value : List Char) :
    normalizeValue value = value ∨ HasEdges value ∧ HasEdges (normalizeValue value) := by
  rw [normalizeValue]
  split
  · next b hword =>
    obtain ⟨hne, halpha⟩ := isAlpha_of_mem_spellings (word?_eq_some_iff.1 hword)
    exact .inr ⟨hasEdges_of_isAlpha hne halpha,
      hasEdges_of_isAlpha (booleanText_ne_nil b) (isAlpha_booleanText b)⟩
  · next inner _ hinner =>
    rw [(flowInner?_eq_some_iff.1 hinner).1]
    exact .inr ⟨hasEdges_brackets inner, hasEdges_brackets _⟩
  · exact .inl rfl

section

variable {s : List Char}

/-- What is no edge does not start a text with edges. -/
theorem HasEdges.head_ne (h : HasEdges s) {c d : Char} (hc : c ∈ s.head?)
    (hd : isEdge d = false) : c ≠ d := by
  rintro rfl
  rw [h.head c hc] at hd
  exact absurd hd (by decide)

theorem isBlank_of_isEdge {c : Char} (h : isEdge c = true) : Text.isBlank c = false := by
  simp only [isEdge, Bool.or_eq_true, beq_iff_eq] at h
  rcases h with (h | rfl) | rfl
  · exact isBlank_of_isWordChar h
  · rfl
  · rfl

theorem HasEdges.startsValue (h : HasEdges s) : StartsValue s := by
  intro c hc
  refine ⟨h.head_ne hc (by decide), h.head_ne hc (by decide), h.head_ne hc (by decide), ?_⟩
  by_contra hquote
  rw [Bool.not_eq_false, isQuote_iff] at hquote
  rcases hquote with rfl | rfl
  · exact h.head_ne hc (d := '\'') (by decide) rfl
  · exact h.head_ne hc (d := '"') (by decide) rfl

theorem HasEdges.isBlockHeader (h : HasEdges s) : isBlockHeader s = false := by
  cases s with
  | nil => rfl
  | cons c s =>
    have hfolded := h.head_ne (c := c) rfl (d := '>') (by decide)
    have hliteral := h.head_ne (c := c) rfl (d := '|') (by decide)
    simp [BooleanWords.isBlockHeader, hfolded, hliteral]

end

/-! ## Lines -/

/-- What replaces a value ends where the value did. -/
theorem EndsBefore.reworded {value' after : List Char} (h : EndsBefore value after)
    (hvalue : Reworded value value') (hedges : HasEdges value') : EndsBefore value' after := by
  obtain ⟨blanks, comment, hafter, hblanks, hcomment, hnone⟩ := h.exists_comment
  refine ⟨hedges.ne_nil, fun c hc => isBlank_of_isEdge (hedges.getLast c hc), blanks, comment,
    hafter, hblanks, hcomment, fun hin => hnone ?_⟩
  exact (hvalue.append (.refl blanks)).sideBySide rfl rfl hin

/-- What replaces a value is found in its place. -/
theorem span?_replace {span : Span} {value' : List Char} (h : span? line = some span)
    (hvalue : Reworded span.value value') (hedges : HasEdges value') :
    span? (span.before ++ value' ++ span.after) = some ⟨span.before, value', span.after⟩ := by
  obtain ⟨hentry, hends⟩ := span?_eq_some_iff.1 h
  have hstart : StartsValue (value' ++ span.after) := by
    intro c hc
    rw [List.head?_append_of_ne_nil value' hedges.ne_nil] at hc
    exact hedges.startsValue c hc
  rw [List.append_assoc]
  refine span?_eq_some_iff.2 ⟨splitHead?_replace hentry hstart ?_, hends.reworded hvalue hedges⟩
  exact (hvalue.append (.refl span.after)).sideBySide rfl rfl

/-- Whether a line is inside a block scalar does not depend on what its value is. -/
theorem insideBlock_replace (parent : Option Nat) (before : List Char) {value value' : List Char}
    (after : List Char) (h : HasEdges value) (h' : HasEdges value') :
    insideBlock parent (before ++ value' ++ after) =
      insideBlock parent (before ++ value ++ after) := by
  -- the indent ends before the value, and the value is not blank
  have hspaces : ∀ {s}, HasEdges s → Text.leadingSpaces (before ++ s ++ after) =
      Text.leadingSpaces before := by
    intro s hs
    rw [Text.leadingSpaces, Text.leadingSpaces, List.append_assoc, takeWhile_append_of_head]
    intro c hc
    rw [List.head?_append_of_ne_nil s hs.ne_nil] at hc
    simpa using hs.head_ne hc (d := ' ') (by decide)
  have hblank : ∀ {s}, HasEdges s → (before ++ s ++ after).all Text.isBlank = false := by
    intro s hs
    obtain ⟨c, t, rfl⟩ := List.exists_cons_of_ne_nil hs.ne_nil
    have hc := isBlank_of_isEdge (hs.head c rfl)
    exact List.all_eq_false.2 ⟨c, by simp, by simp [hc]⟩
  cases parent with
  | none => rfl
  | some indent => rw [insideBlock, insideBlock, hspaces h, hspaces h', hblank h, hblank h']

/-- A line whose words were replaced stays, and it is taken like the line before. -/
theorem normalizeLine_normalizeLine (line : List Char) :
    normalizeLine (normalizeLine line) = normalizeLine line ∧
      opensBlock? (normalizeLine line) = opensBlock? line ∧
        ∀ parent, insideBlock parent (normalizeLine line) = insideBlock parent line := by
  cases hspan : span? line with
  | none =>
    have hline : normalizeLine line = line := by rw [normalizeLine, hspan]
    rw [hline]
    exact ⟨hline, rfl, fun _ => rfl⟩
  | some span =>
    have hline : normalizeLine line = span.before ++ normalizeValue span.value ++ span.after := by
      rw [normalizeLine, hspan]
    have htext := text_of_span? hspan
    rcases normalizeValue_eq_or span.value with hsame | ⟨hedges, hedges'⟩
    · rw [hsame, htext] at hline
      rw [hline]
      exact ⟨hline, rfl, fun _ => rfl⟩
    · have hspan' := span?_replace hspan (reworded_normalizeValue span.value) hedges'
      rw [hline]
      refine ⟨?_, ?_, fun parent => ?_⟩
      · simp only [normalizeLine, hspan', normalizeValue_normalizeValue]
      · simp only [opensBlock?, hspan, hspan', hedges.isBlockHeader, hedges'.isBlockHeader,
          Bool.false_eq_true, if_false]
      · rw [insideBlock_replace parent span.before span.after hedges hedges', htext]

/-- The same lines are inside block scalars, and the others have no words left. -/
theorem normalizeLines_normalizeLines (parent : Option Nat) (ls : List (List Char)) :
    normalizeLines parent (normalizeLines parent ls) = normalizeLines parent ls := by
  induction ls generalizing parent with
  | nil => rfl
  | cons line ls ih =>
    obtain ⟨hline, hopens, hinside'⟩ := normalizeLine_normalizeLine line
    rw [normalizeLines]
    by_cases hinside : insideBlock parent line = true
    · rw [if_pos hinside, normalizeLines, if_pos hinside, ih]
    · rw [if_neg hinside, normalizeLines, hinside', if_neg hinside, hline, hopens, ih]

/-! ## Texts -/

/-- A text whose words were replaced has none left, whatever the text is. -/
theorem normalize_normalize (text : List Char) : normalize (normalize text) = normalize text := by
  conv_lhs => rw [normalize]
  rw [lines_normalize, normalizeLines_normalizeLines]
  rfl

end PluginDataset.BooleanWords
