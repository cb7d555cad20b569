import PluginDataset.Proofs.BooleanWords.Items
import PluginDataset.Proofs.BooleanWords.Tree

/-!
# Quoted text over several lines

A quoted value is left alone on the line on which it starts. An open quote is not remembered on the
lines after it, so that a line in the middle of quoted text is read like any other: if it looks like
`key: yes` or `- no`, its word is replaced, unless it also looks like a line of a block scalar. The
quoted text stays exactly if there is no such line.

## Main definitions

* `BooleanWords.IsRead` says that a line is looked at when words are replaced.
* `BooleanWords.QuotedText` is a key with quoted text on one or more lines.

## Main results

* `BooleanWords.normalize_eq_self_iff`: a text stays if no line that is looked at shows a word.
* `BooleanWords.QuotedText.normalize_text_eq_self_iff`: quoted text stays if none of its lines after
  the first does.
* `BooleanWords.QuotedText.normalize_text_ne_self`: a quoted text that changes.
-/

namespace PluginDataset.BooleanWords

variable {parent : Option Nat} {l line : List Char} {ls : List (List Char)}

/-! ## Texts that stay -/

/-- The line is one of those that are not inside a block scalar. -/
inductive IsRead : Option Nat → List (List Char) → List Char → Prop
  | head {parent : Option Nat} {line : List Char} {ls : List (List Char)}
      (hinside : insideBlock parent line = false) : IsRead parent (line :: ls) line
  | inside {parent : Option Nat} {l line : List Char} {ls : List (List Char)}
      (hinside : insideBlock parent l = true) (hrest : IsRead parent ls line) :
      IsRead parent (l :: ls) line
  | outside {parent : Option Nat} {l line : List Char} {ls : List (List Char)}
      (hinside : insideBlock parent l = false) (hrest : IsRead (opensBlock? l) ls line) :
      IsRead parent (l :: ls) line

theorem isRead_cons_of_inside (h : insideBlock parent l = true) :
    IsRead parent (l :: ls) line ↔ IsRead parent ls line := by
  constructor
  · intro hread
    cases hread with
    | head hinside => exact absurd h (Bool.eq_false_iff.1 hinside)
    | inside _ hrest => exact hrest
    | outside hinside _ => exact absurd h (Bool.eq_false_iff.1 hinside)
  · exact .inside h

theorem isRead_cons_of_outside (h : insideBlock parent l = false) :
    IsRead parent (l :: ls) line ↔ line = l ∨ IsRead (opensBlock? l) ls line := by
  constructor
  · intro hread
    cases hread with
    | head => exact .inl rfl
    | inside hinside _ => exact absurd hinside (Bool.eq_false_iff.1 h)
    | outside _ hrest => exact .inr hrest
  · rintro (rfl | hrest)
    · exact .head h
    · exact .outside h hrest

theorem normalizeLines_eq_self_iff :
    normalizeLines parent ls = ls ↔ ∀ line, IsRead parent ls line → ¬ ShowsWord line := by
  induction ls generalizing parent with
  | nil =>
    refine iff_of_true rfl fun line hread => ?_
    cases hread
  | cons l ls ih =>
    rw [normalizeLines]
    split
    · next hinside => simp only [List.cons.injEq, true_and, ih, isRead_cons_of_inside hinside]
    · next hinside =>
      rw [Bool.not_eq_true] at hinside
      simp only [List.cons.injEq, ih, normalizeLine_eq_self_iff, isRead_cons_of_outside hinside,
        or_imp, forall_and, forall_eq]

/-- A text stays if and only if no line that is looked at has a word in its value. -/
theorem normalize_eq_self_iff {text : List Char} :
    normalize text = text ↔ ∀ line, IsRead none (Text.lines text) line → ¬ ShowsWord line := by
  rw [← normalizeLines_eq_self_iff]
  constructor
  · intro h
    rw [← lines_normalize, h]
  · intro h
    rw [normalize, h, Text.flatten_lines]

/-! ## Quoted text -/

/-- A key with quoted text, which may hold anything. -/
structure QuotedText where
  key : Word
  mark : Char
  content : List Char
  isQuote : isQuote mark = true

namespace QuotedText

def text (q : QuotedText) : List Char :=
  q.key.text ++ ':' :: ' ' :: q.mark :: (q.content ++ [q.mark, '\n'])

/-- The lines after the one with the key. -/
def continuation (q : QuotedText) : List (List Char) :=
  (Text.lines q.text).tail

/-- The first line is the key with the start of the quoted text. -/
theorem exists_lines_text (q : QuotedText) :
    ∃ start, Text.lines q.text = entryLine 0 q.key.text (q.mark :: start) :: q.continuation := by
  have hmark : '\n' ≠ q.mark := (ne_of_isQuote q.isQuote rfl).symm
  have hopening : '\n' ∉ q.key.text ++ [':', ' ', q.mark] := by simp [q.key.oneLine, hmark]
  have htext : q.text = q.key.text ++ [':', ' ', q.mark] ++ (q.content ++ [q.mark, '\n']) := by
    simp [text]
  -- the first line feed comes after the opening quote
  obtain ⟨w, rest, hcut, hw⟩ : ∃ w rest, q.text = w ++ '\n' :: rest ∧ '\n' ∉ w :=
    List.eq_append_cons_of_mem (by simp [htext])
  obtain ⟨start, rfl, -⟩ := Text.exists_eq_append_of_notMem hopening (hcut.symm.trans htext)
  have hlines := Text.lines_append_newline hw rest
  rw [← hcut] at hlines
  refine ⟨start, ?_⟩
  rw [continuation, hlines, List.tail_cons]
  simp [entryLine]

/-- Quoted text stays if and only if no line after its first one that is looked at has a word where
a value stands. -/
theorem normalize_text_eq_self_iff (q : QuotedText) :
    normalize q.text = q.text ↔ ∀ line, IsRead none q.continuation line → ¬ ShowsWord line := by
  obtain ⟨start, hlines⟩ := q.exists_lines_text
  have hinside : insideBlock none (entryLine 0 q.key.text (q.mark :: start)) = false := rfl
  obtain ⟨hfirst, hopens⟩ :
      normalizeLine (entryLine 0 q.key.text (q.mark :: start)) =
          entryLine 0 q.key.text (q.mark :: start) ∧
        opensBlock? (entryLine 0 q.key.text (q.mark :: start)) = none :=
    normalizeLine_quotedEntry q.key.isWordChar q.isQuote start
  have hshows := normalizeLine_eq_self_iff.1 hfirst
  simp only [normalize_eq_self_iff, hlines, isRead_cons_of_outside hinside, hopens, or_imp,
    forall_and, forall_eq, hshows, not_false_eq_true, true_and]

/-- A sentence in double quotes that is folded before `with force: yes`. -/
def folded : QuotedText where
  key := ⟨"description".toList, List.all_eq_true.1 rfl⟩
  mark := '"'
  content := "Set the flag\n  with force: yes\n  or without.".toList
  isQuote := isQuote_double

/-- The word at the end of an inner line is replaced, although it is quoted. -/
theorem normalize_text_ne_self :
    ('"' ∉ folded.content ∧ '\\' ∉ folded.content ∧
      ∀ line ∈ folded.continuation, line.head? = some ' ') ∧
    normalize folded.text =
      "description: \"Set the flag\n  with force: true\n  or without.\"\n".toList ∧
    normalize folded.text ≠ folded.text := by
  decide

end QuotedText

end PluginDataset.BooleanWords
