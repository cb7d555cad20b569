import PluginDataset.Proofs.BooleanWords.Tree

/-!
# Texts at the top level

The only thing that is remembered from line to line is the indent of the header of an open block
scalar. Every line ends it that is not blank and not indented deeper, so that a line at the start of
which something stands is looked at whatever the lines before it are: block scalars at any depth, a
header on the last line, or text that is no documentation at all. A text that starts in this way is
therefore replaced on its own, and so is each of the sections that a text is made of.

## Main definitions

* `BooleanWords.openBlock` is what is remembered behind a text.
* `BooleanWords.IsSection` describes lines of which the first one is not indented.

## Main results

* `BooleanWords.normalize_append_eq`: a text depends on the text before it through its open block.
* `BooleanWords.normalize_append`: a text that is not indented does not depend on it.
* `BooleanWords.normalize_flatten`: sections are replaced one by one.
-/

namespace PluginDataset.BooleanWords

variable {s t : List Char}

/-- The indent of the header of the block scalar that is open behind a text. -/
def openBlock (s : List Char) : Option Nat :=
  (Text.lines s).foldl nextParent none

/-- A text depends on the lines before it only through the block scalar that they leave open. -/
theorem normalize_append_eq (hs : s = [] ∨ s.getLast? = some '\n') (t : List Char) :
    normalize (s ++ t) = normalize s ++ (normalizeLines (openBlock s) (Text.lines t)).flatten := by
  rw [normalize, Text.lines_append hs, normalizeLines_append, List.flatten_append]
  rfl

/-- A block scalar ends before a text that is not indented. -/
theorem normalizeLines_lines (parent : Option Nat) (ht : ∀ c ∈ t.head?, Text.isBlank c = false) :
    (normalizeLines parent (Text.lines t)).flatten = normalize t := by
  cases t with
  | nil => rfl
  | cons c t =>
    obtain ⟨line, ls, hlines⟩ := Text.exists_lines_cons c t
    have hinside : ∀ parent, insideBlock parent (c :: line) = false := by
      intro parent
      have hends : EndsAt parent 0 := fun p _ => p.zero_le
      exact insideBlock_eq_false hends (List.cons_ne_nil c line) ht
    rw [normalize, hlines, normalizeLines, normalizeLines, hinside, hinside]
    simp only [Bool.false_eq_true, if_false]

/-- Nothing is remembered of any text before one that is not indented. -/
theorem normalize_append (hs : s = [] ∨ s.getLast? = some '\n')
    (ht : ∀ c ∈ t.head?, Text.isBlank c = false) :
    normalize (s ++ t) = normalize s ++ normalize t := by
  rw [normalize_append_eq hs, normalizeLines_lines _ ht]

/-- An item that ends with the header of a block scalar. -/
def openedNotes : List Char :=
  "notes:\n  - flag: no\n    text: >-\n".toList

def requiredEntry : List Char :=
  "required: yes\n".toList

theorem head_requiredEntry : ∀ c ∈ requiredEntry.head?, Text.isBlank c = false := by
  intro c hc
  obtain rfl := Option.some.inj hc
  rfl

/-- The block scalar of the item is open where the next key stands. -/
theorem normalize_append_openedNotes :
    (openedNotes = [] ∨ openedNotes.getLast? = some '\n') ∧
      (∀ c ∈ requiredEntry.head?, Text.isBlank c = false) ∧ openBlock openedNotes = some 4 ∧
      normalize (openedNotes ++ requiredEntry) = normalize openedNotes ++ normalize requiredEntry ∧
      normalize openedNotes = "notes:\n  - flag: false\n    text: >-\n".toList ∧
      normalize requiredEntry = "required: true\n".toList :=
  ⟨by decide, head_requiredEntry, by decide, normalize_append (by decide) head_requiredEntry,
    by decide, by decide⟩

/-- Lines of which the first one is not indented. -/
structure IsSection (s : List Char) : Prop where
  getLast : s.getLast? = some '\n'
  head : ∀ c ∈ s.head?, Text.isBlank c = false

/-- Each section is replaced on its own. -/
theorem normalize_flatten {sections : List (List Char)} (h : ∀ s ∈ sections, IsSection s) :
    normalize sections.flatten = (sections.map normalize).flatten := by
  induction sections with
  | nil => rfl
  | cons s sections ih =>
    rw [List.forall_mem_cons] at h
    have hhead : ∀ c ∈ sections.flatten.head?, Text.isBlank c = false := by
      cases sections with
      | nil => simp
      | cons next sections =>
        have hnext := h.2 next List.mem_cons_self
        have hne : next ≠ [] := by
          rintro rfl
          exact absurd hnext.getLast (by simp)
        rw [List.flatten_cons, List.head?_append_of_ne_nil next hne]
        exact hnext.head
    rw [List.flatten_cons, normalize_append_eq (.inr h.1.getLast), normalizeLines_lines _ hhead,
      ih h.2, List.map_cons, List.flatten_cons]

end PluginDataset.BooleanWords
