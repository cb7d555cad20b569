import PluginDataset.Proofs.BooleanWords.Items

/-!
# What replacing words leaves

Replacing the words of a text touches nothing but words. A line inside a block scalar stays, and so
does a line whose value has no word outside quotes. On any other line only the value changes: it is
a word that becomes the name of a boolean, or a sequence in brackets in which items that are words
become names between the same blanks and commas. The text before the value and the text after it
stay.

## Main definitions

* `BooleanWords.ValueChange` relates a value to what may replace it.
* `BooleanWords.LinesChange` relates lines to what may become of them, line by line.
* `BooleanWords.OnlyWords` relates two texts that differ by replaced words only.

## Main results

* `BooleanWords.valueChange_normalizeValue`: a value with a word is replaced in this way.
* `BooleanWords.linesChange_normalizeLines`: so are lines, wherever they stand.
* `BooleanWords.onlyWords_normalize`: replacing the words of a text touches nothing else.
-/

namespace PluginDataset.BooleanWords

variable {value line : List Char}

/-! ## Values -/

/-- An item stays, or it is a word that is replaced between its blanks. -/
inductive ItemChange : List Char → List Char → Prop
  | same (item : List Char) : ItemChange item item
  | word {leading w trailing : List Char} {b : Bool}
      (hleading : ∀ c ∈ leading, Text.isBlank c = true)
      (htrailing : ∀ c ∈ trailing, Text.isBlank c = true) (hword : w ∈ spellings b) :
      ItemChange (leading ++ (w ++ trailing)) (leading ++ (booleanText b ++ trailing))

/-- A word becomes the name of a boolean, and a sequence in brackets is changed item by item between
its commas. -/
inductive ValueChange : List Char → List Char → Prop
  | word {w : List Char} {b : Bool} (hword : w ∈ spellings b) : ValueChange w (booleanText b)
  | sequence {parts parts' : List (List Char)} (hparts : List.Forall₂ ItemChange parts parts')
      (hcomma : ∀ part ∈ parts, ',' ∉ part) (hcomma' : ∀ part ∈ parts', ',' ∉ part) :
      ValueChange ('[' :: (joinItems parts ++ [']'])) ('[' :: (joinItems parts' ++ [']']))

theorem itemChange_normalizeItem (item : List Char) : ItemChange item (normalizeItem item) := by
  obtain ⟨leading, trailing, hleading, htrailing, hitem, hnormal⟩ := exists_normalizeItem item
  rcases replaced_cases (Text.trim item) with ⟨b, hword, hsame⟩ | ⟨-, hsame⟩
  · rw [hnormal, hsame]
    conv_lhs => rw [hitem]
    exact .word hleading htrailing hword
  · rw [hnormal, hsame, ← hitem]
    exact .same item

theorem forall₂_itemChange (quoted : Bool) (parts : List (List Char)) :
    List.Forall₂ ItemChange parts (normalizeItemsFrom quoted parts) := by
  induction parts generalizing quoted with
  | nil => exact .nil
  | cons part parts ih =>
    refine .cons ?_ (ih _)
    cases quoted with
    | true => exact .same part
    | false => exact itemChange_normalizeItem part

/-- A value with a word is a word, or a sequence whose items are changed. -/
theorem valueChange_normalizeValue (h : HasWord value) :
    ValueChange value (normalizeValue value) := by
  rw [normalizeValue]
  split
  · next b hword => exact .word (word?_eq_some_iff.1 hword)
  · next inner _ hinner =>
    obtain ⟨-, hcomma, hjoin⟩ := items_spec inner
    have hparts := forall₂_itemChange false (items inner)
    have hcomma' := notMem_of_forall₂ (forall₂_normalizeItemsFrom false (items inner)) rfl hcomma
    have hchange := ValueChange.sequence hparts hcomma hcomma'
    rw [hjoin] at hchange
    rwa [(flowInner?_eq_some_iff.1 hinner).1]
  · next hword hflow =>
    refine absurd h (normalizeValue_eq_self_iff.1 ?_)
    rw [normalizeValue, hword, hflow]

/-! ## Lines -/

/-- Lines that become others, below the header of an open block scalar with the indent `parent`. -/
inductive LinesChange : Option Nat → List (List Char) → List (List Char) → Prop
  | nil (parent : Option Nat) : LinesChange parent [] []
  | inside {parent : Option Nat} {line : List Char} {ls ls' : List (List Char)}
      (hinside : insideBlock parent line = true) (hrest : LinesChange parent ls ls') :
      LinesChange parent (line :: ls) (line :: ls')
  | stays {parent : Option Nat} {line : List Char} {ls ls' : List (List Char)}
      (hinside : insideBlock parent line = false) (hword : ¬ ShowsWord line)
      (hrest : LinesChange (opensBlock? line) ls ls') :
      LinesChange parent (line :: ls) (line :: ls')
  | changes {parent : Option Nat} {line before value value' after : List Char}
      {ls ls' : List (List Char)} (hinside : insideBlock parent line = false)
      (hplace : Place line before value after) (hword : HasWord value)
      (hchange : ValueChange value value') (hcommas : value'.count ',' = value.count ',')
      (hrest : LinesChange (opensBlock? line) ls ls') :
      LinesChange parent (line :: ls) ((before ++ (value' ++ after)) :: ls')

/-- What happens on one line. -/
theorem linesChange_cons {parent : Option Nat} {ls ls' : List (List Char)}
    (hinside : insideBlock parent line = false) (hrest : LinesChange (opensBlock? line) ls ls') :
    LinesChange parent (line :: ls) (normalizeLine line :: ls') := by
  by_cases hword : ShowsWord line
  · obtain ⟨before, value, after, hplace, hvalue⟩ := hword
    have hcommas : (normalizeValue value).count ',' = value.count ',' := by
      refine (reworded_normalizeValue value).countP_eq fun c hc => ?_
      rw [beq_iff_eq.1 hc]
      rfl
    rw [normalizeLine_of_place hplace]
    exact .changes hinside hplace hvalue (valueChange_normalizeValue hvalue) hcommas hrest
  · rw [normalizeLine_eq_self_iff.2 hword]
    exact .stays hinside hword hrest

theorem linesChange_normalizeLines (parent : Option Nat) (ls : List (List Char)) :
    LinesChange parent ls (normalizeLines parent ls) := by
  induction ls generalizing parent with
  | nil => exact .nil parent
  | cons line ls ih =>
    rw [normalizeLines]
    split
    · next hinside => exact .inside hinside (ih parent)
    · next hinside => exact linesChange_cons (Bool.eq_false_iff.2 hinside) (ih _)

theorem LinesChange.length_eq {parent : Option Nat} {ls ls' : List (List Char)}
    (h : LinesChange parent ls ls') : ls'.length = ls.length := by
  induction h with
  | nil => rfl
  | inside _ _ ih | stays _ _ _ ih | changes _ _ _ _ _ _ ih =>
    rw [List.length_cons, List.length_cons, ih]

/-! ## Texts -/

/-- The second text is the first one with words replaced and with nothing else touched. -/
structure OnlyWords (text text' : List Char) : Prop where
  length : (Text.lines text').length = (Text.lines text).length
  pieces : Reworded text text'
  lines : LinesChange none (Text.lines text) (Text.lines text')

/-- Replacing the words of a text touches nothing but the words, whatever the text is. -/
theorem onlyWords_normalize (text : List Char) : OnlyWords text (normalize text) := by
  have hlines := linesChange_normalizeLines none (Text.lines text)
  rw [← lines_normalize] at hlines
  exact ⟨hlines.length_eq, reworded_normalize text, hlines⟩

end PluginDataset.BooleanWords
