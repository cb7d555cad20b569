import PluginDataset.Proofs.BooleanWords.Idempotence

/-!
# Items inside and outside quotes

A sequence in brackets is cut at all of its commas, also at those inside quoted items. Whether an
item is taken to be inside quotes is told by the number of quotes before it, of either kind: it is
if that number is odd. A word is replaced exactly where the number is even.

## Main definitions

* `BooleanWords.IsItem` says that a text stands between two commas, or between them and the ends.
* `BooleanWords.HasWord` describes the values in which a word is replaced, `BooleanWords.ShowsWord`
  the lines with such a value.

## Main results

* `BooleanWords.normalizeItemsFrom_append`: items after others, by the number of quotes before them.
* `BooleanWords.normalizeItemsFrom_eq_self_iff`: items stay if no word has an even number of quotes
  before it.
* `BooleanWords.normalizeItems_eq_iff`: what becomes of a sequence is told item by item.
* `BooleanWords.normalizeLine_eq_self_iff`: the lines that stay.
-/

namespace PluginDataset.BooleanWords

variable {s item value line before after : List Char}

/-! ## Words -/

theorem replaced_eq_self_iff : replaced s = s ↔ word? s = none := by
  constructor
  · intro h
    rw [← h]
    exact word?_replaced s
  · intro h
    rw [replaced, h]

theorem normalizeItem_eq_self_iff : normalizeItem item = item ↔ word? (Text.trim item) = none := by
  constructor
  · intro h
    have htrim := trim_normalizeItem item
    rw [h] at htrim
    exact replaced_eq_self_iff.1 htrim.symm
  · intro h
    rw [normalizeItem, h]

/-! ## Items by the number of quotes before them -/

theorem odd_bne_odd (n k : Nat) : ((n % 2 == 1) != (k % 2 == 1)) = ((n + k) % 2 == 1) := by
  rcases Nat.mod_two_eq_zero_or_one n with hn | hn <;>
    rcases Nat.mod_two_eq_zero_or_one k with hk | hk <;>
      simp [Nat.add_mod, hn, hk]

theorem normalizeItemsFrom_cons (n : Nat) (part : List Char) (parts : List (List Char)) :
    normalizeItemsFrom (n % 2 == 1) (part :: parts) =
      (if n % 2 = 0 then normalizeItem part else part) ::
        normalizeItemsFrom ((n + part.countP isQuote) % 2 == 1) parts := by
  rw [normalizeItemsFrom, odd_bne_odd]
  rcases Nat.mod_two_eq_zero_or_one n with hn | hn <;> simp [hn]

/-- Items after others are taken by the number of all quotes before them. -/
theorem normalizeItemsFrom_append (n : Nat) (parts parts' : List (List Char)) :
    normalizeItemsFrom (n % 2 == 1) (parts ++ parts') =
      normalizeItemsFrom (n % 2 == 1) parts ++
        normalizeItemsFrom ((n + parts.flatten.countP isQuote) % 2 == 1) parts' := by
  induction parts generalizing n with
  | nil => rfl
  | cons part parts ih =>
    rw [List.cons_append, normalizeItemsFrom_cons, normalizeItemsFrom_cons, ih, List.flatten_cons,
      List.countP_append, Nat.add_assoc, List.cons_append]

/-- The item stands in the text between two commas, or between them and the ends. -/
structure IsItem (s before item after : List Char) : Prop where
  text : s = before ++ (item ++ after)
  comma_notMem : ',' ∉ item
  getLast : ∀ c ∈ before.getLast?, c = ','
  head : ∀ c ∈ after.head?, c = ','

/-- A text without commas is its own item. -/
theorem isItem_iff_of_notMem (hs : ',' ∉ s) :
    IsItem s before item after ↔ before = [] ∧ item = s ∧ after = [] := by
  constructor
  · rintro ⟨rfl, _, hlast, hhead⟩
    simp only [List.mem_append, not_or] at hs
    have hbefore : before = [] := by
      rcases List.eq_nil_or_concat' before with hnil | ⟨t, c, rfl⟩
      · exact hnil
      · obtain rfl := hlast c (by simp)
        exact absurd (by simp) hs.1
    have hafter : after = [] := by
      cases after with
      | nil => rfl
      | cons c t =>
        obtain rfl := hhead c rfl
        exact absurd List.mem_cons_self hs.2.2
    exact ⟨hbefore, by simp [hbefore, hafter], hafter⟩
  · rintro ⟨rfl, rfl, rfl⟩
    exact ⟨by simp, hs, by simp, by simp⟩

/-- The items of a text are what stands before its first comma and the items after it. -/
theorem isItem_append_iff {part : List Char} (hpart : ',' ∉ part) :
    IsItem (part ++ ',' :: s) before item after ↔
      (before = [] ∧ item = part ∧ after = ',' :: s) ∨
        ∃ u, before = part ++ ',' :: u ∧ IsItem s u item after := by
  constructor
  · rintro ⟨htext, hitem, hlast, hhead⟩
    rcases List.eq_nil_or_concat' before with rfl | ⟨u, c, rfl⟩
    · -- nothing is before the item, so that it ends at the first comma
      have hcut : part ++ ',' :: s = item ++ after := htext
      obtain ⟨x, hx, hrest⟩ := Text.exists_eq_append_of_notMem hitem hcut
      have hnil : x = [] := by
        cases x with
        | nil => rfl
        | cons d x =>
          rw [hrest] at hhead
          obtain rfl := hhead d rfl
          exact absurd (by simp [hx]) hpart
      rw [hnil] at hx hrest
      exact .inl ⟨rfl, by simpa using hx.symm, hrest⟩
    · -- the comma before the item is the first one or a later one
      obtain rfl := hlast c (by simp)
      have hcut : u ++ ',' :: (item ++ after) = part ++ ',' :: s := by rw [htext]; simp
      obtain ⟨x, rfl, hrest⟩ := Text.exists_eq_append_of_notMem hpart hcut
      cases x with
      | nil =>
        obtain ⟨_, rfl⟩ := List.cons.inj hrest
        exact .inr ⟨[], by simp, rfl, hitem, by simp, hhead⟩
      | cons d x =>
        obtain ⟨rfl, rfl⟩ := List.cons.inj hrest
        refine .inr ⟨x ++ [','], by simp, by simp, hitem, by simp, hhead⟩
  · rintro (⟨rfl, rfl, rfl⟩ | ⟨u, rfl, rfl, hitem, hlast, hhead⟩)
    · exact ⟨by simp, hpart, by simp, by simp⟩
    · refine ⟨by simp, hitem, ?_, hhead⟩
      intro c hc
      cases u with
      | nil => simpa using hc.symm
      | cons d u => exact hlast c (by simpa using hc)

/-- Items stay if and only if none of them is a word with an even number of quotes before it. -/
theorem normalizeItemsFrom_eq_self_iff (n : Nat) {parts : List (List Char)} (hne : parts ≠ [])
    (hcomma : ∀ part ∈ parts, ',' ∉ part) :
    normalizeItemsFrom (n % 2 == 1) parts = parts ↔
      ∀ before item after, IsItem (joinItems parts) before item after →
        (n + before.countP isQuote) % 2 = 0 → word? (Text.trim item) = none := by
  induction parts generalizing n with
  | nil => exact absurd rfl hne
  | cons part parts ih =>
    rw [List.forall_mem_cons] at hcomma
    -- the number of quotes before it decides on the first item, and with its own on the rest
    have hfirst : (if n % 2 = 0 then normalizeItem part else part) = part ↔
        (n % 2 = 0 → word? (Text.trim part) = none) := by
      split
      · next heven => simp [normalizeItem_eq_self_iff, heven]
      · next hodd => simp [hodd]
    rw [normalizeItemsFrom_cons, List.cons.injEq, hfirst]
    by_cases hnil : parts = []
    · rw [hnil, joinItems, List.intercalate_singleton]
      simp only [isItem_iff_of_notMem hcomma.1, normalizeItemsFrom, and_true]
      constructor
      · rintro hpart _ _ _ ⟨rfl, rfl, rfl⟩
        exact hpart
      · intro h
        exact h [] part [] ⟨rfl, rfl, rfl⟩
    · rw [ih _ hnil hcomma.2, joinItems_cons hnil]
      simp only [isItem_append_iff hcomma.1]
      constructor
      · rintro ⟨hpart, hrest⟩ before item after (⟨rfl, rfl, rfl⟩ | ⟨u, rfl, hitem⟩) heven
        · exact hpart heven
        · refine hrest u item after hitem ?_
          simpa [Nat.add_assoc, isQuote] using heven
      · intro h
        refine ⟨h [] part _ (.inl ⟨rfl, rfl, rfl⟩), fun u item after hitem heven => ?_⟩
        refine h _ item after (.inr ⟨u, rfl, hitem⟩) ?_
        simpa [Nat.add_assoc, isQuote] using heven

/-! ## Values and lines -/

/-- Two sequences are the same if they have the same items. -/
theorem normalizeItems_eq_iff {inner inner' : List Char} :
    normalizeItems inner = '[' :: (inner' ++ [']']) ↔
      normalizeItemsFrom false (items inner) = items inner' := by
  rw [normalizeItems, List.cons_append, List.cons.injEq, List.append_left_inj]
  constructor
  · rintro ⟨-, rfl⟩
    exact (items_normalizeItemsFrom false inner).symm
  · intro h
    rw [h, (items_spec inner').2.2]
    exact ⟨rfl, rfl⟩

theorem normalizeItems_eq_self_iff {inner : List Char} :
    normalizeItems inner = '[' :: (inner ++ [']']) ↔
      ∀ before item after, IsItem inner before item after →
        before.countP isQuote % 2 = 0 → word? (Text.trim item) = none := by
  obtain ⟨hne, hcomma, hjoin⟩ := items_spec inner
  have h := normalizeItemsFrom_eq_self_iff 0 hne hcomma
  simpa only [Nat.zero_add, hjoin] using normalizeItems_eq_iff.trans h

/-- A word outside quotes: the value, or an item with an even number of quotes before it of a
sequence in brackets. -/
def HasWord (value : List Char) : Prop :=
  word? value ≠ none ∨
    ∃ inner, value = '[' :: (inner ++ [']']) ∧ inner.any isBracket = false ∧
      ∃ before item after, IsItem inner before item after ∧
        before.countP isQuote % 2 = 0 ∧ word? (Text.trim item) ≠ none

/-- A value stays if it has no word outside quotes. -/
theorem normalizeValue_eq_self_iff : normalizeValue value = value ↔ ¬ HasWord value := by
  rw [HasWord, not_or, not_not]
  constructor
  · intro h
    have hword : word? value = none := by
      cases hvalue : word? value with
      | none => rfl
      | some b =>
        rw [normalizeValue, hvalue] at h
        rw [← h] at hvalue
        exact absurd hvalue (by simp [word?_booleanText])
    refine ⟨hword, ?_⟩
    rintro ⟨inner, rfl, hinner, before, item, after, hitem, heven, hne⟩
    rw [normalizeValue_eq_normalizeItems hinner] at h
    exact hne (normalizeItems_eq_self_iff.1 h before item after hitem heven)
  · rintro ⟨hword, hflow⟩
    rw [normalizeValue, hword]
    cases hinner : flowInner? value with
    | none => rfl
    | some inner =>
      obtain ⟨rfl, hany⟩ := flowInner?_eq_some_iff.1 hinner
      refine normalizeItems_eq_self_iff.2 fun before item after hitem heven => ?_
      by_contra hne
      exact hflow ⟨inner, rfl, hany, before, item, after, hitem, heven, hne⟩

/-- A line whose value has a word outside quotes. -/
def ShowsWord (line : List Char) : Prop :=
  ∃ before value after, Place line before value after ∧ HasWord value

/-- The value in its place is replaced. -/
theorem normalizeLine_of_place (h : Place line before value after) :
    normalizeLine line = before ++ (normalizeValue value ++ after) := by
  rw [normalizeLine, span?_iff_place.2 h]
  exact List.append_assoc ..

/-- A line stays if its value has no word outside quotes. -/
theorem normalizeLine_eq_self_iff : normalizeLine line = line ↔ ¬ ShowsWord line := by
  constructor
  · rintro hline ⟨before, value, after, hplace, hvalue⟩
    have hsame := (normalizeLine_of_place hplace).symm.trans (hline.trans hplace.text)
    rw [List.append_right_inj, List.append_left_inj] at hsame
    exact normalizeValue_eq_self_iff.1 hsame hvalue
  · intro hword
    cases hspan : span? line with
    | none => rw [normalizeLine, hspan]
    | some span =>
      have hplace := span?_iff_place.1 hspan
      have hvalue : ¬ HasWord span.value := fun h => hword ⟨_, _, _, hplace, h⟩
      rw [normalizeLine_of_place hplace, normalizeValue_eq_self_iff.2 hvalue]
      exact hplace.text.symm

end PluginDataset.BooleanWords
