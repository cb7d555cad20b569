import PluginDataset.Proofs.BooleanWords.Items
import PluginDataset.Proofs.BooleanWords.Tree

/-!
# Sequences in brackets with quoted items

A sequence in brackets may have quoted items next to plain ones, and quoted text may have commas and
quotes of the other kind in it. Quotes of both kinds are counted alike, so that an apostrophe in
double quotes shifts the count for all that comes after it. The words of a sequence are replaced as
they should be exactly if the number of quotes is even before each plain item that is a word, and
odd before each word that stands between two commas of quoted text.

## Main definitions

* `BooleanWords.PlainItem`, `BooleanWords.QuotedItem` and `BooleanWords.FlowItem` are the items.
* `BooleanWords.FlowItem.normalizedText` is the text of an item with its word replaced.
* `BooleanWords.FlowItem.TakenRight` says that the number of quotes before an item fits.

## Main results

* `BooleanWords.normalizeItems_eq_flowText_iff`, `BooleanWords.normalize_flowLine_eq_iff`: exactly
  then just the plain items that are words are replaced.
* `BooleanWords.normalize_flowLine_of_notQuote`: this is so if no quoted text has a quote in it.
* `BooleanWords.normalize_flowLine_ne`: a sequence with an apostrophe in double quotes.
-/

namespace PluginDataset.BooleanWords

variable {s t key value : List Char} {indent : Nat}

/-! ## Items -/

/-- A word in brackets, or another text without quotes that has no blanks at its ends. -/
structure PlainItem where
  text : List Char
  isPlain : ∀ c ∈ text, c ∉ [',', '#', '\n'] ∧ isQuote c = false ∧ isBracket c = false
  head : ∀ c ∈ text.head?, Text.isBlank c = false
  getLast : ∀ c ∈ text.getLast?, Text.isBlank c = false

/-- A quoted text in brackets. It may have commas in it, and quotes of the other kind. -/
structure QuotedItem extends Quoted where
  mark_notMem : mark ∉ content
  isBracket : ∀ c ∈ content, isBracket c = false
  noComment : ¬ [' ', '#'] <:+: content

inductive FlowItem where
  | plain (p : PlainItem)
  | quoted (q : QuotedItem)

namespace FlowItem

def text : FlowItem → List Char
  | .plain p => p.text
  | .quoted q => q.mark :: (q.content ++ [q.mark])

/-- The text of the item with its word replaced. Quoted text stays. -/
def normalizedText : FlowItem → List Char
  | .plain p => replaced p.text
  | .quoted q => (FlowItem.quoted q).text

/-- The item is taken as what it is after `n` quotes: a word if that number is even, and the text
between two commas of quoted text if the number of quotes before it is odd. -/
def TakenRight (n : Nat) : FlowItem → Prop
  | .plain p => word? p.text ≠ none → n % 2 = 0
  | .quoted q => ∀ u w v, q.content = u ++ ',' :: (w ++ ',' :: v) → ',' ∉ w →
      word? (Text.trim w) ≠ none → (n + (1 + u.countP isQuote)) % 2 = 1

end FlowItem

/-! ## Items one after the other -/

theorem countP_flatten_items (s : List Char) :
    (items s).flatten.countP isQuote = s.countP isQuote := by
  induction s with
  | nil => rfl
  | cons c s ih =>
    by_cases hc : c = ','
    · rw [items, if_pos hc, List.flatten_cons, List.nil_append, ih, hc]
      simp [isQuote]
    · obtain ⟨item, rest, hitems, hcons⟩ := exists_items_cons hc s
      rw [hitems, List.flatten_cons] at ih
      rw [hcons, List.flatten_cons, List.cons_append, List.countP_cons, List.countP_cons, ih]

theorem countP_spaces {spaces : List Char} (hspaces : ∀ c ∈ spaces, c = ' ') :
    spaces.countP isQuote = 0 := by
  refine List.countP_eq_zero.2 fun c hc => ?_
  rw [hspaces c hc]
  decide

theorem length_normalizeItemsFrom (quoted : Bool) (parts : List (List Char)) :
    (normalizeItemsFrom quoted parts).length = parts.length :=
  (forall₂_normalizeItemsFrom quoted parts).length_eq.symm

/-- A character of a word, or one of the blanks around it. -/
theorem isAlpha_of_word?_trim {c : Char} (hword : word? (Text.trim s) ≠ none) (hc : c ∈ s) :
    Text.isBlank c = true ∨ c.isAlpha = true := by
  obtain ⟨leading, trailing, hleading, htrailing, hs, -⟩ := exists_normalizeItem s
  obtain ⟨b, hb⟩ := word?_ne_none_iff.1 hword
  rw [hs, List.mem_append, List.mem_append] at hc
  rcases hc with hc | hc | hc
  · exact .inl (hleading c hc)
  · exact .inr ((isAlpha_of_mem_spellings hb).2 c hc)
  · exact .inl (htrailing c hc)

theorem quote_notMem_of_word? {q : Char} (hq : isQuote q = true)
    (hword : word? (Text.trim s) ≠ none) : q ∉ s := by
  intro hmem
  rcases isAlpha_of_word?_trim hword hmem with h | h
  · rw [isBlank_of_isQuote hq] at h
    simp at h
  · rcases isQuote_iff.1 hq with rfl | rfl <;> exact absurd h (by decide)

namespace FlowItem

/-- A plain item is not cut, before and after its word is replaced. -/
theorem items_plain (p : PlainItem) {spaces : List Char} (hspaces : ∀ c ∈ spaces, c = ' ') :
    items (spaces ++ p.text) = [spaces ++ p.text] ∧
      items (spaces ++ replaced p.text) = [spaces ++ replaced p.text] := by
  have hcomma : ',' ∉ spaces ++ p.text := by
    rw [List.mem_append, not_or]
    refine ⟨fun hc => absurd (hspaces ',' hc) (by decide), fun hc => ?_⟩
    exact (p.isPlain ',' hc).1 (by decide)
  have hreworded := (Reworded.refl spaces).append (reworded_replaced p.text)
  exact ⟨items_of_notMem hcomma, items_of_notMem fun hc => hcomma ((hreworded.mem_iff rfl).1 hc)⟩

theorem plain_taken_iff (p : PlainItem) (n : Nat) {spaces : List Char}
    (hspaces : ∀ c ∈ spaces, c = ' ') :
    normalizeItemsFrom (n % 2 == 1) (items (spaces ++ p.text)) =
      items (spaces ++ replaced p.text) ↔ (FlowItem.plain p).TakenRight n := by
  have hblank : ∀ c ∈ spaces, Text.isBlank c = true := by
    intro c hc
    rw [hspaces c hc]
    rfl
  obtain ⟨hitems, hitems'⟩ := items_plain p hspaces
  rw [hitems, hitems', normalizeItemsFrom_cons, TakenRight]
  split
  · next heven =>
    rw [normalizeItem_append hblank p.head p.getLast]
    simp [normalizeItemsFrom, heven]
  · next hodd =>
    have hword : replaced p.text = p.text ↔ word? p.text = none := replaced_eq_self_iff
    simp [normalizeItemsFrom, hodd, ← hword, eq_comm]

/-- The items of a quoted text that are words stand between two of its commas. -/
theorem isItem_quoted_iff (q : QuotedItem) {spaces before item after : List Char}
    (hspaces : ∀ c ∈ spaces, c = ' ') (hitem : q.mark ∉ item) :
    IsItem (spaces ++ (FlowItem.quoted q).text) before item after ↔
      ∃ u v, before = spaces ++ q.mark :: (u ++ [',']) ∧ after = ',' :: (v ++ [q.mark]) ∧
        q.content = u ++ ',' :: (item ++ ',' :: v) ∧ ',' ∉ item := by
  have hmark : ',' ≠ q.mark := (ne_of_isQuote q.isQuote rfl).symm
  have hopening : ',' ∉ spaces ++ [q.mark] := by
    simp only [List.mem_append, List.mem_singleton, hmark, or_false]
    exact fun hc => absurd (hspaces ',' hc) (by decide)
  constructor
  · rintro ⟨htext, hcomma, hlast, hhead⟩
    -- the closing quote comes after the item
    obtain ⟨v, rfl⟩ : ∃ v, after = ',' :: (v ++ [q.mark]) := by
      have hend : (before ++ (item ++ after)).getLast? = some q.mark := by
        rw [← htext, text, ← List.cons_append, ← List.append_assoc]
        exact List.getLast?_concat
      rcases List.eq_nil_or_concat' after with rfl | ⟨x, c, rfl⟩
      · rw [List.append_nil] at hend
        rcases List.eq_nil_or_concat' item with rfl | ⟨y, d, rfl⟩
        · rw [List.append_nil] at hend
          exact absurd (hlast _ hend).symm hmark
        · exact absurd (by simpa [eq_comm] using Or.inr hend) hitem
      · obtain rfl : c = q.mark := by simpa [← List.append_assoc] using hend
        cases x with
        | nil => exact absurd (hhead _ rfl).symm hmark
        | cons d v =>
          obtain rfl := hhead d rfl
          exact ⟨v, rfl⟩
    have hcut : before ++ (item ++ ',' :: v) = spaces ++ [q.mark] ++ q.content := by
      refine (List.append_left_inj [q.mark]).1 ?_
      simpa [text] using htext.symm
    -- and the opening quote before it
    rcases List.eq_nil_or_concat' before with rfl | ⟨u, c, rfl⟩
    · obtain ⟨x, rfl, -⟩ := Text.exists_eq_append_of_notMem hopening hcut
      simp at hitem
    · obtain rfl := hlast c (by simp)
      have hcut' : u ++ ',' :: (item ++ ',' :: v) = spaces ++ [q.mark] ++ q.content := by
        rw [← hcut]
        simp
      obtain ⟨x, rfl, hcontent⟩ := Text.exists_eq_append_of_notMem hopening hcut'
      exact ⟨x, v, by simp, rfl, hcontent, hcomma⟩
  · rintro ⟨u, v, rfl, rfl, hcontent, hcomma⟩
    have hlast : (spaces ++ q.mark :: (u ++ [','])).getLast? = some ',' := by
      rw [← List.cons_append, ← List.append_assoc, List.getLast?_concat]
    refine ⟨by simp [text, hcontent], hcomma, fun c hc => ?_, by simp⟩
    exact (Option.some.inj (hlast.symm.trans hc)).symm

theorem quoted_taken_iff (q : QuotedItem) (n : Nat) {spaces : List Char}
    (hspaces : ∀ c ∈ spaces, c = ' ') :
    normalizeItemsFrom (n % 2 == 1) (items (spaces ++ (FlowItem.quoted q).text)) =
      items (spaces ++ (FlowItem.quoted q).text) ↔ (FlowItem.quoted q).TakenRight n := by
  obtain ⟨hne, hcomma, hjoin⟩ := items_spec (spaces ++ (FlowItem.quoted q).text)
  have hcount : ∀ u : List Char,
      (spaces ++ q.mark :: (u ++ [','])).countP isQuote = 1 + u.countP isQuote := by
    intro u
    have hcomma : isQuote ',' = false := rfl
    simp [countP_spaces hspaces, q.isQuote, hcomma, Nat.add_comm]
  rw [normalizeItemsFrom_eq_self_iff n hne hcomma, hjoin]
  constructor
  · intro h u w v hcontent hw hword
    have hitem := (isItem_quoted_iff q hspaces (quote_notMem_of_word? q.isQuote hword)).2
      ⟨u, v, rfl, rfl, hcontent, hw⟩
    by_contra hodd
    refine hword (h _ w _ hitem ?_)
    rw [hcount]
    omega
  · intro h before item after hitem heven
    by_contra hword
    obtain ⟨u, v, rfl, -, hcontent, hw⟩ :=
      (isItem_quoted_iff q hspaces (quote_notMem_of_word? q.isQuote hword)).1 hitem
    have hodd := h u item v hcontent hw hword
    rw [hcount] at heven
    omega

/-- An item after `n` quotes becomes what it should exactly if it is taken as what it is. -/
theorem taken_iff (i : FlowItem) (n : Nat) {spaces : List Char} (hspaces : ∀ c ∈ spaces, c = ' ') :
    normalizeItemsFrom (n % 2 == 1) (items (spaces ++ i.text)) =
      items (spaces ++ i.normalizedText) ↔ i.TakenRight n := by
  cases i with
  | plain p => exact plain_taken_iff p n hspaces
  | quoted q => exact quoted_taken_iff q n hspaces

theorem length_items_normalizedText (i : FlowItem) {spaces : List Char}
    (hspaces : ∀ c ∈ spaces, c = ' ') :
    (items (spaces ++ i.normalizedText)).length = (items (spaces ++ i.text)).length := by
  cases i with
  | plain p =>
    obtain ⟨hitems, hitems'⟩ := items_plain p hspaces
    rw [text, normalizedText, hitems, hitems', List.length_singleton, List.length_singleton]
  | quoted q => rfl

/-- The items after an item are taken by the quotes in it and before it. -/
theorem taken_append_iff (i : FlowItem) (n : Nat) {spaces : List Char}
    (hspaces : ∀ c ∈ spaces, c = ' ') {parts parts' : List (List Char)} :
    normalizeItemsFrom (n % 2 == 1) (items (spaces ++ i.text) ++ parts) =
        items (spaces ++ i.normalizedText) ++ parts' ↔
      i.TakenRight n ∧
        normalizeItemsFrom ((n + i.text.countP isQuote) % 2 == 1) parts = parts' := by
  have hcount : (items (spaces ++ i.text)).flatten.countP isQuote = i.text.countP isQuote := by
    rw [countP_flatten_items, List.countP_append, countP_spaces hspaces, Nat.zero_add]
  rw [normalizeItemsFrom_append, hcount, ← i.taken_iff n hspaces]
  constructor
  · intro h
    -- replacing keeps the number of parts, so that both sides are cut at the same place
    refine List.append_inj h ?_
    rw [length_normalizeItemsFrom, i.length_items_normalizedText hspaces]
  · rintro ⟨h, h'⟩
    rw [h, h']

end FlowItem

/-! ## Sequences -/

theorem wordsText_cons_cons (w v : List Char) (words : List (List Char)) :
    wordsText (w :: v :: words) = w ++ ',' :: wordsText ((' ' :: v) :: words) := by
  cases words <;> simp [wordsText, List.intercalate_cons_cons, List.intercalate_singleton]

/-- All items but the first have a space before them. -/
theorem items_wordsText_cons (w : List Char) (words : List (List Char)) :
    items (wordsText (w :: words)) = items w ++ words.flatMap fun v => items (' ' :: v) := by
  induction words generalizing w with
  | nil => simp [wordsText, List.intercalate_singleton]
  | cons v words ih =>
    rw [wordsText_cons_cons, items_append, ih, List.flatMap_cons]

/-- Each place of a list that is not empty is its first one or one of the rest. -/
theorem forall_append_cons_iff {α : Type} {P : List α → α → Prop} {x : α} {xs : List α} :
    (∀ before y after, x :: xs = before ++ y :: after → P before y) ↔
      P [] x ∧ ∀ before y after, xs = before ++ y :: after → P (x :: before) y := by
  constructor
  · intro h
    exact ⟨h [] x xs rfl, fun before y after heq => h (x :: before) y after (by rw [heq]; rfl)⟩
  · rintro ⟨hfirst, hrest⟩ before y after heq
    cases before with
    | nil =>
      obtain ⟨rfl, -⟩ := List.cons.inj heq
      exact hfirst
    | cons z before =>
      obtain ⟨rfl, hxs⟩ := List.cons.inj heq
      exact hrest before y after hxs

/-- Each item is taken right, with `n` quotes before the first one. -/
def TakenRight (n : Nat) (list : List FlowItem) : Prop :=
  ∀ before i after, list = before ++ i :: after →
    i.TakenRight (n + (before.flatMap FlowItem.text).countP isQuote)

theorem takenRight_cons_iff {n : Nat} {i : FlowItem} {list : List FlowItem} :
    TakenRight n (i :: list) ↔ i.TakenRight n ∧ TakenRight (n + i.text.countP isQuote) list := by
  simp only [TakenRight, forall_append_cons_iff, List.flatMap_nil, List.countP_nil, Nat.add_zero,
    List.flatMap_cons, List.countP_append, Nat.add_assoc]

theorem normalizeItemsFrom_flatMap_eq_iff (n : Nat) (list : List FlowItem) :
    normalizeItemsFrom (n % 2 == 1) (list.flatMap fun i => items (' ' :: i.text)) =
      (list.flatMap fun i => items (' ' :: i.normalizedText)) ↔ TakenRight n list := by
  induction list generalizing n with
  | nil => simp [normalizeItemsFrom, TakenRight]
  | cons i list ih =>
    rw [List.flatMap_cons, List.flatMap_cons, takenRight_cons_iff, ← ih]
    exact i.taken_append_iff n (List.forall_mem_singleton.2 rfl)

/-- The items of a sequence become what they should exactly if each is taken right. -/
theorem normalizeItems_eq_flowText_iff (list : List FlowItem) :
    normalizeItems (wordsText (list.map FlowItem.text)) =
      flowText (list.map FlowItem.normalizedText) ↔ TakenRight 0 list := by
  rw [flowText, normalizeItems_eq_iff]
  cases list with
  | nil => exact iff_of_true rfl (by simp [TakenRight])
  | cons i list =>
    rw [List.map_cons, List.map_cons, items_wordsText_cons, items_wordsText_cons,
      List.flatMap_map, List.flatMap_map, takenRight_cons_iff, ← normalizeItemsFrom_flatMap_eq_iff]
    exact @FlowItem.taken_append_iff i 0 [] (by simp) _ _

/-! ## Lines -/

/-- A text that neither has a comment in it nor starts like one after a space. -/
def IsUncommented (s : List Char) : Prop :=
  ¬ [' ', '#'] <:+: s ∧ ∀ c ∈ s.head?, c ≠ '#'

theorem IsUncommented.space (h : IsUncommented s) : IsUncommented (' ' :: s) := by
  refine ⟨fun hin => ?_, by simp⟩
  rcases List.infix_cons_iff.1 hin with hprefix | hin
  · obtain ⟨rest, rfl⟩ := (List.cons_prefix_cons.1 hprefix).2
    exact h.2 '#' rfl rfl
  · exact h.1 hin

theorem not_infix_wordsText {words : List (List Char)} (h : ∀ w ∈ words, IsUncommented w) :
    ¬ [' ', '#'] <:+: wordsText words := by
  cases words with
  | nil => decide
  | cons w words =>
    induction words generalizing w with
    | nil => simpa [wordsText] using (h w List.mem_cons_self).1
    | cons v words ih =>
      rw [List.forall_mem_cons, List.forall_mem_cons] at h
      -- the space after the comma goes to the next word, which is the first one of the rest
      have hrest := ih (' ' :: v) (List.forall_mem_cons.2 ⟨h.2.1.space, h.2.2⟩)
      rw [wordsText_cons_cons]
      refine not_infix_append h.1.1 (fun hin => ?_) (by simp)
      rcases List.infix_cons_iff.1 hin with hprefix | hin
      · exact absurd (List.cons_prefix_cons.1 hprefix).1 (by decide)
      · exact hrest hin

namespace FlowItem

theorem isUncommented_text (i : FlowItem) : IsUncommented i.text := by
  cases i with
  | plain p =>
    have hnone : '#' ∉ p.text := fun hc => (p.isPlain '#' hc).1 (by decide)
    exact ⟨fun hin => hnone (hin.subset (by simp)), fun c hc heq =>
      hnone (heq ▸ List.mem_of_mem_head? hc)⟩
  | quoted q =>
    have hspace : q.mark ≠ ' ' := ne_of_isQuote q.isQuote rfl
    have hsign : q.mark ≠ '#' := ne_of_isQuote q.isQuote rfl
    have hcontent : ¬ [' ', '#'] <:+: q.content ++ [q.mark] := by
      refine not_infix_append q.noComment (fun hin => ?_) (by simpa using hsign)
      have hlength := hin.length_le
      simp at hlength
    refine ⟨fun hin => ?_, by simpa [text] using hsign⟩
    rcases List.infix_cons_iff.1 hin with hprefix | hin
    · exact hspace (List.cons_prefix_cons.1 hprefix).1.symm
    · exact hcontent hin

/-- An item has neither brackets nor line feeds in it. -/
theorem isPlain_text (i : FlowItem) :
    ∀ c ∈ i.text, BooleanWords.isBracket c = false ∧ c ≠ '\n' := by
  cases i with
  | plain p =>
    intro c hc
    refine ⟨(p.isPlain c hc).2.2, ?_⟩
    rintro rfl
    exact (p.isPlain '\n' hc).1 (by decide)
  | quoted q =>
    have hmark : BooleanWords.isBracket q.mark = false ∧ q.mark ≠ '\n' := by
      rcases isQuote_iff.1 q.isQuote with h | h <;> rw [h] <;> decide
    intro c hc
    simp only [text, List.mem_cons, List.mem_append, List.not_mem_nil, or_false] at hc
    rcases hc with rfl | hc | rfl
    · exact hmark
    · refine ⟨q.isBracket c hc, ?_⟩
      rintro rfl
      exact q.oneLine hc
    · exact hmark

end FlowItem

section

variable (list : List FlowItem)

theorem any_isBracket_wordsText :
    (wordsText (list.map FlowItem.text)).any isBracket = false := by
  rw [List.any_eq_false]
  intro c hc
  rw [Bool.not_eq_true]
  rcases exists_of_mem_wordsText hc with (rfl | rfl) | ⟨w, hw, hcw⟩
  · rfl
  · rfl
  · obtain ⟨i, _, rfl⟩ := List.mem_map.1 hw
    exact (i.isPlain_text c hcw).1

theorem newline_notMem_flowText : '\n' ∉ flowText (list.map FlowItem.text) := by
  intro hmem
  simp only [flowText, List.mem_cons, List.mem_append, List.not_mem_nil, or_false] at hmem
  rcases hmem with hmem | hmem | hmem
  · exact absurd hmem (by decide)
  · rcases exists_of_mem_wordsText hmem with hsep | ⟨w, hw, hcw⟩
    · exact absurd hsep (by decide)
    · obtain ⟨i, _, rfl⟩ := List.mem_map.1 hw
      exact (i.isPlain_text '\n' hcw).2 rfl
  · exact absurd hmem (by decide)

/-- A sequence with such items ends with its line. -/
theorem endsBefore_flowText : EndsBefore (flowText (list.map FlowItem.text)) ['\n'] := by
  have hwords : ∀ w ∈ list.map FlowItem.text, IsUncommented w :=
    List.forall_mem_map.2 fun i _ => i.isUncommented_text
  have hcomment : ¬ [' ', '#'] <:+: flowText (list.map FlowItem.text) := by
    intro hin
    rcases List.infix_cons_iff.1 hin with hprefix | hin
    · exact absurd (List.cons_prefix_cons.1 hprefix).1 (by decide)
    · exact not_infix_append (not_infix_wordsText hwords) (by decide) (by simp) hin
  refine ⟨List.cons_ne_nil _ _, fun c hc => ?_, ['\n'], [], rfl,
    List.forall_mem_singleton.2 rfl, .inl rfl, not_infix_append_newline hcomment (by decide)⟩
  rw [flowText, ← List.cons_append, List.getLast?_concat] at hc
  obtain rfl := Option.some.inj hc
  rfl

end

theorem normalize_of_isLine {line : List Char} (h : Text.IsLine line) :
    normalize line = normalizeLine line := by
  have hlines := Text.lines_flatten (List.forall_mem_singleton.2 h)
  rw [List.flatten_singleton] at hlines
  rw [normalize, hlines]
  exact List.flatten_singleton

/-- A line with a sequence becomes the line with the words of its plain items replaced exactly if
each item is taken right. -/
theorem normalize_flowLine_iff_takenRight (key : Word) (indent : Nat) (list : List FlowItem) :
    normalize (entryLine indent key.text (flowText (list.map FlowItem.text))) =
        entryLine indent key.text (flowText (list.map FlowItem.normalizedText)) ↔
      TakenRight 0 list := by
  have hline := isLine_entryLine indent key (newline_notMem_flowText list)
  have hplace : Place (entryLine indent key.text (flowText (list.map FlowItem.text))) _ _ _ :=
    place_entryLine key.isWordChar (by simp [flowText]) (endsBefore_flowText list)
  have hvalue := normalizeValue_eq_normalizeItems (any_isBracket_wordsText list)
  rw [← flowText] at hvalue
  rw [normalize_of_isLine hline, normalizeLine_of_place hplace, hvalue,
    ← normalizeItems_eq_flowText_iff]
  simp [entryLine]

/-- Just the plain items that are words are replaced, exactly if the number of quotes is even before
each of them and odd before each word between two commas of quoted text. -/
theorem normalize_flowLine_eq_iff (key : Word) (indent : Nat) (list : List FlowItem) :
    normalize (entryLine indent key.text (flowText (list.map FlowItem.text))) =
        entryLine indent key.text (flowText (list.map FlowItem.normalizedText)) ↔
      ∀ before i after, list = before ++ i :: after →
        i.TakenRight ((before.flatMap FlowItem.text).countP isQuote) := by
  rw [normalize_flowLine_iff_takenRight, TakenRight]
  simp only [Nat.zero_add]

/-- An item in double quotes with an apostrophe, and a word after it. -/
def apostropheItems : List FlowItem :=
  [.quoted ⟨⟨'"', "it's".toList, isQuote_double, by decide⟩, by decide, by simp [isBracket],
      by decide⟩,
    .plain ⟨"yes".toList, by simp [isQuote, isBracket], by simp [Text.isBlank],
      by simp [Text.isBlank]⟩]

/-- The apostrophe is counted as a quote, so that the word after the closing quote stays. -/
theorem normalize_flowLine_ne :
    normalize (entryLine 0 "choices".toList (flowText (apostropheItems.map FlowItem.text))) =
        "choices: [\"it's\", yes]\n".toList ∧
      normalize (entryLine 0 "choices".toList (flowText (apostropheItems.map FlowItem.text))) ≠
        entryLine 0 "choices".toList (flowText (apostropheItems.map FlowItem.normalizedText)) := by
  decide

/-! ## Quoted items without quotes in them -/

theorem takenRight_of_notQuote {n : Nat} (hn : n % 2 = 0) {list : List FlowItem}
    (h : ∀ q, FlowItem.quoted q ∈ list → ∀ c ∈ q.content, isQuote c = false) :
    TakenRight n list := by
  induction list generalizing n with
  | nil => simp [TakenRight]
  | cons i list ih =>
    have hrest : ∀ q, FlowItem.quoted q ∈ list → ∀ c ∈ q.content, isQuote c = false :=
      fun q hq => h q (List.mem_cons_of_mem i hq)
    rw [takenRight_cons_iff]
    cases i with
    | plain p =>
      have hcount : p.text.countP isQuote = 0 :=
        List.countP_eq_zero.2 fun c hc => by simp [(p.isPlain c hc).2.1]
      exact ⟨fun _ => hn, ih (by rw [FlowItem.text, hcount]; omega) hrest⟩
    | quoted q =>
      have hnone := h q List.mem_cons_self
      have hcount : q.content.countP isQuote = 0 :=
        List.countP_eq_zero.2 fun c hc => by simp [hnone c hc]
      refine ⟨fun u w v hcontent _ _ => ?_, ih ?_ hrest⟩
      · rw [hcontent, List.countP_append] at hcount
        omega
      · simp only [FlowItem.text, List.countP_cons, List.countP_append, List.countP_nil, hcount,
          q.isQuote, if_true]
        omega

/-- If no quoted text has a quote in it, just the plain items that are words are replaced. -/
theorem normalize_flowLine_of_notQuote (key : Word) (indent : Nat) {list : List FlowItem}
    (h : ∀ q, FlowItem.quoted q ∈ list → ∀ c ∈ q.content, isQuote c = false) :
    normalize (entryLine indent key.text (flowText (list.map FlowItem.text))) =
      entryLine indent key.text (flowText (list.map FlowItem.normalizedText)) :=
  (normalize_flowLine_iff_takenRight key indent list).2 (takenRight_of_notQuote rfl h)

end PluginDataset.BooleanWords
