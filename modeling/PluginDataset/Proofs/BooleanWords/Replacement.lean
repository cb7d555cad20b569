import Mathlib.Data.List.Forall2
import PluginDataset.Proofs.BooleanWords.Line
import PluginDataset.Proofs.Text.Lines

/-!
# What replacing words changes

A text and the text with its words replaced can be cut into the same pieces: a piece is a character
that stays, or a word that becomes the name of a boolean. Words and names are made of letters, so
that all other characters stay where they are, and nothing at which texts are cut comes or goes.

## Main definitions

* `BooleanWords.Piece` is a part of a text that stays or is replaced.
* `BooleanWords.Reworded` relates two texts that consist of the same pieces.

## Main results

* `BooleanWords.Reworded.cut`, `BooleanWords.Reworded.sideBySide`,
  `BooleanWords.Reworded.countP_eq`: characters that are no letters stay where they are.
* `BooleanWords.exists_normalizeItem`: only the word of an item is replaced.
* `BooleanWords.reworded_normalize`: replacing the words of a text does nothing else.
* `BooleanWords.lines_normalize`: lines stay lines.
-/

namespace PluginDataset.BooleanWords

/-! ## Pieces -/

/-- A part of a text: a character that stays, or a word that is replaced. -/
inductive Piece where
  | same (c : Char)
  | word (w : List Char) (b : Bool) (h : w ∈ spellings b)

namespace Piece

/-- The part before it is replaced. -/
def source : Piece → List Char
  | .same c => [c]
  | .word w _ _ => w

/-- The part after it is replaced. -/
def result : Piece → List Char
  | .same c => [c]
  | .word _ b _ => booleanText b

end Piece

/-- The second text is the first one with some of its words replaced. -/
def Reworded (s t : List Char) : Prop :=
  ∃ pieces : List Piece, pieces.flatMap Piece.source = s ∧ pieces.flatMap Piece.result = t

/-- One of the two sides of pieces. Its words are made of letters. -/
structure IsSide (side : Piece → List Char) : Prop where
  same : ∀ c, side (.same c) = [c]
  ne_nil : ∀ p, side p ≠ []
  isAlpha : ∀ w b h, ∀ c ∈ side (.word w b h), c.isAlpha = true

theorem isAlpha_booleanText (b : Bool) : ∀ c ∈ booleanText b, c.isAlpha = true :=
  List.all_eq_true.1 (by cases b <;> rfl)

theorem booleanText_ne_nil (b : Bool) : booleanText b ≠ [] := by
  cases b <;> decide

theorem isSide_source : IsSide Piece.source where
  same _ := rfl
  ne_nil := by
    rintro (c | ⟨w, b, h⟩)
    · exact List.cons_ne_nil c []
    · exact (isAlpha_of_mem_spellings h).1
  isAlpha _ _ h := (isAlpha_of_mem_spellings h).2

theorem isSide_result : IsSide Piece.result where
  same _ := rfl
  ne_nil := by
    rintro (c | ⟨w, b, h⟩)
    · exact List.cons_ne_nil c []
    · exact booleanText_ne_nil b
  isAlpha _ b _ := isAlpha_booleanText b

theorem IsSide.eq_nil {side : Piece → List Char} (hside : IsSide side) {pieces : List Piece}
    (h : pieces.flatMap side = []) : pieces = [] :=
  List.eq_nil_iff_forall_not_mem.2 fun p hp =>
    hside.ne_nil p (List.flatMap_eq_nil_iff.1 h p hp)

/-- A character that is no letter is a piece of its own. -/
theorem IsSide.exists_cut {side : Piece → List Char} (hside : IsSide side) {c : Char}
    (hc : c.isAlpha = false) {pieces : List Piece} {u s : List Char}
    (h : pieces.flatMap side = u ++ c :: s) :
    ∃ ps qs, pieces = ps ++ .same c :: qs ∧ ps.flatMap side = u ∧ qs.flatMap side = s := by
  induction pieces generalizing u with
  | nil => simp at h
  | cons p pieces ih =>
    rw [List.flatMap_cons] at h
    rcases List.append_eq_append_iff.1 h with ⟨x, rfl, hrest⟩ | ⟨x, hp, hrest⟩
    · obtain ⟨ps, qs, rfl, rfl, rfl⟩ := ih hrest
      exact ⟨p :: ps, qs, rfl, List.flatMap_cons, rfl⟩
    · cases x with
      | nil =>
        obtain ⟨ps, qs, rfl, hps, rfl⟩ := ih (u := []) hrest.symm
        refine ⟨p :: ps, qs, rfl, ?_, rfl⟩
        rw [List.flatMap_cons, hps, hp, List.append_nil, List.append_nil]
      | cons d x =>
        obtain ⟨rfl, rfl⟩ := List.cons.inj hrest
        have hmem : c ∈ side p := hp ▸ List.mem_append_right u List.mem_cons_self
        cases p with
        | same e =>
          rw [hside.same] at hp
          rcases List.append_eq_singleton_iff.1 hp.symm with ⟨rfl, hx⟩ | ⟨_, hx⟩
          · obtain ⟨rfl, rfl⟩ := List.cons.inj hx
            exact ⟨[], pieces, rfl, rfl, rfl⟩
          · exact absurd hx (List.cons_ne_nil c x)
        | word w b hw =>
          rw [hside.isAlpha w b hw c hmem] at hc
          simp at hc

section

variable {s t u : List Char} {a c : Char}

theorem Reworded.refl (s : List Char) : Reworded s s := by
  refine ⟨s.map .same, ?_, ?_⟩
  · simp [List.flatMap_map, Piece.source]
  · simp [List.flatMap_map, Piece.result]

theorem Reworded.append {s' t' : List Char} (h : Reworded s t) (h' : Reworded s' t') :
    Reworded (s ++ s') (t ++ t') := by
  obtain ⟨ps, rfl, rfl⟩ := h
  obtain ⟨qs, rfl, rfl⟩ := h'
  exact ⟨ps ++ qs, List.flatMap_append, List.flatMap_append⟩

/-- A text that may be a word, with the word replaced. -/
theorem reworded_replaced (s : List Char) : Reworded s (replaced s) := by
  rcases replaced_cases s with ⟨b, hs, hsame⟩ | ⟨-, hsame⟩
  · rw [hsame]
    exact ⟨[.word s b hs], List.flatMap_singleton .., List.flatMap_singleton ..⟩
  · rw [hsame]
    exact .refl s

theorem Reworded.eq_nil_iff (h : Reworded s t) : t = [] ↔ s = [] := by
  obtain ⟨pieces, rfl, rfl⟩ := h
  constructor
  · intro hnil
    rw [isSide_result.eq_nil hnil, List.flatMap_nil]
  · intro hnil
    rw [isSide_source.eq_nil hnil, List.flatMap_nil]

/-- Both texts are cut at the same character. -/
theorem Reworded.cut (h : Reworded (u ++ c :: s) t) (hc : c.isAlpha = false) :
    ∃ u' s', t = u' ++ c :: s' ∧ Reworded u u' ∧ Reworded s s' := by
  obtain ⟨pieces, hsource, rfl⟩ := h
  obtain ⟨ps, qs, rfl, rfl, rfl⟩ := isSide_source.exists_cut hc hsource
  refine ⟨ps.flatMap Piece.result, qs.flatMap Piece.result, ?_, ⟨ps, rfl, rfl⟩, ⟨qs, rfl, rfl⟩⟩
  rw [List.flatMap_append, List.flatMap_cons]
  rfl

/-- Characters that are no letters stand side by side only where they did before. -/
theorem Reworded.sideBySide (h : Reworded s t) (ha : a.isAlpha = false) (hc : c.isAlpha = false)
    (hin : [a, c] <:+: t) : [a, c] <:+: s := by
  obtain ⟨pieces, rfl, hresult⟩ := h
  obtain ⟨u, v, ht⟩ := hin
  rw [← ht, List.append_assoc] at hresult
  obtain ⟨ps, qs, rfl, _, hqs⟩ := isSide_result.exists_cut ha hresult
  obtain ⟨ps', qs', rfl, hps', _⟩ := isSide_result.exists_cut (u := []) hc hqs
  -- no piece is empty, so that there is none between the two characters
  have hnil : ps' = [] := isSide_result.eq_nil hps'
  refine ⟨ps.flatMap Piece.source, qs'.flatMap Piece.source, ?_⟩
  simp [hnil, Piece.source]

/-- Characters that are no letters are as many as before. -/
theorem Reworded.countP_eq (h : Reworded s t) {p : Char → Bool}
    (hp : ∀ c, p c = true → c.isAlpha = false) : t.countP p = s.countP p := by
  have hletters : ∀ {w : List Char}, (∀ c ∈ w, c.isAlpha = true) → w.countP p = 0 := by
    intro w hw
    refine List.countP_eq_zero.2 fun c hc hpc => ?_
    have halpha := hw c hc
    rw [hp c hpc] at halpha
    simp at halpha
  obtain ⟨pieces, rfl, rfl⟩ := h
  induction pieces with
  | nil => rfl
  | cons piece pieces ih =>
    rw [List.flatMap_cons, List.flatMap_cons, List.countP_append, List.countP_append, ih]
    cases piece with
    | same c => rfl
    | word w b hw =>
      rw [Piece.source, Piece.result, hletters (isAlpha_of_mem_spellings hw).2,
        hletters (isAlpha_booleanText b)]

theorem Reworded.mem_iff (h : Reworded s t) (hc : c.isAlpha = false) : c ∈ t ↔ c ∈ s := by
  have hcount : t.count c = s.count c := by
    refine h.countP_eq fun d hd => ?_
    rw [beq_iff_eq.1 hd]
    exact hc
  rw [← List.count_pos_iff, hcount, List.count_pos_iff]

end

/-! ## Items -/

theorem word?_booleanText (b : Bool) : word? (booleanText b) = none := by
  cases b <;> rfl

/-- The word of an item is replaced, and the blanks around it stay. -/
theorem exists_normalizeItem (item : List Char) :
    ∃ leading trailing, (∀ c ∈ leading, Text.isBlank c = true) ∧
      (∀ c ∈ trailing, Text.isBlank c = true) ∧
      item = leading ++ (Text.trim item ++ trailing) ∧
      normalizeItem item = leading ++ (replaced (Text.trim item) ++ trailing) := by
  obtain ⟨trailing, htrim, htrailing⟩ := Text.exists_trimEnd_append (Text.trimStart item)
  have hitem : item = item.takeWhile Text.isBlank ++ (Text.trim item ++ trailing) := by
    rw [Text.trim, ← htrim]
    exact List.takeWhile_append_dropWhile.symm
  refine ⟨item.takeWhile Text.isBlank, trailing, List.all_eq_true.1 List.all_takeWhile, htrailing,
    hitem, ?_⟩
  rw [normalizeItem, replaced]
  cases word? (Text.trim item) with
  | none => exact hitem
  | some b =>
    have hdrop : item.drop ((item.takeWhile Text.isBlank).length + (Text.trim item).length) =
        trailing := by
      rw [← List.append_assoc] at hitem
      exact (congrArg _ hitem).trans (List.drop_left' (List.length_append ..))
    dsimp only
    rw [hdrop, List.append_assoc]

theorem reworded_normalizeItem (item : List Char) : Reworded item (normalizeItem item) := by
  obtain ⟨leading, trailing, _, _, hitem, hnormal⟩ := exists_normalizeItem item
  rw [hnormal]
  conv_lhs => rw [hitem]
  exact (Reworded.refl leading).append ((reworded_replaced _).append (.refl trailing))

theorem joinItems_cons {parts : List (List Char)} (hne : parts ≠ []) (part : List Char) :
    joinItems (part :: parts) = part ++ ',' :: joinItems parts := by
  obtain ⟨next, parts, rfl⟩ := List.exists_cons_of_ne_nil hne
  rw [joinItems, List.intercalate_cons_cons, List.append_assoc]
  rfl

theorem joinItems_consItem (c : Char) (parts : List (List Char)) :
    joinItems (consItem c parts) = c :: joinItems parts := by
  cases parts with
  | nil => rfl
  | cons part parts =>
    rw [consItem]
    by_cases hne : parts = []
    · rw [hne, joinItems, joinItems, List.intercalate_singleton, List.intercalate_singleton]
    · rw [joinItems_cons hne, joinItems_cons hne, List.cons_append]

/-- A text is cut at its commas, and joined again it is the same text. -/
theorem items_spec (s : List Char) :
    items s ≠ [] ∧ (∀ item ∈ items s, ',' ∉ item) ∧ joinItems (items s) = s := by
  refine ⟨items_ne_nil s, ?_⟩
  induction s with
  | nil => exact ⟨by simp [items], rfl⟩
  | cons c s ih =>
    obtain ⟨hcomma, hjoin⟩ := ih
    by_cases hc : c = ','
    · rw [items, if_pos hc, hc, joinItems_cons (items_ne_nil s), hjoin]
      exact ⟨List.forall_mem_cons.2 ⟨List.not_mem_nil, hcomma⟩, rfl⟩
    · obtain ⟨item, rest, hitems, hcons⟩ := exists_items_cons hc s
      rw [hitems, List.forall_mem_cons] at hcomma
      refine ⟨?_, by rw [items, if_neg hc, joinItems_consItem, hjoin]⟩
      rw [hcons, List.forall_mem_cons, List.mem_cons, not_or]
      exact ⟨⟨Ne.symm hc, hcomma.1⟩, hcomma.2⟩

theorem forall₂_normalizeItemsFrom (quoted : Bool) (parts : List (List Char)) :
    List.Forall₂ Reworded parts (normalizeItemsFrom quoted parts) := by
  induction parts generalizing quoted with
  | nil => exact .nil
  | cons part parts ih =>
    refine .cons ?_ (ih _)
    cases quoted with
    | true => exact .refl part
    | false => exact reworded_normalizeItem part

theorem reworded_joinItems {parts parts' : List (List Char)}
    (h : List.Forall₂ Reworded parts parts') : Reworded (joinItems parts) (joinItems parts') := by
  induction h with
  | nil => exact .refl _
  | @cons part part' parts parts' hpart hparts ih =>
    cases hparts with
    | nil =>
      rw [joinItems, joinItems, List.intercalate_singleton, List.intercalate_singleton]
      exact hpart
    | cons hnext hmore =>
      rw [joinItems, joinItems, List.intercalate_cons_cons, List.intercalate_cons_cons]
      exact (hpart.append (.refl [','])).append ih

/-! ## Values and lines -/

theorem reworded_items (quoted : Bool) (inner : List Char) :
    Reworded inner (joinItems (normalizeItemsFrom quoted (items inner))) := by
  have h := reworded_joinItems (forall₂_normalizeItemsFrom quoted (items inner))
  rwa [(items_spec inner).2.2] at h

theorem reworded_normalizeItems (inner : List Char) :
    Reworded ('[' :: (inner ++ [']'])) (normalizeItems inner) :=
  (Reworded.refl ['[']).append ((reworded_items false inner).append (.refl [']']))

/-- A bracket that may not stand between the brackets of a sequence. -/
def isBracket (c : Char) : Bool :=
  c == '[' || c == ']' || c == '\x7b' || c == '\x7d'

/-- What stands between the brackets of a value has no brackets itself. -/
theorem flowInner?_eq_some_iff {value inner : List Char} :
    flowInner? value = some inner ↔
      value = '[' :: (inner ++ [']']) ∧ inner.any isBracket = false := by
  constructor
  · intro h
    unfold flowInner? at h
    split at h
    · next rest =>
      split at h
      · next hlast =>
        obtain ⟨s, rfl⟩ := List.getLast?_eq_some_iff.1 hlast
        rw [List.dropLast_concat] at h
        dsimp only at h
        split at h
        · simp at h
        · next hnone =>
          obtain rfl := Option.some.inj h
          exact ⟨rfl, Bool.eq_false_iff.2 hnone⟩
      · simp at h
    · simp at h
  · rintro ⟨rfl, hnone⟩
    rw [flowInner?, if_pos List.getLast?_concat, List.dropLast_concat]
    exact if_neg (Bool.eq_false_iff.1 hnone)

theorem reworded_normalizeValue (value : List Char) : Reworded value (normalizeValue value) := by
  rw [normalizeValue]
  split
  · next b hword =>
    have hreplaced := reworded_replaced value
    rwa [replaced, hword] at hreplaced
  · next inner _ hinner =>
    rw [(flowInner?_eq_some_iff.1 hinner).1]
    exact reworded_normalizeItems inner
  · exact .refl value

theorem reworded_normalizeLine (line : List Char) : Reworded line (normalizeLine line) := by
  rw [normalizeLine]
  split
  · next s hspan =>
    conv_lhs => rw [← text_of_span? hspan]
    exact ((Reworded.refl s.before).append (reworded_normalizeValue s.value)).append
      (.refl s.after)
  · exact .refl line

/-- A line stays a line. -/
theorem exists_normalizeLine {w : List Char} (hw : '\n' ∉ w) :
    ∃ w', '\n' ∉ w' ∧ normalizeLine (w ++ ['\n']) = w' ++ ['\n'] := by
  obtain ⟨w', s', hline, hbefore, hafter⟩ := (reworded_normalizeLine (w ++ ['\n'])).cut rfl
  rw [hafter.eq_nil_iff.2 rfl] at hline
  exact ⟨w', fun hmem => hw ((hbefore.mem_iff rfl).1 hmem), hline⟩

/-! ## Texts -/

theorem reworded_normalizeLines (parent : Option Nat) (ls : List (List Char)) :
    Reworded ls.flatten (normalizeLines parent ls).flatten := by
  induction ls generalizing parent with
  | nil => exact .refl []
  | cons line ls ih =>
    rw [normalizeLines]
    split
    · exact (Reworded.refl line).append (ih _)
    · exact (reworded_normalizeLine line).append (ih _)

/-- The words of a text are replaced, and everything else stays. -/
theorem reworded_normalize (text : List Char) : Reworded text (normalize text) := by
  have h := reworded_normalizeLines none (Text.lines text)
  rwa [Text.flatten_lines] at h

theorem lines_flatten_normalizeLines (parent : Option Nat) (text : List Char) :
    Text.lines (normalizeLines parent (Text.lines text)).flatten =
      normalizeLines parent (Text.lines text) := by
  induction text using Text.lines_induction generalizing parent with
  | nil => rfl
  | last w hne hw =>
    have hlast : Text.lines (normalizeLine w) = [normalizeLine w] := by
      have hreworded := reworded_normalizeLine w
      refine Text.lines_of_notMem (fun hnil => hne (hreworded.eq_nil_iff.1 hnil)) fun hmem => ?_
      exact hw ((hreworded.mem_iff rfl).1 hmem)
    rw [Text.lines_of_notMem hne hw, normalizeLines]
    split
    · rw [normalizeLines, List.flatten_singleton, Text.lines_of_notMem hne hw]
    · rw [normalizeLines, List.flatten_singleton, hlast]
  | line w s hw ih =>
    rw [Text.lines_append_newline hw, normalizeLines]
    split
    · rw [List.flatten_cons, List.append_assoc, List.singleton_append,
        Text.lines_append_newline hw, ih]
    · obtain ⟨w', hw', hline⟩ := exists_normalizeLine hw
      rw [hline, List.flatten_cons, List.append_assoc, List.singleton_append,
        Text.lines_append_newline hw', ih]

/-- The lines of a text are replaced one by one. -/
theorem lines_normalize (text : List Char) :
    Text.lines (normalize text) = normalizeLines none (Text.lines text) :=
  lines_flatten_normalizeLines none text

end PluginDataset.BooleanWords
