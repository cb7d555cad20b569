import PluginDataset.Proofs.BooleanWords.Flow

/-!
# Comments after a value

The value of a line ends before its comment, but the key in front of it is looked for on the whole
line. A line with a key keeps its comment, and its value is replaced as it is without. An item of a
block sequence has no key, so that a colon before a space in its comment is taken for the end of one:
then the item stays, and a word in the comment is replaced instead.

## Main definitions

* `BooleanWords.commentText` is a comment with the space before it, up to the end of its line.

## Main results

* `BooleanWords.normalizeLine_append_of_key`: a line with a key is replaced as it is without a
  comment.
* `BooleanWords.normalizeLine_append_of_item`: so is an item, if its comment brings no key.
* `BooleanWords.normalizeLine_append_eq_iff`: if it does, no word may be in either of them.
* `BooleanWords.normalize_item_word_iff`: an item that is a word.
* `BooleanWords.normalize_append_commentText`: all lines with a key, and all items.
* `BooleanWords.normalize_commentedItem`: an item with a comment that says what it was.
-/

namespace PluginDataset.BooleanWords

variable {s t u v x line before markers : List Char}

/-! ## What stays in front of a comment -/

/-- Where the first of two characters is missing, the two do not start. -/
theorem infix_of_notMem {a b : Char} (ha : a ∉ s) (h : [a, b] <:+: s ++ t) : [a, b] <:+: t := by
  obtain ⟨p, q, hpq⟩ := h
  have hcut : p ++ a :: (b :: q) = s ++ t := by simpa using hpq
  obtain ⟨y, -, rfl⟩ := Text.exists_eq_append_of_notMem ha hcut
  exact ⟨y, q, by simp⟩

theorem IsMarkers.append (hs : IsMarkers s) (ht : IsMarkers t) : IsMarkers (s ++ t) := by
  induction hs with
  | nil => exact ht
  | space _ ih => exact .space ih
  | marker _ ih => exact .marker ih

theorem IsMarkers.notMem (h : IsMarkers s) {c : Char} (hc : c ∉ [' ', '-']) : c ∉ s := by
  simp only [List.mem_cons, List.not_mem_nil, or_false, not_or] at hc
  induction h with
  | nil => exact List.not_mem_nil
  | space _ ih => simp [hc.1, ih]
  | marker _ ih => simp [hc.1, hc.2, ih]

/-- No marker is made by what comes after a text, unless the text is a hyphen. -/
theorem NoMarker.append (h : NoMarker s) (hne : s ≠ []) (hdash : s ≠ ['-']) (t : List Char) :
    NoMarker (s ++ t) := by
  obtain ⟨c, s, rfl⟩ := List.exists_cons_of_ne_nil hne
  refine ⟨h.1, fun hmarker => ?_⟩
  obtain ⟨rfl, hspace⟩ := List.cons_prefix_cons.1 hmarker
  cases s with
  | nil => exact hdash rfl
  | cons d s =>
    obtain ⟨rfl, -⟩ := List.cons_prefix_cons.1 hspace
    exact h.2 (List.prefix_append ['-', ' '] s)

theorem startsQuotedOrComment_append (hne : s ≠ []) (t : List Char) :
    startsQuotedOrComment (s ++ t) = startsQuotedOrComment s := by
  cases s with
  | nil => exact absurd rfl hne
  | cons c s => rfl

theorem beforeComment_append_isComment (s : List Char) (ht : IsComment t) :
    beforeComment (s ++ t) = beforeComment s := by
  obtain ⟨comment, hs, hcomment, hbefore⟩ := exists_comment s
  have hboth : IsComment (comment ++ t) := by
    rcases hcomment with rfl | hmark
    · exact ht
    · exact .inr (hmark.trans (List.prefix_append comment t))
  conv_lhs => rw [hs, List.append_assoc]
  exact beforeComment_append hbefore hboth

/-! ## Lines on which a value starts like no word -/

/-- A quoted scalar or a comment after the markers of a line is not looked at. -/
theorem splitHead?_eq_none (hmarkers : IsMarkers markers) (hs : NoMarker s)
    (hquoted : startsQuotedOrComment s = true) : splitHead? (markers ++ s) = none := by
  have hsplit := splitMarkers_eq_iff.2 ⟨rfl, hmarkers, hs⟩
  simp only [splitHead?, hsplit, hquoted, if_true]

/-- A line stays if its value starts neither like a word nor like a sequence in brackets. -/
theorem normalizeLine_eq_self_of_head (h : splitHead? line = some (before, u))
    (hu : ∀ c ∈ u.head?, c.isAlpha = false ∧ c ≠ '[') : normalizeLine line = line := by
  rw [normalizeLine_eq_self_iff]
  rintro ⟨before', value, after, hplace, hword⟩
  rw [splitHead?_eq_some_iff.2 ⟨hplace.text, hplace.head⟩] at h
  obtain ⟨-, rfl⟩ := Prod.mk.inj (Option.some.inj h)
  obtain ⟨c, rest, rfl⟩ := List.exists_cons_of_ne_nil hplace.ends.ne_nil
  obtain ⟨halpha, hbracket⟩ := hu c rfl
  rcases hword with hword | ⟨inner, hvalue, -⟩
  · obtain ⟨b, hb⟩ := word?_ne_none_iff.1 hword
    rw [(isAlpha_of_mem_spellings hb).2 c List.mem_cons_self] at halpha
    simp at halpha
  · exact hbracket (List.cons.inj hvalue).1

theorem normalizeLine_eq_self_of_none (h : splitHead? line = none) :
    normalizeLine line = line := by
  simp only [normalizeLine, span?, h]

/-! ## Comments behind a line -/

/-- A comment behind a line stays if it leaves the start of the value where it was. -/
theorem normalizeLine_append_of_splitHead? (h : splitHead? line = some (before, u))
    (h' : splitHead? (line ++ t) = some (before, u ++ t)) (ht : IsComment t) :
    normalizeLine (line ++ t) = normalizeLine line ++ t := by
  have hprefix : Text.trimEnd (beforeComment u) <+: u :=
    (Text.trimEnd_isPrefix _).trans (beforeComment_isPrefix u)
  have hdrop : (u ++ t).drop (Text.trimEnd (beforeComment u)).length =
      u.drop (Text.trimEnd (beforeComment u)).length ++ t :=
    List.drop_append_of_le_length hprefix.length_le
  by_cases hvalue : Text.trimEnd (beforeComment u) = []
  · simp [normalizeLine, span?, h, h', beforeComment_append_isComment u ht, hvalue]
  · simp [normalizeLine, span?, h, h', beforeComment_append_isComment u ht, hvalue, hdrop]

/-- A line with a key has no value to look at only if it is quoted or a comment from the start, which
it still is with a text behind it. -/
theorem splitHead?_append_eq_none (hkey : [':', ' '] <:+: line) (h : splitHead? line = none)
    (t : List Char) : splitHead? (line ++ t) = none := by
  rcases hsplit : splitMarkers true line with ⟨markers, s⟩
  obtain ⟨rfl, hmarkers, hs⟩ := splitMarkers_eq_iff.1 hsplit
  have hcolon : [':', ' '] <:+: s := infix_of_notMem (hmarkers.notMem (by decide)) hkey
  obtain ⟨parts, hcut⟩ := Option.ne_none_iff_exists'.1 fun hnone =>
    not_infix_of_splitKey? hnone hcolon
  have hquoted : startsQuotedOrComment s = true := by
    by_contra hplain
    simp [splitHead?, hsplit, hplain, hcut] at h
  have hne : s ≠ [] := by
    rintro rfl
    simp at hcolon
  have hdash : s ≠ ['-'] := by
    rintro rfl
    simp [startsQuotedOrComment] at hquoted
  rw [List.append_assoc]
  exact splitHead?_eq_none hmarkers (hs.append hne hdash t)
    ((startsQuotedOrComment_append hne t).trans hquoted)

/-- A line with a key is replaced as it is without the comment behind it. -/
theorem normalizeLine_append_of_key (hkey : [':', ' '] <:+: line) :
    normalizeLine (line ++ ' ' :: '#' :: x) = normalizeLine line ++ ' ' :: '#' :: x := by
  cases hentry : splitHead? line with
  | none =>
    rw [normalizeLine_eq_self_of_none hentry,
      normalizeLine_eq_self_of_none (splitHead?_append_eq_none hkey hentry _)]
  | some parts =>
    obtain ⟨before, u⟩ := parts
    obtain ⟨rfl, hhead⟩ := splitHead?_eq_some_iff.1 hentry
    cases hhead with
    | item hmarkers _ _ _ hnone =>
      exact absurd (infix_of_notMem (hmarkers.notMem (by decide)) hkey) hnone
    | @entry markers key spaces _ hmarkers hrest hplain hfirst hspaces hvalue =>
      have hne : key ++ ':' :: ' ' :: (spaces ++ u) ≠ [] := by simp
      have hdash : key ++ ':' :: ' ' :: (spaces ++ u) ≠ ['-'] := by
        intro heq
        have hlength := congrArg List.length heq
        simp at hlength
        omega
      have hrest' := hrest.append hne hdash (' ' :: '#' :: x)
      have hplain' := (startsQuotedOrComment_append hne (' ' :: '#' :: x)).trans hplain
      cases u with
      | nil =>
        -- without a value the comment comes behind the spaces, where it starts like one
        have hspaces' : ∀ c ∈ spaces ++ [' '], c = ' ' :=
          List.forall_mem_append.2 ⟨hspaces, List.forall_mem_singleton.2 rfl⟩
        have hhead' : IsHead (markers ++ (key ++ ':' :: ' ' :: (spaces ++ [' ']))) ('#' :: x) :=
          .entry hmarkers (by simpa using hrest') (by simpa using hplain') hfirst hspaces' (by simp)
        rw [normalizeLine_eq_self_of_head hentry (by simp),
          normalizeLine_eq_self_of_head (splitHead?_eq_some_iff.2 ⟨by simp, hhead'⟩) (by simp)]
      | cons c u =>
        have hhead' : IsHead (markers ++ (key ++ ':' :: ' ' :: spaces)) (c :: u ++ ' ' :: '#' :: x) :=
          .entry hmarkers (by simpa using hrest') (by simpa using hplain') hfirst hspaces hvalue
        exact normalizeLine_append_of_splitHead? hentry
          (splitHead?_eq_some_iff.2 ⟨by simp, hhead'⟩) (.inr (List.prefix_append [' ', '#'] x))

/-- An item of a block sequence is replaced as it is without the comment behind it, if the comment
has no colon before a space. -/
theorem normalizeLine_append_of_item (hmarkers : IsMarkers markers) (hdash : '-' ∈ markers)
    (hv : NoMarker v) (hcolon : ':' ∉ v) (hkey : ¬ [':', ' '] <:+: x) :
    normalizeLine (markers ++ v ++ ' ' :: '#' :: x) =
      normalizeLine (markers ++ v) ++ ' ' :: '#' :: x := by
  by_cases hshort : v = [] ∨ v = ['-']
  · -- the space before the comment belongs to the markers
    have hmarkers' : IsMarkers (markers ++ (v ++ [' '])) := by
      refine hmarkers.append ?_
      rcases hshort with rfl | rfl
      · exact .space .nil
      · exact .marker .nil
    have hnone : splitHead? (markers ++ v ++ ' ' :: '#' :: x) = none := by
      have hcomment : NoMarker ('#' :: x) := ⟨by simp, by simp⟩
      simpa using splitHead?_eq_none hmarkers' hcomment rfl
    have hentry : splitHead? (markers ++ v) = some (markers, v) := by
      refine splitHead?_eq_some_iff.2 ⟨rfl, .item hmarkers hdash hv ?_ ?_⟩ <;>
        rcases hshort with rfl | rfl <;> decide
    rw [normalizeLine_eq_self_of_none hnone, normalizeLine_eq_self_of_head hentry]
    rcases hshort with rfl | rfl <;> simp
  · rw [not_or] at hshort
    have hv' := hv.append hshort.1 hshort.2 (' ' :: '#' :: x)
    have hquoted' := startsQuotedOrComment_append hshort.1 (' ' :: '#' :: x)
    cases hquoted : startsQuotedOrComment v with
    | true =>
      rw [normalizeLine_eq_self_of_none (splitHead?_eq_none hmarkers hv hquoted),
        List.append_assoc,
        normalizeLine_eq_self_of_none (splitHead?_eq_none hmarkers hv' (hquoted'.trans hquoted))]
    | false =>
      have hnone : ¬ [':', ' '] <:+: v := fun hin => hcolon (hin.subset (by simp))
      have hnone' : ¬ [':', ' '] <:+: v ++ ' ' :: '#' :: x := fun hin =>
        hkey (infix_of_notMem (s := [' ', '#']) (by decide) (infix_of_notMem hcolon hin))
      have hhead : IsHead markers v := .item hmarkers hdash hv hquoted hnone
      have hhead' : IsHead markers (v ++ ' ' :: '#' :: x) :=
        .item hmarkers hdash hv' (hquoted'.trans hquoted) hnone'
      exact normalizeLine_append_of_splitHead? (splitHead?_eq_some_iff.2 ⟨rfl, hhead⟩)
        (splitHead?_eq_some_iff.2 ⟨List.append_assoc .., hhead'⟩)
        (.inr (List.prefix_append [' ', '#'] x))

/-! ## Comments with a colon before a space -/

/-- On a line without a colon nothing before such a comment is replaced. -/
theorem exists_normalizeLine_append (hcolon : ':' ∉ line) (hkey : [':', ' '] <:+: x) :
    ∃ y, normalizeLine (line ++ ' ' :: '#' :: x) = line ++ ' ' :: '#' :: y := by
  suffices h : ∃ y, normalizeLine (line ++ [' ', '#'] ++ x) = line ++ [' ', '#'] ++ y by
    simpa using h
  cases hspan : span? (line ++ [' ', '#'] ++ x) with
  | none => exact ⟨x, by rw [normalizeLine, hspan]⟩
  | some span =>
    obtain ⟨before, value, after⟩ := span
    have hplace := span?_iff_place.1 hspan
    rw [normalizeLine_of_place hplace]
    obtain ⟨htext, hhead, -⟩ := hplace
    cases hhead with
    | item hmarkers _ _ _ hnone =>
      have hin : [':', ' '] <:+: before ++ (value ++ after) := by
        rw [← htext]
        exact hkey.trans (List.suffix_append _ x).isInfix
      exact absurd (infix_of_notMem (hmarkers.notMem (by decide)) hin) hnone
    | @entry markers key spaces _ _ _ _ _ _ _ =>
      -- the key in front of the value ends in the comment
      have hopening : ':' ∉ line ++ [' ', '#'] := by simpa using hcolon
      have hcut : markers ++ key ++ ':' :: (' ' :: (spaces ++ (value ++ after))) =
          line ++ [' ', '#'] ++ x := by
        simpa using htext.symm
      obtain ⟨y, hy, -⟩ := Text.exists_eq_append_of_notMem hopening hcut
      refine ⟨y ++ ':' :: ' ' :: (spaces ++ (normalizeValue value ++ after)), ?_⟩
      rw [← List.append_assoc _ y, ← hy]
      simp

/-- An item with such a comment is replaced as it is without exactly if neither of the two lines has
a word in its value. -/
theorem normalizeLine_append_eq_iff (hcolon : ':' ∉ line) (hsign : '#' ∉ line)
    (hkey : [':', ' '] <:+: x) :
    normalizeLine (line ++ ' ' :: '#' :: x) = normalizeLine line ++ ' ' :: '#' :: x ↔
      ¬ ShowsWord line ∧ ¬ ShowsWord (line ++ ' ' :: '#' :: x) := by
  rw [← normalizeLine_eq_self_iff, ← normalizeLine_eq_self_iff]
  constructor
  · intro h
    obtain ⟨y, hy⟩ := exists_normalizeLine_append hcolon hkey
    -- the first `#` is that of the comment, before and after words are replaced
    have hbefore : '#' ∉ line ++ [' '] := by simpa using hsign
    have hafter : '#' ∉ normalizeLine line ++ [' '] := by
      simpa using fun hmem => hsign (((reworded_normalizeLine line).mem_iff rfl).1 hmem)
    have hcut : normalizeLine line ++ [' '] ++ '#' :: x = line ++ [' '] ++ '#' :: y := by
      simpa using h.symm.trans hy
    have hsame : normalizeLine line = line :=
      List.append_cancel_right (Text.eq_of_append_cons_eq hafter hbefore hcut)
    exact ⟨hsame, by rw [h, hsame]⟩
  · rintro ⟨h, h'⟩
    rw [h, h']

/-! ## Texts of one line -/

section

variable {comment : List Char}

/-- A comment behind a space, up to the end of its line. -/
def commentText (comment : List Char) : List Char :=
  ' ' :: '#' :: ' ' :: (comment ++ ['\n'])

theorem infix_comment_iff : [':', ' '] <:+: ' ' :: (comment ++ ['\n']) ↔ [':', ' '] <:+: comment := by
  constructor
  · intro hin
    by_contra hnone
    exact not_infix_append_newline hnone (by decide) (infix_of_notMem (s := [' ']) (by decide) hin)
  · exact fun hin => hin.trans ⟨[' '], ['\n'], by simp⟩

/-- A text of one line with a comment is looked at as a line, and so is the text without it. -/
theorem normalize_append_eq_iff (hne : line ≠ []) (hline : '\n' ∉ line)
    (hcomment : '\n' ∉ comment) :
    normalize (line ++ commentText comment) = normalize line ++ commentText comment ↔
      normalizeLine (line ++ commentText comment) = normalizeLine line ++ commentText comment := by
  have hbare : normalize line = normalizeLine line := by
    rw [normalize, Text.lines_of_notMem hne hline]
    exact List.flatten_singleton
  have hcommented : Text.IsLine (line ++ commentText comment) :=
    ⟨line ++ ' ' :: '#' :: ' ' :: comment, by simp [hline, hcomment], by simp [commentText]⟩
  rw [hbare, normalize_of_isLine hcommented]

theorem normalize_entry_commentText {key value : List Char} (hcomment : '\n' ∉ comment)
    (hline : '\n' ∉ key ++ value) :
    normalize (key ++ ':' :: ' ' :: value ++ commentText comment) =
      normalize (key ++ ':' :: ' ' :: value) ++ commentText comment := by
  rw [normalize_append_eq_iff (by simp) (by simpa using hline) hcomment]
  exact normalizeLine_append_of_key ⟨key, value, by simp⟩

theorem normalize_item_commentText_iff {value : List Char} (hcomment : '\n' ∉ comment)
    (hmarkers : IsMarkers markers) (hdash : '-' ∈ markers)
    (hvalue : ∀ c ∈ value, c ∉ [':', '#', '\n']) :
    normalize (markers ++ value ++ commentText comment) =
        normalize (markers ++ value) ++ commentText comment ↔
      ¬ [':', ' '] <:+: comment ∨
        ¬ ShowsWord (markers ++ value) ∧ ¬ ShowsWord (markers ++ value ++ commentText comment) := by
  have hnone : ∀ c ∈ [':', '#', '\n'], c ∉ value := fun c hc hmem => hvalue c hmem hc
  have hother : ∀ c ∈ [':', '#', '\n'], c ∉ [' ', '-'] := by simp
  have hline : ∀ c ∈ [':', '#', '\n'], c ∉ markers ++ value := fun c hc hmem =>
    (List.mem_append.1 hmem).elim (hmarkers.notMem (hother c hc)) (hnone c hc)
  rw [normalize_append_eq_iff (List.ne_nil_of_mem (List.mem_append_left value hdash))
    (hline '\n' (by decide)) hcomment]
  by_cases hkey : [':', ' '] <:+: comment
  · simp only [hkey, not_true_eq_false, false_or]
    exact normalizeLine_append_eq_iff (hline ':' (by decide)) (hline '#' (by decide))
      (infix_comment_iff.2 hkey)
  · -- the value may start with markers of its own
    rcases hsplit : splitMarkers true value with ⟨inner, rest⟩
    obtain ⟨rfl, hinner, hrest⟩ := splitMarkers_eq_iff.1 hsplit
    have hcolon : ':' ∉ rest := fun hmem =>
      hnone ':' (by decide) (List.mem_append_right inner hmem)
    have hsame := normalizeLine_append_of_item (hmarkers.append hinner)
      (List.mem_append_left inner hdash) hrest hcolon fun hin => hkey (infix_comment_iff.1 hin)
    rw [List.append_assoc markers] at hsame
    exact iff_of_true hsame (.inl hkey)

theorem showsWord_item {w : List Char} (hmarkers : IsMarkers markers) (hdash : '-' ∈ markers)
    (hword : word? w ≠ none) : ShowsWord (markers ++ w) := by
  obtain ⟨b, hb⟩ := word?_ne_none_iff.1 hword
  obtain ⟨hne, halpha⟩ := isAlpha_of_mem_spellings hb
  have hbare := isBare_of_isWordChar hne fun c hc => isWordChar_of_isAlpha (halpha c hc)
  have hno : NoMarker w := ⟨head_ne_space fun c hc => (hbare.head c hc).1, hbare.noMarker⟩
  have hplain := startsQuotedOrComment_eq_false fun c hc => (hbare.head c hc).2
  have hends : EndsBefore w [] :=
    ⟨hne, hbare.getLast, [], [], rfl, by simp, .inl rfl, by simpa using hbare.noComment⟩
  have hhead : IsHead markers (w ++ []) := by
    rw [List.append_nil]
    exact .item hmarkers hdash hno hplain hbare.noKey
  exact ⟨markers, w, [], ⟨by simp, hhead, hends⟩, .inl hword⟩

/-- An item that is a word is replaced as it is without its comment exactly if that has no colon
before a space. -/
theorem normalize_item_word_iff {w : List Char} (hcomment : '\n' ∉ comment)
    (hmarkers : IsMarkers markers) (hdash : '-' ∈ markers) (hword : word? w ≠ none) :
    normalize (markers ++ w ++ commentText comment) =
        normalize (markers ++ w) ++ commentText comment ↔ ¬ [':', ' '] <:+: comment := by
  have hplain : ∀ c ∈ w, c ∉ [':', '#', '\n'] := by
    obtain ⟨b, hb⟩ := word?_ne_none_iff.1 hword
    intro c hc hmem
    have halpha := (isAlpha_of_mem_spellings hb).2 c hc
    simp only [List.mem_cons, List.not_mem_nil, or_false] at hmem
    rcases hmem with rfl | rfl | rfl <;> exact absurd halpha (by decide)
  rw [normalize_item_commentText_iff hcomment hmarkers hdash hplain]
  simp [showsWord_item hmarkers hdash hword]

/-- A line with a key is replaced as it is without its comment. An item is if and only if its comment
has no colon before a space, or neither of the two lines has a word in its value. -/
theorem normalize_append_commentText (hcomment : '\n' ∉ comment) :
    (∀ key value, '\n' ∉ key ++ value →
      normalize (key ++ ':' :: ' ' :: value ++ commentText comment) =
        normalize (key ++ ':' :: ' ' :: value) ++ commentText comment) ∧
    ∀ markers value, IsMarkers markers → '-' ∈ markers → (∀ c ∈ value, c ∉ [':', '#', '\n']) →
      (normalize (markers ++ value ++ commentText comment) =
          normalize (markers ++ value) ++ commentText comment ↔
        ¬ [':', ' '] <:+: comment ∨
          ¬ ShowsWord (markers ++ value) ∧
            ¬ ShowsWord (markers ++ value ++ commentText comment)) :=
  ⟨fun _ _ hline => normalize_entry_commentText hcomment hline,
    fun _ _ hmarkers hdash hvalue =>
      normalize_item_commentText_iff hcomment hmarkers hdash hvalue⟩

end

/-- An item with a comment that says what it was: the word in the comment is replaced instead. -/
theorem normalize_commentedItem :
    normalize ("- yes".toList ++ commentText "was: no".toList) = "- yes # was: false\n".toList ∧
      normalize ("- yes".toList ++ commentText "was: no".toList) ≠
        normalize "- yes".toList ++ commentText "was: no".toList := by
  decide

/-- Without the colon the item is replaced, as is the value after a key. -/
theorem normalize_append_commentText_wasNo :
    normalize ("force".toList ++ ':' :: ' ' :: "yes".toList ++ commentText "was no".toList) =
        normalize ("force".toList ++ ':' :: ' ' :: "yes".toList) ++ commentText "was no".toList ∧
      normalize (['-', ' '] ++ "yes".toList ++ commentText "was no".toList) =
        normalize (['-', ' '] ++ "yes".toList) ++ commentText "was no".toList := by
  have hcomment : '\n' ∉ "was no".toList := by decide
  obtain ⟨hentry, hitem⟩ := normalize_append_commentText hcomment
  exact ⟨hentry _ _ (by decide),
    (hitem ['-', ' '] _ (.marker .nil) (by decide) (by simp)).2 (.inl (by decide))⟩

end PluginDataset.BooleanWords
