import Mathlib.Data.List.Infix
import PluginDataset.BooleanWords

/-!
# The value of a line

A line is cut in three around its value and put together again around what replaces the value. The
value of `key: value` or `- value` is found whole if it is bare: then nothing inside it looks like
a marker, a key, a comment or the start of a quoted scalar. A quoted value may be cut short at what
looks like a comment, and is left alone all the same.

## Main definitions

* `BooleanWords.IsBare` describes the values that are found whole.
* `BooleanWords.replaced` is a text in place of a boolean word.

## Main results

* `BooleanWords.text_of_span?`: the three parts of a line are the line.
* `BooleanWords.span?_entryLine`, `BooleanWords.span?_itemLine`: a bare value is found whole.
* `BooleanWords.normalizeLine_quotedEntry`, `BooleanWords.normalizeLine_quotedItem`: quoted values
  are left alone.
* `BooleanWords.normalizeItems_wordsText`: in brackets, each word is replaced on its own.
-/

namespace PluginDataset.BooleanWords

variable {s key value line : List Char} {indent : Nat}

/-! ## Cuts lose nothing -/

theorem splitMarkers_append (spaces : Bool) (s : List Char) :
    (splitMarkers spaces s).1 ++ (splitMarkers spaces s).2 = s := by
  fun_induction splitMarkers spaces s with
  | case1 rest ih => simpa [prepend] using ih
  | case2 _ rest ih => simpa [prepend] using ih
  | case3 => rfl

theorem append_of_splitKey? {rest : List Char} (h : splitKey? s = some (key, rest)) :
    key ++ rest = s := by
  fun_induction splitKey? s generalizing key with
  | case1 => simp at h
  | case2 =>
    obtain ⟨rfl, rfl⟩ := Prod.mk.inj (Option.some.inj h)
    rfl
  | case3 c cs _ ih =>
    obtain ⟨⟨key', rest'⟩, hcut, heq⟩ := Option.map_eq_some_iff.1 h
    obtain ⟨rfl, rfl⟩ := Prod.mk.inj heq
    exact congrArg (c :: ·) (ih hcut)

theorem append_of_splitHead? {before rest : List Char}
    (h : splitHead? line = some (before, rest)) : before ++ rest = line := by
  have hline := splitMarkers_append true line
  rw [splitHead?] at h
  dsimp only at h
  split at h
  · simp at h
  · split at h
    · next hkey =>
      obtain ⟨rfl, rfl⟩ := Prod.mk.inj (Option.some.inj h)
      rw [List.append_assoc, List.takeWhile_append_dropWhile, List.append_assoc,
        append_of_splitKey? hkey, hline]
    · split at h
      · obtain ⟨rfl, rfl⟩ := Prod.mk.inj (Option.some.inj h)
        exact hline
      · simp at h

/-- A part of one kind is cut off before what is of another kind. -/
theorem cut_append {p : Char → Bool} {t : List Char} (hs : ∀ c ∈ s, p c = true)
    (ht : ∀ c ∈ t.head?, p c = false) :
    (s ++ t).takeWhile p = s ∧ (s ++ t).dropWhile p = t := by
  have hcut : t.takeWhile p = [] ∧ t.dropWhile p = t := by
    cases t with
    | nil => exact ⟨rfl, rfl⟩
    | cons c t => simp [ht c rfl]
  rw [List.takeWhile_append_of_pos hs, List.dropWhile_append_of_pos hs, hcut.1, hcut.2,
    List.append_nil]
  exact ⟨rfl, rfl⟩

theorem beforeComment_isPrefix (s : List Char) : beforeComment s <+: s := by
  fun_induction beforeComment s with
  | case1 => exact List.prefix_rfl
  | case2 => exact List.nil_prefix
  | case3 c rest _ ih => exact List.cons_prefix_cons.2 ⟨rfl, ih⟩

/-- The three parts of a line are the line. -/
theorem text_of_span? {span : Span} (h : span? line = some span) :
    span.before ++ span.value ++ span.after = line := by
  rw [span?] at h
  split at h
  · simp at h
  · next before rest hentry =>
    dsimp only at h
    split at h
    · simp at h
    · obtain rfl := Option.some.inj h
      have hprefix : Text.trimEnd (beforeComment rest) <+: rest :=
        (Text.trimEnd_isPrefix _).trans (beforeComment_isPrefix rest)
      rw [← append_of_splitHead? hentry, List.append_assoc]
      exact congrArg (before ++ ·) (List.prefix_append_drop hprefix).symm

/-! ## Where the value starts -/

/-- Letters, digits and underscores. Beyond ASCII every character that is no blank may be one. -/
def isWordChar (c : Char) : Bool :=
  c.isAlphanum || c == '_' || (0x80 ≤ c.toNat && !Text.isBlank c)

theorem notMem_of_isWordChar (h : ∀ c ∈ s, isWordChar c = true) {c : Char}
    (hc : isWordChar c = false) : c ∉ s := by
  intro hmem
  rw [h c hmem] at hc
  exact absurd hc (by decide)

theorem isBlank_of_isWordChar {c : Char} (h : isWordChar c = true) : Text.isBlank c = false := by
  simp only [isWordChar, Bool.or_eq_true, Bool.and_eq_true, beq_iff_eq, Bool.not_eq_true'] at h
  rcases h with (h | rfl) | h
  · have hrange : 0x30 ≤ c.toNat ∧ c.toNat ≤ 0x7A := by
      have hranges : c.isAlphanum = (decide (c.val ≥ 65 ∧ c.val ≤ 90) ||
        (c.val ≥ 97 && c.val ≤ 122) || (c.val ≥ 48 && c.val ≤ 57)) := rfl
      simp [hranges, UInt32.le_iff_toNat_le] at h
      omega
    simp [Text.isBlank]
    omega
  · rfl
  · exact h.2

theorem isQuote_iff {c : Char} : isQuote c = true ↔ c = '\'' ∨ c = '"' := by
  simp only [isQuote, Bool.or_eq_true, beq_iff_eq]

theorem isQuote_double : isQuote '"' = true := rfl

theorem ne_of_isQuote {q c : Char} (hq : isQuote q = true) (hc : isQuote c = false) : q ≠ c := by
  rintro rfl
  exact absurd hq (Bool.eq_false_iff.1 hc)

theorem isQuote_of_isWordChar {c : Char} (h : isWordChar c = true) : isQuote c = false := by
  by_contra hquote
  rw [Bool.not_eq_false, isQuote_iff] at hquote
  rcases hquote with rfl | rfl <;> exact absurd h (by decide)

/-- A line `key: value`. -/
def entryLine (indent : Nat) (key value : List Char) : List Char :=
  List.replicate indent ' ' ++ (key ++ ':' :: ' ' :: (value ++ ['\n']))

/-- A line `- value`. -/
def itemLine (indent : Nat) (value : List Char) : List Char :=
  List.replicate indent ' ' ++ ('-' :: ' ' :: (value ++ ['\n']))

/-- A line `key:` that has its value on the lines after it. -/
def headLine (indent : Nat) (key : List Char) : List Char :=
  List.replicate indent ' ' ++ (key ++ [':', '\n'])

theorem splitMarkers_replicate (n : Nat) (s : List Char) :
    splitMarkers true (List.replicate n ' ' ++ s) =
      prepend (List.replicate n ' ') (splitMarkers true s) := by
  induction n with
  | zero => rfl
  | succ n ih => rw [List.replicate_succ, List.cons_append, splitMarkers, ih]; rfl

theorem splitMarkers_eq_self {spaces : Bool} (hspace : ∀ c ∈ s.head?, c ≠ ' ')
    (hmarker : ¬ ['-', ' '] <+: s) : splitMarkers spaces s = ([], s) := by
  unfold splitMarkers
  split
  · exact absurd rfl (hspace ' ' rfl)
  · exact absurd (List.prefix_append ['-', ' '] _) hmarker
  · rfl

theorem splitKey?_append (hkey : ':' ∉ key) (s : List Char) :
    splitKey? (key ++ ':' :: ' ' :: s) = some (key ++ [':', ' '], s) := by
  induction key with
  | nil => rfl
  | cons c key ih =>
    rw [List.mem_cons, not_or] at hkey
    have hc : c ≠ ':' := Ne.symm hkey.1
    simp [splitKey?, hc, ih hkey.2, prepend]

theorem splitKey?_eq_none (h : ¬ [':', ' '] <:+: s) : splitKey? s = none := by
  fun_induction splitKey? s with
  | case1 => rfl
  | case2 rest => exact absurd (List.prefix_append [':', ' '] rest).isInfix h
  | case3 c rest _ ih =>
    rw [ih fun hrest => h (List.infix_cons_iff.2 (.inr hrest))]
    rfl

theorem beforeComment_eq_self (h : ¬ [' ', '#'] <:+: s) : beforeComment s = s := by
  fun_induction beforeComment s with
  | case1 => rfl
  | case2 rest => exact absurd (List.prefix_append [' ', '#'] rest).isInfix h
  | case3 c rest _ ih => rw [ih fun hrest => h (List.infix_cons_iff.2 (.inr hrest))]

/-- A text that does not start with two characters, told by its first one and the text after it. -/
theorem not_pair_isPrefix {a b c : Char} (h : ∀ t, c = a → s = b :: t → False) :
    ¬ [a, b] <+: c :: s := by
  rintro ⟨t, ht⟩
  obtain ⟨rfl, rfl⟩ := List.cons.inj ht
  exact h t rfl rfl

/-- Two characters side by side are not made by a text that does not start with the second one. -/
theorem not_infix_append {a b : Char} {t : List Char} (hs : ¬ [a, b] <:+: s)
    (ht : ¬ [a, b] <:+: t) (hb : ∀ c ∈ t.head?, c ≠ b) : ¬ [a, b] <:+: s ++ t := by
  rw [List.infix_append_iff_ne_nil]
  rintro (hin | hin | ⟨u, v, hu, hv, heq, _, hprefix⟩)
  · exact hs hin
  · exact ht hin
  · obtain ⟨c, u, rfl⟩ := List.exists_cons_of_ne_nil hu
    obtain ⟨d, v, rfl⟩ := List.exists_cons_of_ne_nil hv
    cases u with
    | nil =>
      obtain ⟨-, rfl, -⟩ : a = c ∧ b = d ∧ v = [] := by simpa using heq
      obtain ⟨rest, rfl⟩ := hprefix
      exact hb b rfl rfl
    | cons e u => simp at heq

/-- What is looked for inside a value is not made by the line feed after it. -/
theorem not_infix_append_newline {a b : Char} (h : ¬ [a, b] <:+: s) (hb : b ≠ '\n') :
    ¬ [a, b] <:+: s ++ ['\n'] := by
  refine not_infix_append h (fun hin => ?_) (by simpa using hb.symm)
  have hlength := hin.length_le
  simp at hlength

theorem startsQuotedOrComment_eq_false (h : ∀ c ∈ s.head?, c ≠ '#' ∧ isQuote c = false) :
    startsQuotedOrComment s = false := by
  cases s with
  | nil => rfl
  | cons c s =>
    obtain ⟨hcomment, hquote⟩ := h c rfl
    rw [isQuote] at hquote
    simp [startsQuotedOrComment, hcomment, hquote, Bool.or_assoc]

/-- A key is neither taken for markers, nor for a comment or a quoted scalar. -/
theorem start_key (hkey : ∀ c ∈ key, isWordChar c = true) (rest : List Char) :
    ∀ c ∈ (key ++ ':' :: rest).head?,
      (Text.isBlank c = false ∧ c ≠ '-') ∧ c ≠ '#' ∧ isQuote c = false := by
  intro c hc
  cases key with
  | nil =>
    obtain rfl := Option.some.inj hc
    decide
  | cons d key =>
    obtain rfl := Option.some.inj hc
    have hd : isWordChar d = true := hkey d List.mem_cons_self
    have hne : ∀ {e : Char}, isWordChar e = false → d ≠ e := by
      rintro e he rfl
      simp [hd] at he
    exact ⟨⟨isBlank_of_isWordChar hd, hne (by decide)⟩, hne (by decide), isQuote_of_isWordChar hd⟩

theorem head_ne_space (h : ∀ c ∈ s.head?, Text.isBlank c = false) : ∀ c ∈ s.head?, c ≠ ' ' := by
  rintro c hc rfl
  exact absurd (h ' ' hc) (by decide)

theorem not_marker_isPrefix_key (hkey : ∀ c ∈ key, isWordChar c = true) (rest : List Char) :
    ¬ ['-', ' '] <+: key ++ ':' :: rest := by
  rintro ⟨t, ht⟩
  have hdash : '-' ∈ (key ++ ':' :: rest).head? := by rw [← ht]; rfl
  exact (start_key hkey rest '-' hdash).1.2 rfl

theorem splitMarkers_key (hkey : ∀ c ∈ key, isWordChar c = true) (rest : List Char) :
    splitMarkers true (List.replicate indent ' ' ++ (key ++ ':' :: rest)) =
      (List.replicate indent ' ', key ++ ':' :: rest) := by
  have hspace := head_ne_space fun c hc => (start_key hkey rest c hc).1.1
  rw [splitMarkers_replicate, splitMarkers_eq_self hspace (not_marker_isPrefix_key hkey rest),
    prepend, List.append_nil]

theorem splitHead?_entryLine (hkey : ∀ c ∈ key, isWordChar c = true)
    (hvalue : ∀ c ∈ value.head?, c ≠ ' ') :
    splitHead? (entryLine indent key value) =
      some (List.replicate indent ' ' ++ (key ++ [':', ' ']), value ++ ['\n']) := by
  have hstart := startsQuotedOrComment_eq_false fun c hc =>
    (start_key hkey (' ' :: (value ++ ['\n'])) c hc).2
  have hcolon : ':' ∉ key := notMem_of_isWordChar hkey (by decide)
  have hspaces : (value ++ ['\n']).takeWhile (· == ' ') = [] ∧
      (value ++ ['\n']).dropWhile (· == ' ') = value ++ ['\n'] := by
    cases value with
    | nil => exact ⟨rfl, rfl⟩
    | cons c value => simp [hvalue c rfl]
  simp only [splitHead?, entryLine, splitMarkers_key hkey, hstart, splitKey?_append hcolon,
    hspaces, Bool.false_eq_true, if_false, List.append_nil]

theorem splitMarkers_item (hspace : ∀ c ∈ s.head?, c ≠ ' ') (hmarker : ¬ ['-', ' '] <+: s) :
    splitMarkers true (List.replicate indent ' ' ++ '-' :: ' ' :: s) =
      (List.replicate indent ' ' ++ ['-', ' '], s) := by
  rw [splitMarkers_replicate, splitMarkers, splitMarkers_eq_self hspace hmarker]
  rfl

theorem splitHead?_headLine (hkey : ∀ c ∈ key, isWordChar c = true) :
    splitHead? (headLine indent key) = none := by
  have hstart := startsQuotedOrComment_eq_false fun c hc => (start_key hkey ['\n'] c hc).2
  have hspace : ' ' ∉ key ++ [':', '\n'] := by
    simpa using notMem_of_isWordChar hkey (by decide)
  have hcut : splitKey? (key ++ [':', '\n']) = none :=
    splitKey?_eq_none fun hin => hspace (hin.subset (by simp))
  simp only [splitHead?, headLine, splitMarkers_key hkey, hstart, hcut, Bool.false_eq_true,
    if_false]
  simp

/-! ## Bare values -/

/-- A value that is found whole: it stands on one line, without blanks around it, and nothing
inside it is taken for a marker, a key, a comment or the start of a quoted scalar. -/
structure IsBare (value : List Char) : Prop where
  ne_nil : value ≠ []
  oneLine : '\n' ∉ value
  head : ∀ c ∈ value.head?, Text.isBlank c = false ∧ c ≠ '#' ∧ isQuote c = false
  getLast : ∀ c ∈ value.getLast?, Text.isBlank c = false
  noMarker : ¬ ['-', ' '] <+: value
  noKey : ¬ [':', ' '] <:+: value
  noComment : ¬ [' ', '#'] <:+: value

/-- A word is bare. -/
theorem isBare_of_isWordChar (hne : s ≠ []) (h : ∀ c ∈ s, isWordChar c = true) : IsBare s where
  ne_nil := hne
  oneLine := notMem_of_isWordChar h (by decide)
  head := by
    intro c hc
    have hc := h c (List.mem_of_mem_head? hc)
    refine ⟨isBlank_of_isWordChar hc, ?_, isQuote_of_isWordChar hc⟩
    rintro rfl
    exact absurd hc (by decide)
  getLast := fun c hc => isBlank_of_isWordChar (h c (List.mem_of_mem_getLast? hc))
  noMarker := fun hstart =>
    notMem_of_isWordChar h (c := '-') (by decide) (hstart.subset (by simp))
  noKey := fun hin => notMem_of_isWordChar h (c := ':') (by decide) (hin.subset (by simp))
  noComment := fun hin => notMem_of_isWordChar h (c := '#') (by decide) (hin.subset (by simp))

theorem IsBare.head?_append (h : IsBare value) (s : List Char) :
    (value ++ s).head? = value.head? := by
  cases value with
  | nil => exact absurd rfl h.ne_nil
  | cons c value => rfl

/-- A bare value is found whole behind what stands before it. -/
theorem IsBare.span? (h : IsBare value) {before : List Char}
    (hentry : splitHead? line = some (before, value ++ ['\n'])) :
    span? line = some ⟨before, value, ['\n']⟩ := by
  have hcomment : beforeComment (value ++ ['\n']) = value ++ ['\n'] :=
    beforeComment_eq_self (not_infix_append_newline h.noComment (by decide))
  have htrim : Text.trimEnd (value ++ ['\n']) = value :=
    Text.trimEnd_append h.getLast (List.forall_mem_singleton.2 rfl)
  simp only [BooleanWords.span?, hentry, hcomment, htrim, h.ne_nil, if_false, List.drop_left]

theorem span?_entryLine (hkey : ∀ c ∈ key, isWordChar c = true) (h : IsBare value) :
    span? (entryLine indent key value) =
      some ⟨List.replicate indent ' ' ++ (key ++ [':', ' ']), value, ['\n']⟩ :=
  h.span? (splitHead?_entryLine hkey (head_ne_space fun c hc => (h.head c hc).1))

theorem span?_itemLine (h : IsBare value) :
    span? (itemLine indent value) =
      some ⟨List.replicate indent ' ' ++ ['-', ' '], value, ['\n']⟩ := by
  have hspace : ∀ c ∈ (value ++ ['\n']).head?, c ≠ ' ' := by
    rw [h.head?_append]
    exact head_ne_space fun c hc => (h.head c hc).1
  have hmarker : ¬ ['-', ' '] <+: value ++ ['\n'] := by
    rw [List.prefix_concat_iff]
    rintro (heq | hprefix)
    · have := congrArg List.getLast? heq
      simp at this
    · exact h.noMarker hprefix
  have hstart : startsQuotedOrComment (value ++ ['\n']) = false := by
    refine startsQuotedOrComment_eq_false fun c hc => (h.head c ?_).2
    rwa [h.head?_append] at hc
  have hcut : splitKey? (value ++ ['\n']) = none :=
    splitKey?_eq_none (not_infix_append_newline h.noKey (by decide))
  refine h.span? ?_
  simp [splitHead?, itemLine, splitMarkers_item hspace hmarker, hstart, hcut]

/-! ## Quoted values -/

theorem isBlank_of_isQuote {c : Char} (h : isQuote c = true) : Text.isBlank c = false := by
  rcases isQuote_iff.1 h with rfl | rfl <;> rfl

/-- The value after a key may end before its closing quote, but it starts with the opening one. -/
theorem span?_quotedEntry (indent : Nat) (hkey : ∀ c ∈ key, isWordChar c = true) {q : Char}
    (hq : isQuote q = true) (s : List Char) :
    ∃ span, span? (entryLine indent key (q :: s)) = some span ∧ span.value.head? = some q := by
  have hblank := isBlank_of_isQuote hq
  have hspace : q ≠ ' ' := ne_of_isQuote hq rfl
  have hentry : splitHead? (entryLine indent key (q :: s)) =
      some (List.replicate indent ' ' ++ (key ++ [':', ' ']), q :: s ++ ['\n']) :=
    splitHead?_entryLine hkey (by simpa using hspace)
  have hcomment : beforeComment (q :: s ++ ['\n']) = q :: beforeComment (s ++ ['\n']) := by
    rw [List.cons_append, beforeComment]
    simp [hspace]
  -- the opening quote is no blank, so that it is the first character left
  obtain ⟨t, htrim⟩ := Text.trimEnd_cons hblank (beforeComment (s ++ ['\n']))
  rw [← hcomment] at htrim
  simp only [span?, hentry, htrim]
  exact ⟨_, if_neg (List.cons_ne_nil q t), rfl⟩

/-- A quoted item of a block sequence has no value to look at. -/
theorem span?_quotedItem {q : Char} (hq : isQuote q = true) (s : List Char) :
    span? (itemLine indent (q :: s)) = none := by
  have hspace : ∀ c ∈ (q :: s ++ ['\n']).head?, c ≠ ' ' := by
    intro c hc
    obtain rfl := Option.some.inj hc
    exact ne_of_isQuote hq rfl
  have hmarker : ¬ ['-', ' '] <+: q :: s ++ ['\n'] := fun hprefix =>
    ne_of_isQuote hq rfl (List.cons_prefix_cons.1 hprefix).1.symm
  have hstart : startsQuotedOrComment (q :: s ++ ['\n']) = true := by
    rw [isQuote] at hq
    simp [startsQuotedOrComment, hq, Bool.or_assoc]
  have hentry : splitHead? (itemLine indent (q :: s)) = none := by
    simp only [splitHead?, itemLine, splitMarkers_item hspace hmarker, hstart, if_true]
  rw [span?, hentry]

/-! ## Sequences in brackets -/

/-- A text, or what stands in its place if it is a boolean word. -/
def replaced (s : List Char) : List Char :=
  match word? s with
  | some b => booleanText b
  | none => s

/-- A word becomes the name of its boolean, and any other text stays. -/
theorem replaced_cases (s : List Char) :
    (∃ b, s ∈ spellings b ∧ replaced s = booleanText b) ∨
      (∀ b, s ∉ spellings b) ∧ replaced s = s := by
  rw [replaced]
  cases hword : word? s with
  | none => exact .inr ⟨word?_eq_none_iff.1 hword, rfl⟩
  | some b => exact .inl ⟨b, word?_eq_some_iff.1 hword, rfl⟩

/-- Words are made of letters. -/
theorem isAlpha_of_mem_spellings {w : List Char} {b : Bool} (h : w ∈ spellings b) :
    w ≠ [] ∧ ∀ c ∈ w, c.isAlpha = true := by
  have hall : ∀ b, ∀ w ∈ spellings b, w ≠ [] ∧ w.all Char.isAlpha = true := by decide
  obtain ⟨hne, halpha⟩ := hall b w h
  exact ⟨hne, List.all_eq_true.1 halpha⟩

theorem word?_eq_none {c : Char} (hmem : c ∈ s) (hc : c.isAlpha = false) : word? s = none := by
  refine word?_eq_none_iff.2 fun b hb => ?_
  rw [(isAlpha_of_mem_spellings hb).2 c hmem] at hc
  simp at hc

theorem items_ne_nil (s : List Char) : items s ≠ [] := by
  cases s with
  | nil => exact List.cons_ne_nil _ _
  | cons c s =>
    rw [items]
    split
    · exact List.cons_ne_nil _ _
    · cases items s <;> exact List.cons_ne_nil _ _

/-- A character that is no comma belongs to the first item. -/
theorem exists_items_cons {c : Char} (hc : c ≠ ',') (s : List Char) :
    ∃ item rest, items s = item :: rest ∧ items (c :: s) = (c :: item) :: rest := by
  obtain ⟨item, rest, hitems⟩ := List.exists_cons_of_ne_nil (items_ne_nil s)
  exact ⟨item, rest, hitems, by rw [items, if_neg hc, hitems, consItem]⟩

/-- A comma is between the items before it and the items after it. -/
theorem items_append (s t : List Char) : items (s ++ ',' :: t) = items s ++ items t := by
  induction s with
  | nil => exact if_pos rfl
  | cons c s ih =>
    rw [List.cons_append]
    by_cases hc : c = ','
    · rw [items, if_pos hc, ih, items, if_pos hc, List.cons_append]
    · obtain ⟨item, rest, hitems, hcons⟩ := exists_items_cons hc s
      rw [items, if_neg hc, ih, hcons, hitems, List.cons_append, consItem, List.cons_append]

theorem items_of_notMem (hs : ',' ∉ s) : items s = [s] := by
  induction s with
  | nil => rfl
  | cons c s ih =>
    rw [List.mem_cons, not_or] at hs
    rw [items, if_neg (Ne.symm hs.1), ih hs.2, consItem]

/-- Items are cut where they were joined. -/
theorem items_joinItems {parts : List (List Char)} (hne : parts ≠ [])
    (h : ∀ part ∈ parts, ',' ∉ part) : items (joinItems parts) = parts := by
  induction parts with
  | nil => exact absurd rfl hne
  | cons part parts ih =>
    rw [List.forall_mem_cons] at h
    cases parts with
    | nil => rw [joinItems, List.intercalate_singleton, items_of_notMem h.1]
    | cons next parts =>
      have hrest := ih (List.cons_ne_nil next parts) h.2
      rw [joinItems, List.intercalate_cons_cons, List.append_assoc, List.singleton_append,
        items_append, items_of_notMem h.1, ← joinItems, hrest, List.singleton_append]

/-- Without quotes among the items each of them is replaced on its own. -/
theorem normalizeItemsFrom_eq_map {parts : List (List Char)}
    (h : ∀ part ∈ parts, ∀ c ∈ part, isQuote c = false) :
    normalizeItemsFrom false parts = parts.map normalizeItem := by
  induction parts with
  | nil => rfl
  | cons part parts ih =>
    rw [List.forall_mem_cons] at h
    have hcount : part.countP isQuote = 0 := List.countP_eq_zero.2 (by simpa using h.1)
    simp [normalizeItemsFrom, hcount, ih h.2]

/-- A word is replaced behind the blanks before it. -/
theorem normalizeItem_append {blanks : List Char} (hblanks : ∀ c ∈ blanks, Text.isBlank c = true)
    (hhead : ∀ c ∈ s.head?, Text.isBlank c = false)
    (hlast : ∀ c ∈ s.getLast?, Text.isBlank c = false) :
    normalizeItem (blanks ++ s) = blanks ++ replaced s := by
  obtain ⟨hleading, hrest⟩ := cut_append hblanks hhead
  have htrim : Text.trim (blanks ++ s) = s := by
    rw [Text.trim, Text.trimStart, hrest]
    exact Text.trimEnd_eq_self hlast
  rw [normalizeItem, htrim, replaced]
  cases word? s with
  | none => rfl
  | some b => simp [hleading]

/-- The text between the brackets of a sequence of words. -/
def wordsText (words : List (List Char)) : List Char :=
  [',', ' '].intercalate words

/-- A sequence of words in brackets. -/
def flowText (words : List (List Char)) : List Char :=
  '[' :: (wordsText words ++ [']'])

/-- Every item but the first has a space before it. -/
theorem wordsText_cons (w : List Char) (words : List (List Char)) :
    wordsText (w :: words) = joinItems (w :: words.map (' ' :: ·)) := by
  induction words generalizing w with
  | nil => rfl
  | cons v words ih =>
    have hcons : ' ' :: wordsText (v :: words) = joinItems ((v :: words).map (' ' :: ·)) := by
      rw [ih v, List.map_cons]
      cases words <;> rfl
    rw [wordsText, List.intercalate_cons_cons, ← wordsText, joinItems, List.map_cons,
      List.intercalate_cons_cons, ← joinItems, ← List.map_cons, ← hcons]
    simp

theorem exists_of_mem_wordsText {words : List (List Char)} {c : Char} (hc : c ∈ wordsText words) :
    (c = ',' ∨ c = ' ') ∨ ∃ w ∈ words, c ∈ w := by
  induction words with
  | nil => simp [wordsText] at hc
  | cons w words ih =>
    cases words with
    | nil => exact .inr ⟨w, List.mem_cons_self, by simpa [wordsText] using hc⟩
    | cons v words =>
      rw [wordsText, List.intercalate_cons_cons, ← wordsText] at hc
      simp only [List.append_assoc, List.cons_append, List.nil_append, List.mem_append,
        List.mem_cons] at hc
      rcases hc with hc | hc | hc | hc
      · exact .inr ⟨w, List.mem_cons_self, hc⟩
      · exact .inl (.inl hc)
      · exact .inl (.inr hc)
      · exact (ih hc).imp_right fun ⟨u, hu, hcu⟩ => ⟨u, List.mem_cons_of_mem w hu, hcu⟩

section

variable {words : List (List Char)} (h : ∀ w ∈ words, ∀ c ∈ w, isWordChar c = true)

include h

theorem mem_wordsText {c : Char} (hc : c ∈ wordsText words) :
    (c = ',' ∨ c = ' ') ∨ isWordChar c = true :=
  (exists_of_mem_wordsText hc).imp_right fun ⟨w, hw, hcw⟩ => h w hw c hcw

theorem notMem_flowText {c : Char} (hc : c ∉ ['[', ',', ' ', ']']) (hword : isWordChar c = false) :
    c ∉ flowText words := by
  intro hmem
  simp only [List.mem_cons, List.not_mem_nil, or_false, not_or] at hc
  simp only [flowText, List.mem_cons, List.mem_append, List.not_mem_nil, or_false] at hmem
  rcases hmem with hmem | hmem | hmem
  · exact hc.1 hmem
  · rcases mem_wordsText h hmem with (hmem | hmem) | hmem
    · exact hc.2.1 hmem
    · exact hc.2.2.1 hmem
    · rw [hmem] at hword
      exact absurd hword (by decide)
  · exact hc.2.2.2 hmem

theorem isBare_flowText : IsBare (flowText words) where
  ne_nil := List.cons_ne_nil _ _
  oneLine := notMem_flowText h (by decide) (by decide)
  head := by
    intro c hc
    obtain rfl := Option.some.inj hc
    decide
  getLast := by
    intro c hc
    rw [flowText, ← List.cons_append, List.getLast?_concat] at hc
    obtain rfl := Option.some.inj hc
    decide
  noMarker := fun hprefix => absurd (List.cons_prefix_cons.1 hprefix).1 (by decide)
  noKey := fun hin =>
    notMem_flowText h (c := ':') (by decide) (by decide) (hin.subset (by simp))
  noComment := fun hin =>
    notMem_flowText h (c := '#') (by decide) (by decide) (hin.subset (by simp))

theorem flowInner?_flowText : flowInner? (flowText words) = some (wordsText words) := by
  have hbracket : (wordsText words).any
      (fun c => c == '[' || c == ']' || c == '\x7b' || c == '\x7d') = false := by
    rw [List.any_eq_false]
    intro c hc hbracket
    simp only [Bool.or_eq_true, beq_iff_eq] at hbracket
    rcases mem_wordsText h hc with (rfl | rfl) | hword
    · exact absurd hbracket (by decide)
    · exact absurd hbracket (by decide)
    · rcases hbracket with ((rfl | rfl) | rfl) | rfl <;> exact absurd hword (by decide)
  rw [flowText, flowInner?, if_pos List.getLast?_concat, List.dropLast_concat]
  simp only [hbracket, Bool.false_eq_true, if_false]

/-- The words between brackets are replaced. -/
theorem normalizeItems_wordsText :
    normalizeItems (wordsText words) = flowText (words.map replaced) := by
  cases words with
  | nil => rfl
  | cons w words =>
    have hblank : ∀ v ∈ w :: words, ∀ c ∈ v, Text.isBlank c = false := fun v hv c hc =>
      isBlank_of_isWordChar (h v hv c hc)
    have hspaced : ∀ part ∈ w :: words.map (' ' :: ·), ∀ c ∈ part,
        c = ' ' ∨ isWordChar c = true := by
      intro part hpart c hc
      rcases List.mem_cons.1 hpart with rfl | hpart
      · exact .inr (h part List.mem_cons_self c hc)
      · obtain ⟨v, hv, rfl⟩ := List.mem_map.1 hpart
        rcases List.mem_cons.1 hc with hc | hc
        · exact .inl hc
        · exact .inr (h v (List.mem_cons_of_mem w hv) c hc)
    have hcomma : ∀ part ∈ w :: words.map (' ' :: ·), ',' ∉ part := by
      intro part hpart hc
      rcases hspaced part hpart ',' hc with hc | hc <;> exact absurd hc (by decide)
    have hquote : ∀ part ∈ w :: words.map (' ' :: ·), ∀ c ∈ part, isQuote c = false := by
      intro part hpart c hc
      rcases hspaced part hpart c hc with rfl | hword
      · rfl
      · exact isQuote_of_isWordChar hword
    have hspaces : ∀ spaces : List Char, (∀ c ∈ spaces, Text.isBlank c = true) → ∀ v ∈ w :: words,
        normalizeItem (spaces ++ v) = spaces ++ replaced v := fun spaces hspaces v hv =>
      normalizeItem_append hspaces (fun c hc => hblank v hv c (List.mem_of_mem_head? hc))
        fun c hc => hblank v hv c (List.mem_of_mem_getLast? hc)
    have hfirst : normalizeItem w = replaced w := hspaces [] (by simp) w List.mem_cons_self
    have hnext : ∀ v ∈ words, normalizeItem (' ' :: v) = ' ' :: replaced v := fun v hv =>
      hspaces [' '] (List.forall_mem_singleton.2 rfl) v (List.mem_cons_of_mem w hv)
    have hmap : (words.map (' ' :: ·)).map normalizeItem =
        (words.map replaced).map (' ' :: ·) := by
      simpa using hnext
    rw [normalizeItems, wordsText_cons, items_joinItems (List.cons_ne_nil _ _) hcomma,
      normalizeItemsFrom_eq_map hquote, List.map_cons, hfirst, hmap, List.map_cons, flowText,
      wordsText_cons]
    rfl

end

/-! ## Whole lines -/

/-- A value that starts with no bracket is replaced as a whole or not at all. -/
theorem normalizeValue_eq_replaced (h : ∀ c ∈ value.head?, c ≠ '[') :
    normalizeValue value = replaced value := by
  have hflow : flowInner? value = none := by
    unfold flowInner?
    split
    · exact absurd rfl (h '[' rfl)
    · rfl
  rw [normalizeValue, replaced, hflow]
  cases word? value <;> rfl

/-- A value that starts with a quote or like the header of a block scalar is left alone. -/
theorem normalizeValue_cons {c : Char} (hc : c ∈ ['\'', '"', '|', '>']) (s : List Char) :
    normalizeValue (c :: s) = c :: s := by
  simp only [List.mem_cons, List.not_mem_nil, or_false] at hc
  have halpha : c.isAlpha = false := by rcases hc with rfl | rfl | rfl | rfl <;> rfl
  have hbracket : c ≠ '[' := by rcases hc with rfl | rfl | rfl | rfl <;> decide
  have hword : word? (c :: s) = none := word?_eq_none List.mem_cons_self halpha
  rw [normalizeValue_eq_replaced (by simpa using hbracket), replaced, hword]

theorem isBlockHeader_quoted {q : Char} (hq : isQuote q = true) (s : List Char) :
    isBlockHeader (q :: s) = false := by
  rcases isQuote_iff.1 hq with rfl | rfl <;> rfl

theorem normalizeValue_flowText {words : List (List Char)}
    (h : ∀ w ∈ words, ∀ c ∈ w, isWordChar c = true) :
    normalizeValue (flowText words) = flowText (words.map replaced) := by
  have hword : word? (flowText words) = none := word?_eq_none List.mem_cons_self (c := '[') rfl
  rw [normalizeValue, hword, flowInner?_flowText h]
  exact normalizeItems_wordsText h

theorem normalizeLine_entryLine (hkey : ∀ c ∈ key, isWordChar c = true) (h : IsBare value) :
    normalizeLine (entryLine indent key value) = entryLine indent key (normalizeValue value) := by
  rw [normalizeLine, span?_entryLine hkey h]
  simp [entryLine]

theorem normalizeLine_itemLine (h : IsBare value) :
    normalizeLine (itemLine indent value) = itemLine indent (normalizeValue value) := by
  rw [normalizeLine, span?_itemLine h]
  simp [itemLine]

theorem leadingSpaces_entryLine (hkey : ∀ c ∈ key, isWordChar c = true) (value : List Char) :
    Text.leadingSpaces (entryLine indent key value) = indent := by
  have hstart := head_ne_space fun c hc => (start_key hkey (' ' :: (value ++ ['\n'])) c hc).1.1
  rw [entryLine, Text.leadingSpaces_replicate, Text.leadingSpaces_eq_zero hstart, Nat.add_zero]

theorem opensBlock?_entryLine (hkey : ∀ c ∈ key, isWordChar c = true) (h : IsBare value) :
    opensBlock? (entryLine indent key value) =
      if isBlockHeader value then some indent else none := by
  rw [opensBlock?, span?_entryLine hkey h, leadingSpaces_entryLine hkey]

theorem opensBlock?_itemLine (h : IsBare value) (hheader : isBlockHeader value = false) :
    opensBlock? (itemLine indent value) = none := by
  rw [opensBlock?, span?_itemLine h]
  simp [hheader]

/-- A line with a quoted value after its key stays as it is. -/
theorem normalizeLine_quotedEntry (hkey : ∀ c ∈ key, isWordChar c = true) {q : Char}
    (hq : isQuote q = true) (s : List Char) :
    normalizeLine (entryLine indent key (q :: s)) = entryLine indent key (q :: s) ∧
      opensBlock? (entryLine indent key (q :: s)) = none := by
  obtain ⟨⟨before, value, after⟩, hspan, hvalue⟩ := span?_quotedEntry indent hkey hq s
  have hline := text_of_span? hspan
  obtain ⟨t, rfl⟩ := List.head?_eq_some_iff.1 hvalue
  have hsame : normalizeValue (q :: t) = q :: t :=
    normalizeValue_cons (by rcases isQuote_iff.1 hq with rfl | rfl <;> decide) t
  constructor
  · simp only [normalizeLine, hspan, hsame, hline]
  · simp [opensBlock?, hspan, isBlockHeader_quoted hq]

theorem normalizeLine_quotedItem {q : Char} (hq : isQuote q = true) (s : List Char) :
    normalizeLine (itemLine indent (q :: s)) = itemLine indent (q :: s) ∧
      opensBlock? (itemLine indent (q :: s)) = none := by
  simp only [normalizeLine, opensBlock?, span?_quotedItem hq, and_self]

theorem normalizeLine_headLine (hkey : ∀ c ∈ key, isWordChar c = true) :
    normalizeLine (headLine indent key) = headLine indent key ∧
      opensBlock? (headLine indent key) = none := by
  simp only [normalizeLine, opensBlock?, span?, splitHead?_headLine hkey, and_self]

end PluginDataset.BooleanWords
