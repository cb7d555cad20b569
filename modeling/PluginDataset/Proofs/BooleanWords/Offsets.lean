import PluginDataset.BooleanWords.Offsets
import PluginDataset.Proofs.BooleanWords.Items

/-!
# Values at byte offsets

Finding a value by offsets comes to what finding it by characters comes to. The invariant is that
every offset is the number of bytes of a part at the start of the line. No slice fails therefore,
and the two offsets cut the line around its value.

## Main definitions

* `BooleanWords.Span.offsets` says where the value of a line starts and ends.
* `BooleanWords.IsCut` describes the offsets between which a value stands.

## Main results

* `BooleanWords.skipMarkers_append`: the loop ends behind the markers.
* `BooleanWords.valueOffsets_eq`: the offsets are those of the value.
* `BooleanWords.normalizeByOffsets_eq`: words are replaced by slices as they are by characters.
* `BooleanWords.valueOffsets_isCut`: the slices are in order, between characters, and cut the value
  off from blanks and a comment.
-/

namespace PluginDataset.BooleanWords

open Utf8 (encode BadSlice slice sliceTo sliceFrom offsetOf? length_encode_append)

variable {s line before value after rest : List Char} {start stop : Nat}

/-! ## Spaces -/

theorem length_encode_replicate (n : Nat) : (encode (List.replicate n ' ')).length = n := by
  induction n with
  | zero => rfl
  | succ n ih =>
    rw [List.replicate_succ, Utf8.length_encode_cons, ih, Nat.add_comm]
    rfl

theorem leadingSpaces_add (s : List Char) :
    Text.leadingSpaces s + (encode (s.dropWhile (· == ' '))).length = (encode s).length := by
  conv_rhs => rw [← Text.replicate_leadingSpaces_append s, length_encode_append,
    length_encode_replicate]

theorem spaceBytes_eq (s : List Char) : spaceBytes s = Text.leadingSpaces s := by
  rw [spaceBytes, ← leadingSpaces_add, Nat.add_sub_cancel]

theorem skipSpaces_append (before rest : List Char) :
    skipSpaces (before ++ rest) (encode before).length =
      .ok ((encode before).length + Text.leadingSpaces rest) := by
  rw [skipSpaces, Utf8.sliceFrom_append, ← spaceBytes_eq]
  rfl

/-! ## Markers -/

theorem markerEnd?_marker (before rest : List Char) :
    markerEnd? (before ++ (['-', ' '] ++ rest)) (encode before).length =
      .ok (some ((encode before).length + 2 + Text.leadingSpaces rest)) := by
  have hmarked : (encode (before ++ ['-', ' '])).length = (encode before).length + 2 :=
    length_encode_append before ['-', ' ']
  have hskip := skipSpaces_append (before ++ ['-', ' ']) rest
  rw [hmarked, List.append_assoc] at hskip
  rw [markerEnd?, Utf8.sliceFrom_append]
  simp only [bind, Except.bind, List.prefix_append, if_true, hskip]
  rfl

theorem markerEnd?_of_not_isPrefix (before : List Char) (h : ¬ ['-', ' '] <+: rest) :
    markerEnd? (before ++ rest) (encode before).length = .ok none := by
  rw [markerEnd?, Utf8.sliceFrom_append]
  simp only [bind, Except.bind, h, if_false]
  rfl

theorem splitMarkers_spaces (s : List Char) :
    splitMarkers true s =
      prepend (List.replicate (Text.leadingSpaces s) ' ')
        (splitMarkers true (s.dropWhile (· == ' '))) := by
  conv_lhs => rw [← Text.replicate_leadingSpaces_append s, splitMarkers_replicate]

/-- The loop over markers ends behind them all. -/
theorem skipMarkers_append (before s : List Char) (hs : ∀ c ∈ s.head?, c ≠ ' ')
    (inSequence : Bool) :
    skipMarkers (before ++ s) (encode before).length inSequence =
      .ok ((encode (before ++ (splitMarkers true s).1)).length,
        inSequence || (splitMarkers true s).1.contains '-') := by
  rw [skipMarkers_eq]
  by_cases hmarker : ['-', ' '] <+: s
  · obtain ⟨t, ht⟩ := hmarker
    -- the loop goes on behind the marker and its spaces, with both in front of the offset
    have ih := skipMarkers_append
      (before ++ ['-', ' '] ++ List.replicate (Text.leadingSpaces t) ' ')
      (t.dropWhile (· == ' ')) (Text.head_dropWhile_ne_space t) true
    rw [length_encode_append, length_encode_append, length_encode_replicate, List.append_assoc,
      Text.replicate_leadingSpaces_append, List.append_assoc] at ih
    have hsplit : splitMarkers true (['-', ' '] ++ t) =
        prepend ['-', ' '] (prepend (List.replicate (Text.leadingSpaces t) ' ')
          (splitMarkers true (t.dropWhile (· == ' ')))) := by
      rw [← splitMarkers_spaces]
      rfl
    rw [← ht, markerEnd?_marker, hsplit]
    refine ih.trans ?_
    simp [prepend]
  · rw [markerEnd?_of_not_isPrefix _ hmarker, splitMarkers_eq_self hs hmarker]
    simp [bind, Except.bind]
termination_by s.length
decreasing_by
  have hle := (List.dropWhile_sublist (l := t) (· == ' ')).length_le
  have hlength := congrArg List.length ht
  simp only [List.length_append, List.length_cons] at hlength
  omega

theorem skipMarkers_leadingSpaces (line : List Char) :
    skipMarkers line (Text.leadingSpaces line) false =
      .ok ((encode (splitMarkers true line).1).length,
        (splitMarkers true line).1.contains '-') := by
  have hmarkers := skipMarkers_append (List.replicate (Text.leadingSpaces line) ' ')
    (line.dropWhile (· == ' ')) (Text.head_dropWhile_ne_space line) false
  rw [Text.replicate_leadingSpaces_append, length_encode_replicate] at hmarkers
  rw [hmarkers, splitMarkers_spaces line]
  simp [prepend]

/-! ## Values -/

/-- A key ends two bytes behind the offset of its colon. -/
theorem offsetOf?_colon (s : List Char) :
    (offsetOf? [':', ' '] s).map (· + 2) = (splitKey? s).map fun cut => (encode cut.1).length := by
  fun_induction splitKey? s with
  | case1 => rfl
  | case2 rest => exact congrArg _ (Utf8.offsetOf?_of_isPrefix (List.prefix_append [':', ' '] rest))
  | case3 c rest hne ih =>
    have hcolon : ¬ [':', ' '] <+: c :: rest := not_pair_isPrefix hne
    calc (offsetOf? [':', ' '] (c :: rest)).map (· + 2)
        = ((offsetOf? [':', ' '] rest).map (· + 2)).map (c.utf8Size + ·) := by
          simp [Utf8.offsetOf?_cons hcolon, Function.comp_def, Nat.add_assoc]
      _ = ((splitKey? rest).map (prepend [c])).map fun cut => (encode cut.1).length := by
          rw [ih]
          simp [Function.comp_def, prepend, Utf8.length_encode_cons]

/-- A comment starts where the text before it ends. -/
theorem offsetOf?_comment (s : List Char) :
    (offsetOf? [' ', '#'] s = none ∧ beforeComment s = s) ∨
      offsetOf? [' ', '#'] s = some (encode (beforeComment s)).length := by
  fun_induction beforeComment s with
  | case1 => exact .inl ⟨rfl, rfl⟩
  | case2 rest => exact .inr (Utf8.offsetOf?_of_isPrefix (List.prefix_append [' ', '#'] rest))
  | case3 c rest hne ih =>
    rw [Utf8.offsetOf?_cons (not_pair_isPrefix hne), Utf8.length_encode_cons]
    rcases ih with ⟨hnone, hsame⟩ | hsome
    · exact .inl ⟨by rw [hnone]; rfl, by rw [hsame]⟩
    · exact .inr (by rw [hsome]; rfl)

theorem sliceToComment_eq (s : List Char) : sliceToComment s = .ok (beforeComment s) := by
  rw [sliceToComment]
  rcases offsetOf?_comment s with ⟨hnone, hsame⟩ | hsome
  · rw [hnone, hsame]
  · obtain ⟨comment, hs, -⟩ := exists_comment s
    have hslice := Utf8.sliceTo_append (beforeComment s) comment
    rw [← hs] at hslice
    rw [hsome]
    exact hslice

/-- Where the value starts and ends on its line, in bytes. -/
def Span.offsets (s : Span) : Nat × Nat :=
  ((encode s.before).length, (encode s.before).length + (encode s.value).length)

theorem valueOffsetsFrom_eq (h : splitHead? line = some (before, rest)) :
    valueOffsetsFrom line (encode before).length = .ok ((span? line).map Span.offsets) := by
  have hrest : sliceFrom line (encode before).length = .ok rest :=
    Utf8.sliceFrom_eq_ok_iff.2 ⟨before, (append_of_splitHead? h).symm, rfl⟩
  rw [valueOffsetsFrom, hrest, span?, h]
  simp only [bind, Except.bind, sliceToComment_eq]
  split
  · rfl
  · rfl

/-- Behind the spaces after a key a value may start. -/
theorem skipSpaces_key {markers key : List Char} {colon : Nat} (hline : line = markers ++ s)
    (hkey : splitKey? s = some (key, rest)) (hcolon : offsetOf? [':', ' '] s = some colon) :
    skipSpaces line ((encode markers).length + colon + 2) =
      .ok (encode (markers ++ key ++ rest.takeWhile (· == ' '))).length := by
  have hlength : colon + 2 = (encode key).length := by
    have hcut := offsetOf?_colon s
    rw [hkey, hcolon] at hcut
    exact Option.some.inj hcut
  have hskip := skipSpaces_append (markers ++ key) rest
  rw [List.append_assoc, append_of_splitKey? hkey, ← hline, length_encode_append, ← hlength,
    ← Nat.add_assoc] at hskip
  rw [hskip, length_encode_append, length_encode_append, ← hlength, ← Text.replicate_leadingSpaces,
    length_encode_replicate, ← Nat.add_assoc]

/-- The offsets are those of the value that is found by characters. -/
theorem valueOffsets_eq (line : List Char) :
    valueOffsets line (Text.leadingSpaces line) = .ok ((span? line).map Span.offsets) := by
  rcases hmarkers : splitMarkers true line with ⟨markers, rest⟩
  obtain ⟨hline, -, -⟩ := splitMarkers_eq_iff.1 hmarkers
  have hrest : sliceFrom line (encode markers).length = .ok rest :=
    Utf8.sliceFrom_eq_ok_iff.2 ⟨markers, hline, rfl⟩
  have hcolon := offsetOf?_colon rest
  have hnone : splitHead? line = none → span? line = none := fun hentry => by rw [span?, hentry]
  -- both ways to find a value go through the same cases behind the markers
  have hentry := splitHead?.eq_def line
  rw [hmarkers] at hentry
  dsimp only at hentry
  rw [valueOffsets, skipMarkers_leadingSpaces, hmarkers]
  simp only [bind, Except.bind, hrest]
  split at hentry
  · next hquoted =>
    rw [if_pos hquoted, hnone hentry]
    rfl
  · next hplain =>
    rw [if_neg hplain]
    split at hentry
    · next key rest' hkey =>
      rw [hkey] at hcolon
      obtain ⟨colon, hfind, -⟩ := Option.map_eq_some_iff.1 hcolon
      simp only [hfind, skipSpaces_key hline hkey hfind]
      exact valueOffsetsFrom_eq hentry
    · next hkey =>
      rw [hkey] at hcolon
      rw [Option.map_eq_none_iff.1 hcolon]
      split at hentry
      · next hdash => exact (if_pos hdash).trans (valueOffsetsFrom_eq hentry)
      · next hdash =>
        rw [hnone hentry]
        exact if_neg hdash

/-! ## Lines and texts -/

/-- The header of a block scalar is neither a word nor a sequence. -/
theorem normalizeValue_of_isBlockHeader (h : isBlockHeader value = true) :
    normalizeValue value = value := by
  cases value with
  | nil => simp [isBlockHeader] at h
  | cons c s =>
    rw [isBlockHeader, Bool.and_eq_true, Bool.or_eq_true, beq_iff_eq, beq_iff_eq] at h
    exact normalizeValue_cons (by rcases h.1 with rfl | rfl <;> decide) s

/-- The three slices around a value are its parts. -/
theorem slices_of_span? {span : Span} (h : span? line = some span) :
    sliceTo line span.offsets.1 = .ok span.before ∧
      slice line span.offsets.1 span.offsets.2 = .ok span.value ∧
      sliceFrom line span.offsets.2 = .ok span.after := by
  have hline := text_of_span? h
  have hbefore := Utf8.sliceTo_append span.before (span.value ++ span.after)
  have hvalue := Utf8.slice_append span.before span.value span.after
  have hafter := Utf8.sliceFrom_append (span.before ++ span.value) span.after
  rw [← List.append_assoc, hline] at hbefore hvalue
  rw [hline, length_encode_append] at hafter
  exact ⟨hbefore, hvalue, hafter⟩

theorem normalizeLineByOffsets_eq (line : List Char) :
    normalizeLineByOffsets line = .ok (normalizeLine line, opensBlock? line) := by
  rw [normalizeLineByOffsets, spaceBytes_eq, valueOffsets_eq, normalizeLine, opensBlock?]
  cases hspan : span? line with
  | none => rfl
  | some span =>
    obtain ⟨hbefore, hvalue, hafter⟩ := slices_of_span? hspan
    have hline := text_of_span? hspan
    simp only [bind, Except.bind, Option.map_some, hbefore, hvalue, hafter]
    split
    · next hheader =>
      rw [normalizeValue_of_isBlockHeader hheader, hline]
      rfl
    · rw [replacement?]
      by_cases hsame : normalizeValue span.value = span.value
      · rw [if_pos hsame, hsame, hline]
        rfl
      · rw [if_neg hsame]
        rfl

theorem normalizeLinesByOffsets_eq (parent : Option Nat) (ls : List (List Char)) :
    normalizeLinesByOffsets parent ls = .ok (normalizeLines parent ls) := by
  induction ls generalizing parent with
  | nil => rfl
  | cons line ls ih =>
    rw [normalizeLinesByOffsets, normalizeLines]
    split
    · rw [ih]
      rfl
    · rw [normalizeLineByOffsets_eq]
      simp only [bind, Except.bind, ih]
      rfl

/-- No slice fails, and the words are replaced as they are by characters. -/
theorem normalizeByOffsets_eq (text : List Char) :
    normalizeByOffsets text = .ok (normalize text) := by
  rw [normalizeByOffsets, normalizeLinesByOffsets_eq]
  rfl

/-! ## Where the slices are -/

/-- A line is cut at two offsets around its value. -/
structure IsCut (line : List Char) (start stop : Nat) (span : Span) : Prop where
  indent_le : Text.leadingSpaces line ≤ start
  start_lt : start < stop
  stop_le : stop ≤ (encode line).length
  before : sliceTo line start = .ok span.before
  value : slice line start stop = .ok span.value
  after : sliceFrom line stop = .ok span.after
  head : ∀ c ∈ span.value.head?, c ≠ ' '
  getLast : ∀ c ∈ span.value.getLast?, Text.isBlank c = false
  noComment : ¬ [' ', '#'] <:+: span.value
  exists_comment : ∃ blanks comment, span.after = blanks ++ comment ∧
    (∀ c ∈ blanks, Text.isBlank c = true) ∧
      (comment = [] ∨ blanks ≠ [] ∧ comment.head? = some '#')

/-- The indent ends before anything that does not start with a space. -/
theorem leadingSpaces_append_le (before : List Char) (hrest : ∀ c ∈ rest.head?, c ≠ ' ') :
    Text.leadingSpaces (before ++ rest) ≤ (encode before).length := by
  have hspaces : (before ++ rest).takeWhile (· == ' ') = before.takeWhile (· == ' ') :=
    takeWhile_append_of_head (by simpa using hrest) before
  rw [Text.leadingSpaces, hspaces, ← leadingSpaces_add before, Text.leadingSpaces]
  exact Nat.le_add_right _ _

/-- Blanks and a comment behind a space are blanks with a comment behind them. -/
theorem EndsBefore.exists_blanks (h : EndsBefore value after) :
    ∃ blanks comment, after = blanks ++ comment ∧ (∀ c ∈ blanks, Text.isBlank c = true) ∧
      (comment = [] ∨ blanks ≠ [] ∧ comment.head? = some '#') := by
  obtain ⟨blanks, comment, rfl, hblanks, hcomment, -⟩ := h.exists_comment
  rcases hcomment with rfl | ⟨text, rfl⟩
  · exact ⟨blanks, [], rfl, hblanks, .inl rfl⟩
  · refine ⟨blanks ++ [' '], '#' :: text, by simp, ?_, .inr ⟨by simp, rfl⟩⟩
    rw [List.forall_mem_append]
    exact ⟨hblanks, List.forall_mem_singleton.2 rfl⟩

theorem isCut_of_span? {span : Span} (h : span? line = some span) :
    IsCut line span.offsets.1 span.offsets.2 span := by
  obtain ⟨hbefore, hvalue, hafter⟩ := slices_of_span? h
  obtain ⟨htext, hhead, hends⟩ := span?_iff_place.1 h
  have hspace := hhead.head_ne_space
  obtain ⟨c, value, hcons⟩ := List.exists_cons_of_ne_nil hends.ne_nil
  have hpos := c.utf8Size_pos
  have hlength : (encode line).length = (encode span.before).length +
      ((encode span.value).length + (encode span.after).length) := by
    rw [htext, length_encode_append, length_encode_append]
  refine
    { indent_le := ?_, start_lt := ?_, stop_le := ?_, before := hbefore, value := hvalue,
      after := hafter, head := ?_, getLast := hends.getLast, noComment := ?_,
      exists_comment := hends.exists_blanks }
  · show Text.leadingSpaces line ≤ (encode span.before).length
    rw [htext]
    exact leadingSpaces_append_le span.before hspace
  · show (encode span.before).length < (encode span.before).length + (encode span.value).length
    rw [hcons, Utf8.length_encode_cons]
    omega
  · show (encode span.before).length + (encode span.value).length ≤ (encode line).length
    omega
  · rw [hcons] at hspace ⊢
    exact hspace
  · obtain ⟨blanks, comment, -, -, -, hnone⟩ := hends.exists_comment
    exact fun hin => hnone (hin.trans (List.prefix_append span.value blanks).isInfix)

/-- On every line there is no value, or the line is cut around it at the two offsets. No slice fails
in any text. -/
theorem valueOffsets_isCut (line : List Char) :
    ((valueOffsets line (Text.leadingSpaces line) = .ok none ∧ span? line = none) ∨
      ∃ start stop span, valueOffsets line (Text.leadingSpaces line) = .ok (some (start, stop)) ∧
        span? line = some span ∧ IsCut line start stop span) ∧
    ∀ text, normalizeByOffsets text = .ok (normalize text) := by
  refine ⟨?_, normalizeByOffsets_eq⟩
  rw [valueOffsets_eq]
  cases hspan : span? line with
  | none => exact .inl ⟨rfl, rfl⟩
  | some span => exact .inr ⟨_, _, span, rfl, rfl, isCut_of_span? hspan⟩

end PluginDataset.BooleanWords
