import PluginDataset.Proofs.BooleanWords.Line

/-!
# Where a line is cut

A line is cut after its markers, after its first colon that is followed by a space, before the
spaces in front of its first comment, and so on. Each cut is told by what stands on both sides of
it, so that it is found again on a line on which one side has changed.

## Main definitions

* `BooleanWords.NoMarker` describes what may come after markers.
* `BooleanWords.IsComment` describes what may come after a value and blanks.
* `BooleanWords.EndsBefore` says that a value ends where the text after it starts.
* `BooleanWords.IsHead` describes what stands on a line before a value, `BooleanWords.Place` a value
  in its place on a line.

## Main results

* `BooleanWords.splitKey?_eq_some_iff`: a key ends with the first colon before a space.
* `BooleanWords.span?_eq_some_iff`: the exact place of a value.
* `BooleanWords.splitHead?_replace`: the start of a value does not depend on the value.
* `BooleanWords.span?_iff_place`: every value is found in its place, and nothing else is.
-/

namespace PluginDataset.BooleanWords

variable {s t u key rest line markers before value after : List Char}

/-! ## Markers -/

/-- A text that starts neither with a space nor with a marker. -/
def NoMarker (s : List Char) : Prop :=
  (∀ c ∈ s.head?, c ≠ ' ') ∧ ¬ ['-', ' '] <+: s

/-- Markers are cut off until there is none. -/
theorem noMarker_splitMarkers (s : List Char) : NoMarker (splitMarkers true s).2 := by
  generalize hspaces : true = spaces
  fun_induction splitMarkers spaces s with
  | case1 rest ih => exact ih rfl
  | case2 spaces rest ih => exact ih rfl
  | case3 spaces s hmarker hspace =>
    constructor
    · rintro c hc rfl
      obtain ⟨rest, rfl⟩ := List.head?_eq_some_iff.1 hc
      exact hspace rest hspaces.symm rfl
    · rintro ⟨rest, rfl⟩
      exact hmarker rest rfl

/-- The same markers are found before another text. -/
theorem splitMarkers_replace (spaces : Bool) (s : List Char) (ht : NoMarker t) :
    splitMarkers spaces ((splitMarkers spaces s).1 ++ t) = ((splitMarkers spaces s).1, t) := by
  fun_induction splitMarkers spaces s with
  | case1 rest ih =>
    rw [prepend, List.append_assoc, List.singleton_append, splitMarkers, ih]
    rfl
  | case2 spaces rest ih =>
    rw [prepend, List.append_assoc]
    simp only [List.cons_append, List.nil_append, splitMarkers, ih]
    rfl
  | case3 spaces s => exact splitMarkers_eq_self ht.1 ht.2

/-! ## Keys -/

theorem splitKey?_cons {c : Char} (h : ¬ [':', ' '] <+: c :: s) :
    splitKey? (c :: s) = (splitKey? s).map (prepend [c]) := by
  rw [splitKey?]
  rintro rest rfl rfl
  exact h (List.prefix_append [':', ' '] rest)

/-- A key ends with the first colon that is followed by a space. -/
theorem splitKey?_eq_some_iff :
    splitKey? s = some (key, rest) ↔
      ∃ k, key = k ++ [':', ' '] ∧ s = key ++ rest ∧ ¬ [':', ' '] <:+: k ++ [':'] := by
  constructor
  · intro h
    fun_induction splitKey? s generalizing key with
    | case1 => simp at h
    | case2 =>
      obtain ⟨rfl, rfl⟩ := Prod.mk.inj (Option.some.inj h)
      exact ⟨[], rfl, rfl, by decide⟩
    | case3 c s hne ih =>
      obtain ⟨⟨key', rest'⟩, hcut, heq⟩ := Option.map_eq_some_iff.1 h
      obtain ⟨rfl, rfl⟩ := Prod.mk.inj heq
      obtain ⟨k, rfl, rfl, hfirst⟩ := ih hcut
      refine ⟨c :: k, rfl, rfl, fun hin => ?_⟩
      rw [List.cons_append] at hin
      rcases List.infix_cons_iff.1 hin with hstart | hin
      · exact not_pair_isPrefix hne (hstart.trans ⟨' ' :: rest', by simp⟩)
      · exact hfirst hin
  · rintro ⟨k, rfl, rfl, hfirst⟩
    induction k with
    | nil => rfl
    | cons c k ih =>
      rw [List.cons_append, List.infix_cons_iff, not_or] at hfirst
      -- two characters at the start are two characters of the key with its colon
      have hnone : ¬ [':', ' '] <+: c :: (k ++ [':', ' '] ++ rest) := fun hstart =>
        hfirst.1 (List.prefix_of_prefix_length_le hstart ⟨' ' :: rest, by simp⟩ (by simp))
      rw [List.cons_append, List.cons_append, splitKey?_cons hnone, ih hfirst.2]
      rfl

/-- Without a key no colon is followed by a space. -/
theorem not_infix_of_splitKey? (h : splitKey? s = none) : ¬ [':', ' '] <:+: s := by
  fun_induction splitKey? s with
  | case1 => decide
  | case2 => simp at h
  | case3 c s hne ih =>
    rw [List.infix_cons_iff, not_or]
    exact ⟨not_pair_isPrefix hne, ih (Option.map_eq_none_iff.1 h)⟩

/-! ## Comments -/

/-- Nothing, or a comment behind a space. -/
def IsComment (s : List Char) : Prop :=
  s = [] ∨ [' ', '#'] <+: s

theorem beforeComment_cons {c : Char} (h : ¬ [' ', '#'] <+: c :: s) :
    beforeComment (c :: s) = c :: beforeComment s := by
  rw [beforeComment]
  rintro rest rfl rfl
  exact h (List.prefix_append [' ', '#'] rest)

/-- A text without a comment ends where a comment starts. -/
theorem beforeComment_append (hu : ¬ [' ', '#'] <:+: u) (ht : IsComment t) :
    beforeComment (u ++ t) = u := by
  induction u with
  | nil =>
    rcases ht with rfl | ⟨comment, rfl⟩
    · rfl
    · rfl
  | cons c u ih =>
    rw [List.infix_cons_iff, not_or] at hu
    have hnone : ¬ [' ', '#'] <+: c :: (u ++ t) := by
      rw [List.cons_prefix_cons]
      rintro ⟨rfl, hmark⟩
      cases u with
      | nil =>
        rcases ht with rfl | ⟨comment, rfl⟩
        · exact absurd hmark (by decide)
        · exact absurd (List.cons_prefix_cons.1 hmark).1 (by decide)
      | cons d u =>
        obtain ⟨rfl, _⟩ := List.cons_prefix_cons.1 hmark
        exact hu.1 (List.prefix_append [' ', '#'] u)
    rw [List.cons_append, beforeComment_cons hnone, ih hu.2]

/-- What is cut off is a comment, and there is none before it. -/
theorem exists_comment (s : List Char) :
    ∃ comment, s = beforeComment s ++ comment ∧ IsComment comment ∧
      ¬ [' ', '#'] <:+: beforeComment s := by
  fun_induction beforeComment s with
  | case1 => exact ⟨[], rfl, .inl rfl, by decide⟩
  | case2 rest =>
    exact ⟨' ' :: '#' :: rest, rfl, .inr (List.prefix_append [' ', '#'] rest), by decide⟩
  | case3 c rest hne ih =>
    obtain ⟨comment, hrest, hcomment, hbefore⟩ := ih
    refine ⟨comment, by rw [List.cons_append, ← hrest], hcomment, fun hin => ?_⟩
    rcases List.infix_cons_iff.1 hin with hprefix | hin
    · obtain ⟨rfl, hmark⟩ := List.cons_prefix_cons.1 hprefix
      obtain ⟨later, hlater⟩ := hmark.trans (beforeComment_isPrefix rest)
      exact hne later rfl hlater.symm
    · exact hbefore hin

/-! ## Values -/

/-- A value that ends where it is cut: not with a blank, and before blanks and a comment. -/
structure EndsBefore (value after : List Char) : Prop where
  ne_nil : value ≠ []
  getLast : ∀ c ∈ value.getLast?, Text.isBlank c = false
  exists_comment : ∃ blanks comment, after = blanks ++ comment ∧
    (∀ c ∈ blanks, Text.isBlank c = true) ∧ IsComment comment ∧
      ¬ [' ', '#'] <:+: value ++ blanks

/-- The value of a line is what starts after its key or its markers and ends before blanks and a
comment. -/
theorem span?_eq_some_iff {span : Span} :
    span? line = some span ↔
      splitHead? line = some (span.before, span.value ++ span.after) ∧
        EndsBefore span.value span.after := by
  constructor
  · intro h
    rw [span?] at h
    split at h
    · simp at h
    · next before rest hentry =>
      dsimp only at h
      split at h
      · simp at h
      · next hne =>
        obtain rfl := Option.some.inj h
        obtain ⟨comment, hrest, hcomment, hnone⟩ := exists_comment rest
        obtain ⟨blanks, htrim, hblanks⟩ := Text.exists_trimEnd_append (beforeComment rest)
        have hafter : rest = Text.trimEnd (beforeComment rest) ++ (blanks ++ comment) := by
          rw [← List.append_assoc, ← htrim, ← hrest]
        have hdrop : rest.drop (Text.trimEnd (beforeComment rest)).length = blanks ++ comment :=
          (congrArg _ hafter).trans List.drop_left
        dsimp only
        rw [hdrop, ← hafter]
        refine ⟨hentry, hne, ?_, blanks, comment, rfl, hblanks, hcomment, htrim ▸ hnone⟩
        intro c hc
        rw [List.getLast?_eq_some_getLast hne] at hc
        obtain rfl := Option.some.inj hc
        exact Text.isBlank_getLast_trimEnd (beforeComment rest) hne
  · rintro ⟨hentry, hne, hlast, blanks, comment, hafter, hblanks, hcomment, hnone⟩
    have hbefore : beforeComment (span.value ++ span.after) = span.value ++ blanks := by
      rw [hafter, ← List.append_assoc]
      exact beforeComment_append hnone hcomment
    rw [span?, hentry]
    dsimp only
    rw [hbefore, Text.trimEnd_append hlast hblanks, if_neg hne, List.drop_left]

/-! ## Another value -/

theorem takeWhile_append_of_head {p : Char → Bool} (h : ∀ c ∈ t.head?, p c = false)
    (s : List Char) : (s ++ t).takeWhile p = s.takeWhile p := by
  induction s with
  | nil => exact (cut_append (s := []) (by simp) h).1
  | cons c s ih =>
    rw [List.cons_append, List.takeWhile_cons, List.takeWhile_cons, ih]

/-- A text that may start a value: no space, no marker, no quote and no comment. -/
def StartsValue (s : List Char) : Prop :=
  ∀ c ∈ s.head?, c ≠ ' ' ∧ c ≠ '-' ∧ c ≠ '#' ∧ isQuote c = false

theorem StartsValue.noMarker (h : StartsValue s) : NoMarker s := by
  refine ⟨fun c hc => (h c hc).1, fun hmarker => ?_⟩
  obtain ⟨rest, rfl⟩ := hmarker
  exact (h '-' rfl).2.1 rfl

/-- A key that comes after markers still does before another text. -/
theorem NoMarker.replace (h : NoMarker (key ++ s)) (hkey : 2 ≤ key.length) (t : List Char) :
    NoMarker (key ++ t) := by
  have hne : key ≠ [] := List.ne_nil_of_length_pos (by omega)
  have hhead : (key ++ t).head? = (key ++ s).head? := by
    rw [List.head?_append_of_ne_nil key hne, List.head?_append_of_ne_nil key hne]
  refine ⟨hhead ▸ h.1, fun hmarker => h.2 ?_⟩
  have hprefix := List.prefix_of_prefix_length_le hmarker (List.prefix_append key t) hkey
  exact hprefix.trans (List.prefix_append key s)

/-- The start of a value is found again before another value, if that brings no key. -/
theorem splitHead?_replace {before rest rest' : List Char}
    (h : splitHead? line = some (before, rest)) (hstart : StartsValue rest')
    (hkey : [':', ' '] <:+: rest' → [':', ' '] <:+: rest) :
    splitHead? (before ++ rest') = some (before, rest') := by
  have hmarkers := noMarker_splitMarkers line
  have hreplace := fun t (ht : NoMarker t) => splitMarkers_replace true line ht
  rw [splitHead?] at h ⊢
  rcases hline : splitMarkers true line with ⟨markers, s⟩
  rw [hline] at h hmarkers hreplace
  dsimp only at h hmarkers hreplace
  split at h
  · simp at h
  · next hquoted =>
    split at h
    · next key s' hcut =>
      -- the markers and the key end where they did, as only what comes after the key has changed
      obtain ⟨rfl, rfl⟩ := Prod.mk.inj (Option.some.inj h)
      obtain ⟨k, hk, rfl, hfirst⟩ := splitKey?_eq_some_iff.1 hcut
      have hnew := hmarkers.replace (by simp [hk]) (s'.takeWhile (· == ' ') ++ rest')
      have hplain : startsQuotedOrComment (key ++ (s'.takeWhile (· == ' ') ++ rest')) = false := by
        obtain ⟨c, key', rfl⟩ : ∃ c key', key = c :: key' :=
          List.exists_cons_of_ne_nil (by simp [hk])
        exact Bool.eq_false_iff.2 hquoted
      have hcut' := splitKey?_eq_some_iff.2
        ⟨k, hk, rfl (a := key ++ (s'.takeWhile (· == ' ') ++ rest')), hfirst⟩
      obtain ⟨htake, hdrop⟩ := cut_append (s := s'.takeWhile (· == ' ')) (t := rest')
        (List.all_eq_true.1 List.all_takeWhile) fun c hc => by simpa using (hstart c hc).1
      rw [List.append_assoc, List.append_assoc, hreplace _ hnew]
      simp only [hplain, hcut', htake, hdrop, Bool.false_eq_true, if_false, List.append_assoc]
    · next hcut =>
      split at h
      · next hdash =>
        -- an item has no key, and its new value brings none
        obtain ⟨rfl, rfl⟩ := Prod.mk.inj (Option.some.inj h)
        have hnone : splitKey? rest' = none :=
          splitKey?_eq_none fun hin => not_infix_of_splitKey? hcut (hkey hin)
        have hplain : startsQuotedOrComment rest' = false :=
          startsQuotedOrComment_eq_false fun c hc => (hstart c hc).2.2
        rw [hreplace rest' hstart.noMarker]
        simp only [hplain, hnone, hdash, Bool.false_eq_true, if_false, if_true]
      · simp at h

/-! ## The place of a value -/

/-- Spaces and markers at the start of a line. -/
inductive IsMarkers : List Char → Prop
  | nil : IsMarkers []
  | space {s : List Char} (h : IsMarkers s) : IsMarkers (' ' :: s)
  | marker {s : List Char} (h : IsMarkers s) : IsMarkers ('-' :: ' ' :: s)

theorem isMarkers_splitMarkers (spaces : Bool) (s : List Char) :
    IsMarkers (splitMarkers spaces s).1 := by
  fun_induction splitMarkers spaces s with
  | case1 rest ih => exact .space ih
  | case2 _ rest ih => exact .marker ih
  | case3 => exact .nil

theorem splitMarkers_eq_iff :
    splitMarkers true line = (markers, rest) ↔
      line = markers ++ rest ∧ IsMarkers markers ∧ NoMarker rest := by
  constructor
  · intro h
    have happend := splitMarkers_append true line
    have hmarkers := isMarkers_splitMarkers true line
    have hrest := noMarker_splitMarkers line
    rw [h] at happend hmarkers hrest
    exact ⟨happend.symm, hmarkers, hrest⟩
  · rintro ⟨rfl, hmarkers, hrest⟩
    induction hmarkers with
    | nil => exact splitMarkers_eq_self hrest.1 hrest.2
    | space _ ih =>
      rw [List.cons_append, splitMarkers, ih]
      rfl
    | marker _ ih =>
      rw [List.cons_append, List.cons_append, splitMarkers, ih]
      rfl

/-- What stands on a line before a value: the indent and the markers, and then the first key with
the spaces after it. Without a key there is a marker. Nothing in it starts a comment or a quoted
scalar. -/
inductive IsHead : List Char → List Char → Prop
  | item {markers rest : List Char} (hmarkers : IsMarkers markers) (hdash : '-' ∈ markers)
      (hrest : NoMarker rest) (hplain : startsQuotedOrComment rest = false)
      (hkey : ¬ [':', ' '] <:+: rest) : IsHead markers rest
  | entry {markers key spaces rest : List Char} (hmarkers : IsMarkers markers)
      (hrest : NoMarker (key ++ ':' :: ' ' :: (spaces ++ rest)))
      (hplain : startsQuotedOrComment (key ++ ':' :: ' ' :: (spaces ++ rest)) = false)
      (hfirst : ¬ [':', ' '] <:+: key ++ [':']) (hspaces : ∀ c ∈ spaces, c = ' ')
      (hvalue : ∀ c ∈ rest.head?, c ≠ ' ') :
      IsHead (markers ++ (key ++ ':' :: ' ' :: spaces)) rest

theorem IsHead.head_ne_space (h : IsHead before rest) : ∀ c ∈ rest.head?, c ≠ ' ' := by
  cases h with
  | item _ _ hrest _ _ => exact hrest.1
  | entry _ _ _ _ _ hvalue => exact hvalue

theorem splitHead?_eq_some_iff :
    splitHead? line = some (before, rest) ↔ line = before ++ rest ∧ IsHead before rest := by
  constructor
  · intro h
    refine ⟨(append_of_splitHead? h).symm, ?_⟩
    rcases hmarkers : splitMarkers true line with ⟨markers, s⟩
    obtain ⟨-, his, hno⟩ := splitMarkers_eq_iff.1 hmarkers
    rw [splitHead?, hmarkers] at h
    dsimp only at h
    split at h
    · simp at h
    · next hplain =>
      rw [Bool.not_eq_true] at hplain
      split at h
      · next key s' hcut =>
        obtain ⟨rfl, rfl⟩ := Prod.mk.inj (Option.some.inj h)
        obtain ⟨k, rfl, rfl, hfirst⟩ := splitKey?_eq_some_iff.1 hcut
        have hsplit : s'.takeWhile (· == ' ') ++ s'.dropWhile (· == ' ') = s' :=
          List.takeWhile_append_dropWhile
        have hspaces : ∀ c ∈ s'.takeWhile (· == ' '), c = ' ' := by
          simpa using List.all_eq_true.1 (List.all_takeWhile (p := (· == ' ')) (l := s'))
        have hentry : IsHead (markers ++ (k ++ ':' :: ' ' :: s'.takeWhile (· == ' ')))
            (s'.dropWhile (· == ' ')) :=
          .entry his (by simpa [hsplit] using hno) (by simpa [hsplit] using hplain) hfirst hspaces
            (Text.head_dropWhile_ne_space s')
        simpa using hentry
      · next hcut =>
        split at h
        · next hdash =>
          obtain ⟨rfl, rfl⟩ := Prod.mk.inj (Option.some.inj h)
          exact .item his (by simpa using hdash) hno hplain (not_infix_of_splitKey? hcut)
        · simp at h
  · rintro ⟨rfl, h⟩
    cases h with
    | item hmarkers hdash hrest hplain hkey =>
      have hsplit := splitMarkers_eq_iff.2 ⟨rfl, hmarkers, hrest⟩
      have hcontains : before.contains '-' = true := by simpa using hdash
      simp only [splitHead?, hsplit, hplain, splitKey?_eq_none hkey, hcontains, if_true,
        Bool.false_eq_true, if_false]
    | @entry markers key spaces _ hmarkers hrest hplain hfirst hspaces hvalue =>
      have hsplit := splitMarkers_eq_iff.2 ⟨rfl, hmarkers, hrest⟩
      have hcut := splitKey?_eq_some_iff.2
        ⟨key, rfl, rfl (a := key ++ [':', ' '] ++ (spaces ++ rest)), hfirst⟩
      obtain ⟨htake, hdrop⟩ := cut_append (s := spaces) (t := rest) (p := (· == ' '))
        (by simpa using hspaces) (by simpa using hvalue)
      have hline : markers ++ (key ++ ':' :: ' ' :: spaces) ++ rest =
          markers ++ (key ++ ':' :: ' ' :: (spaces ++ rest)) := by simp
      rw [List.append_assoc, List.cons_append, List.cons_append, List.nil_append] at hcut
      simp only [hline, splitHead?, hsplit, hplain, hcut, htake, hdrop, Bool.false_eq_true,
        if_false]
      simp

/-- A value in its place on a line: after the head of the line, and before the blanks and the
comment at its end. -/
structure Place (line before value after : List Char) : Prop where
  text : line = before ++ (value ++ after)
  head : IsHead before (value ++ after)
  ends : EndsBefore value after

/-- Every value is found in its place. -/
theorem span?_iff_place :
    span? line = some ⟨before, value, after⟩ ↔ Place line before value after := by
  rw [span?_eq_some_iff]
  dsimp only
  rw [splitHead?_eq_some_iff]
  exact ⟨fun h => ⟨h.1.1, h.1.2, h.2⟩, fun h => ⟨⟨h.text, h.head⟩, h.ends⟩⟩

/-- On a line `key: value` the value stands in its place if it ends with the line. -/
theorem place_entryLine {indent : Nat} (hkey : ∀ c ∈ key, isWordChar c = true)
    (hvalue : ∀ c ∈ value.head?, c ≠ ' ') (hends : EndsBefore value ['\n']) :
    Place (entryLine indent key value) (List.replicate indent ' ' ++ (key ++ [':', ' '])) value
      ['\n'] := by
  obtain ⟨htext, hhead⟩ := splitHead?_eq_some_iff.1 (splitHead?_entryLine hkey hvalue)
  exact ⟨htext, hhead, hends⟩

end PluginDataset.BooleanWords
