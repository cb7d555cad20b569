import Mathlib.Data.List.TakeWhile
import PluginDataset.Literal.Opening
import PluginDataset.Proofs.Text.Lines

/-!
# Where literals open

An opening is written on one line, and what comes after its quotes does not matter for it. A source
text can therefore be searched part by part: the openings of two texts together are those of the
first one and those of the second one, if it is known whether the second one starts a line.

## Main definitions

* `Literal.OpeningText` is an opening as it is written.
* `Literal.openingsIn` lists the openings that start in the first of two texts.
* `Literal.IsProgramText` says that no line of a text opens a literal.

## Main results

* `Literal.Opening.parse?_eq_some_iff`: openings are read from exactly what is written.
* `Literal.openingsFrom_append`: a text can be searched part by part.
* `Literal.IsProgramText.openingsIn_eq_nil`: nothing is found in program text.
-/

namespace PluginDataset.Literal

/-! ## Openings as they are written -/

def Quote.marks (q : Quote) : List Char :=
  [q.mark, q.mark, q.mark]

/-- Spaces and tabs. -/
def IsGap (s : List Char) : Prop :=
  ∀ c ∈ s, c = ' ' ∨ c = '\t'

instance : DecidablePred IsGap := fun s =>
  List.decidableBAll (fun c => c = ' ' ∨ c = '\t') s

/-- An opening as it is written: a name, an equals sign between gaps, letters, and quotes. -/
structure OpeningText where
  name : BlockName
  before : List Char
  after : List Char
  letters : List Char
  quote : Quote
  isGap_before : IsGap before
  isGap_after : IsGap after
  length_letters : letters.length ≤ 2
  isLiteralPrefix_letters : ∀ c ∈ letters, isLiteralPrefix c = true

namespace OpeningText

/-- What stands before the quotes. -/
def head (t : OpeningText) : List Char :=
  t.name.word ++ (t.before ++ '=' :: (t.after ++ t.letters))

def text (t : OpeningText) : List Char :=
  t.head ++ t.quote.marks

/-- Whether a letter says that backslashes are kept. -/
def raw (t : OpeningText) : Bool :=
  t.letters.any fun c => c == 'r' || c == 'R'

def opening (t : OpeningText) : Opening :=
  ⟨t.name, t.raw, t.quote⟩

end OpeningText

theorem after?_eq_some_iff {w s rest : List Char} : after? w s = some rest ↔ s = w ++ rest := by
  induction w generalizing s with
  | nil => simp [after?]
  | cons c w ih =>
    cases s with
    | nil => simp [after?]
    | cons d s =>
      rw [after?]
      split
      · next h => rw [ih, h, List.cons_append, List.cons.injEq, and_iff_right rfl]
      · next h =>
        rw [List.cons_append, List.cons.injEq]
        simp [Ne.symm h]

theorem after?_word_eq_none {m n : BlockName} (h : m ≠ n) (rest : List Char) :
    after? m.word (n.word ++ rest) = none := by
  cases m <;> cases n <;> first | exact absurd rfl h | rfl

theorem blockName?_eq (s : List Char) : blockName? s =
    ((after? BlockName.documentation.word s).map (.documentation, ·)).or
      (((after? BlockName.examples.word s).map (.examples, ·)).or
        ((after? BlockName.returns.word s).map (.returns, ·))) := by
  simp only [blockName?, Option.orElse_eq_orElse, Option.orElse_eq_or]

/-- The three names start with different letters. -/
theorem blockName?_eq_some_iff {s rest : List Char} {name : BlockName} :
    blockName? s = some (name, rest) ↔ s = name.word ++ rest := by
  constructor
  · intro h
    have hnamed : ∀ n, (after? n.word s).map (n, ·) = some (name, rest) →
        s = name.word ++ rest := by
      intro n hn
      obtain ⟨_, hs, heq⟩ := Option.map_eq_some_iff.1 hn
      obtain ⟨rfl, rfl⟩ := Prod.mk.inj heq
      exact after?_eq_some_iff.1 hs
    rw [blockName?_eq] at h
    rcases Option.or_eq_some_iff.1 h with h | ⟨_, h⟩
    · exact hnamed _ h
    · rcases Option.or_eq_some_iff.1 h with h | ⟨_, h⟩
      · exact hnamed _ h
      · exact hnamed _ h
  · rintro rfl
    have hsome : after? name.word (name.word ++ rest) = some rest := after?_eq_some_iff.2 rfl
    rw [blockName?_eq]
    cases name with
    | documentation => rw [hsome]; rfl
    | examples => rw [hsome, after?_word_eq_none (by decide)]; rfl
    | returns => rw [hsome, after?_word_eq_none (by decide), after?_word_eq_none (by decide)]; rfl

/-! ## Gaps and letters -/

theorem skipTabsAndSpaces_append {gap : List Char} (hgap : IsGap gap) {c : Char}
    (hc : c ≠ ' ' ∧ c ≠ '\t') (s : List Char) :
    skipTabsAndSpaces (gap ++ c :: s) = c :: s := by
  rw [skipTabsAndSpaces, List.dropWhile_append_of_pos]
  · simp [hc]
  · intro d hd
    simpa using hgap d hd

theorem exists_gap (s : List Char) : ∃ gap, IsGap gap ∧ s = gap ++ skipTabsAndSpaces s := by
  refine ⟨s.takeWhile fun c => c == ' ' || c == '\t', fun c hc => ?_,
    List.takeWhile_append_dropWhile.symm⟩
  simpa using List.all_eq_true.1 List.all_takeWhile c hc

theorem takeLetters_append {n : Nat} {letters : List Char} (hlength : letters.length ≤ n)
    (hletters : ∀ c ∈ letters, isLiteralPrefix c = true) {c : Char}
    (hc : isLiteralPrefix c = false) (s : List Char) :
    takeLetters n (letters ++ c :: s) = (letters, c :: s) := by
  induction letters generalizing n with
  | nil => cases n <;> simp [takeLetters, hc]
  | cons d letters ih =>
    obtain ⟨n, rfl⟩ : ∃ m, n = m + 1 := ⟨n - 1, by simp at hlength; omega⟩
    rw [List.forall_mem_cons] at hletters
    have hrest := ih (Nat.le_of_succ_le_succ hlength) hletters.2
    rw [List.cons_append, takeLetters, if_pos hletters.1, hrest]

theorem takeLetters_eq {n : Nat} {s letters rest : List Char}
    (h : takeLetters n s = (letters, rest)) :
    s = letters ++ rest ∧ letters.length ≤ n ∧ ∀ c ∈ letters, isLiteralPrefix c = true := by
  induction n generalizing s letters with
  | zero =>
    obtain ⟨rfl, rfl⟩ : [] = letters ∧ s = rest := by simpa [takeLetters] using h
    exact ⟨rfl, Nat.le_refl 0, by simp⟩
  | succ n ih =>
    cases s with
    | nil =>
      obtain ⟨rfl, rfl⟩ : [] = letters ∧ [] = rest := by simpa [takeLetters] using h
      exact ⟨rfl, by simp, by simp⟩
    | cons c s =>
      rw [takeLetters] at h
      split at h
      · next hc =>
        obtain ⟨rfl, rfl⟩ := Prod.mk.inj h
        obtain ⟨hs, hlength, hletters⟩ := ih (s := s) rfl
        refine ⟨by rw [List.cons_append, ← hs], by simpa using hlength, ?_⟩
        exact List.forall_mem_cons.2 ⟨hc, hletters⟩
      · obtain ⟨rfl, rfl⟩ := Prod.mk.inj h
        exact ⟨rfl, by simp, by simp⟩

theorem quote?_eq_some_iff {s rest : List Char} {q : Quote} :
    quote? s = some (q, rest) ↔ s = q.marks ++ rest := by
  constructor
  · intro h
    rw [quote?.eq_def] at h
    split at h
    · obtain ⟨rfl, rfl⟩ := Prod.mk.inj (Option.some.inj h)
      rfl
    · obtain ⟨rfl, rfl⟩ := Prod.mk.inj (Option.some.inj h)
      rfl
    · simp at h
  · rintro rfl
    cases q <;> rfl

theorem Quote.exists_marks (q : Quote) : ∃ c s, q.marks = c :: s ∧ c ≠ ' ' ∧ c ≠ '\t' ∧
    isLiteralPrefix c = false := by
  cases q <;> exact ⟨_, _, rfl, by decide, by decide, by decide⟩

/-- Letters and quotes are no part of the gap before them. -/
theorem skipTabsAndSpaces_letters {gap letters : List Char} (hgap : IsGap gap)
    (hletters : ∀ c ∈ letters, isLiteralPrefix c = true) (q : Quote) (s : List Char) :
    skipTabsAndSpaces (gap ++ (letters ++ (q.marks ++ s))) = letters ++ (q.marks ++ s) := by
  cases letters with
  | nil =>
    obtain ⟨c, s', hmarks, hblank, htab, _⟩ := q.exists_marks
    rw [hmarks]
    exact skipTabsAndSpaces_append hgap ⟨hblank, htab⟩ _
  | cons c letters =>
    refine skipTabsAndSpaces_append hgap ⟨?_, ?_⟩ _
    all_goals
      rintro rfl
      exact absurd (hletters _ List.mem_cons_self) (by decide)

/-- An opening is read from exactly what is written, whatever comes after it. -/
theorem Opening.parse?_eq_some_iff {s rest : List Char} {o : Opening} :
    Opening.parse? s = some (o, rest) ↔ ∃ t : OpeningText, t.opening = o ∧ s = t.text ++ rest := by
  constructor
  · intro h
    obtain ⟨⟨name, s₁⟩, hname, h⟩ := Option.bind_eq_some_iff.1 h
    obtain ⟨s₂, hequals, h⟩ := Option.bind_eq_some_iff.1 h
    obtain ⟨before, hbefore, hs₁⟩ := exists_gap s₁
    obtain ⟨after, hafter, hs₂⟩ := exists_gap s₂
    rcases htake : takeLetters 2 (skipTabsAndSpaces s₂) with ⟨letters, s₃⟩
    obtain ⟨hs₃, hlength, hletters⟩ := takeLetters_eq htake
    dsimp only at h
    rw [htake] at h
    obtain ⟨⟨quote, s₄⟩, hquote, h⟩ := Option.bind_eq_some_iff.1 h
    obtain ⟨rfl, rfl⟩ := Prod.mk.inj (Option.some.inj h)
    have hs₄ : s₃ = quote.marks ++ s₄ := quote?_eq_some_iff.1 hquote
    refine ⟨⟨name, before, after, letters, quote, hbefore, hafter, hlength, hletters⟩, rfl, ?_⟩
    rw [blockName?_eq_some_iff.1 hname, hs₁, after?_eq_some_iff.1 hequals, hs₂, hs₃, hs₄]
    simp [OpeningText.text, OpeningText.head]
  · rintro ⟨t, rfl, rfl⟩
    obtain ⟨c, s', hmarks, _, _, hletter⟩ := t.quote.exists_marks
    have htext : t.text ++ rest = t.name.word ++ (t.before ++ '=' :: (t.after ++
        (t.letters ++ (t.quote.marks ++ rest)))) := by
      simp [OpeningText.text, OpeningText.head]
    have hequals : after? ['='] ('=' :: (t.after ++ (t.letters ++ (t.quote.marks ++ rest)))) =
        some (t.after ++ (t.letters ++ (t.quote.marks ++ rest))) := after?_eq_some_iff.2 rfl
    have htake : takeLetters 2 (t.letters ++ (t.quote.marks ++ rest)) =
        (t.letters, t.quote.marks ++ rest) := by
      rw [hmarks]
      exact takeLetters_append t.length_letters t.isLiteralPrefix_letters hletter _
    rw [htext, Opening.parse?, blockName?_eq_some_iff.2 rfl, Option.bind_eq_bind, Option.bind_some]
    dsimp only
    rw [skipTabsAndSpaces_append t.isGap_before (by decide), hequals, Option.bind_eq_bind,
      Option.bind_some, skipTabsAndSpaces_letters t.isGap_after t.isLiteralPrefix_letters, htake]
    dsimp only
    rw [quote?_eq_some_iff.2 rfl]
    rfl

/-! ## Openings within a line -/

/-- A character that may stand before the quotes of an opening. -/
def isHeadChar (c : Char) : Bool :=
  c.isUpper || c.isLower || c == ' ' || c == '\t' || c == '='

theorem OpeningText.isHeadChar_head (t : OpeningText) : ∀ c ∈ t.head, isHeadChar c = true := by
  have hname : ∀ n : BlockName, ∀ c ∈ n.word, isHeadChar c = true := fun n =>
    List.all_eq_true.1 (by cases n <;> decide)
  have hgap : ∀ {gap}, IsGap gap → ∀ c ∈ gap, isHeadChar c = true := by
    intro gap hgap c hc
    rcases hgap c hc with rfl | rfl <;> decide
  have hletter : ∀ c ∈ t.letters, isHeadChar c = true := by
    intro c hc
    have h := t.isLiteralPrefix_letters c hc
    simp only [isLiteralPrefix, Bool.or_eq_true, beq_iff_eq] at h
    rcases h with ((((rfl | rfl) | rfl) | rfl) | rfl) | rfl <;> decide
  intro c hc
  simp only [OpeningText.head, List.mem_append, List.mem_cons] at hc
  rcases hc with hc | hc | rfl | hc | hc
  · exact hname _ c hc
  · exact hgap t.isGap_before c hc
  · rfl
  · exact hgap t.isGap_after c hc
  · exact hletter c hc

/-- An opening starts with the first letter of its name. -/
theorem OpeningText.exists_head (t : OpeningText) : ∃ c s, t.head = c :: s ∧ c.isUpper = true := by
  cases hname : t.name <;>
    exact ⟨_, _, by rw [OpeningText.head, hname]; rfl, by decide⟩

/-- An opening does not go on to the next line. -/
theorem OpeningText.newline_notMem (t : OpeningText) : '\n' ∉ t.text := by
  intro h
  rcases List.mem_append.1 h with h | h
  · exact absurd (t.isHeadChar_head _ h) (by decide)
  · exact absurd h (by cases t.quote <;> decide)

theorem OpeningText.parse?_text (t : OpeningText) (rest : List Char) :
    Opening.parse? (t.text ++ rest) = some (t.opening, rest) :=
  Opening.parse?_eq_some_iff.2 ⟨t, rfl, rfl⟩

/-- What does not start with a letter is no opening. -/
theorem parse?_cons_eq_none {c : Char} (h : c.isUpper = false) (s : List Char) :
    Opening.parse? (c :: s) = none := by
  cases hparse : Opening.parse? (c :: s) with
  | none => rfl
  | some found =>
    obtain ⟨t, _, hs⟩ := Opening.parse?_eq_some_iff.1 hparse
    obtain ⟨d, s', hhead, hd⟩ := t.exists_head
    rw [OpeningText.text, hhead] at hs
    rw [(List.cons.inj hs).1, hd] at h
    simp at h

/-- A line that is no opening is none whatever comes after it. -/
theorem parse?_line_eq_none {w : List Char} (h : Opening.parse? (w ++ ['\n']) = none)
    (s : List Char) : Opening.parse? (w ++ '\n' :: s) = none := by
  cases hparse : Opening.parse? (w ++ '\n' :: s) with
  | none => rfl
  | some found =>
    obtain ⟨t, _, hs⟩ := Opening.parse?_eq_some_iff.1 hparse
    obtain ⟨x, rfl, _⟩ := Text.exists_eq_append_of_notMem t.newline_notMem hs
    rw [List.append_assoc, t.parse?_text] at h
    simp at h

/-! ## Openings in a part of a text -/

/-- Whether a line starts at the end of a text. -/
def startsLine : (lineStart : Bool) → List Char → Bool
  | lineStart, [] => lineStart
  | _, c :: s => startsLine (c == '\n') s

/-- The openings that start in the first of two texts that follow each other, each with all of the
text after it. -/
def openingsIn : (lineStart : Bool) → List Char → List Char → List (Opening × List Char)
  | _, [], _ => []
  | lineStart, c :: s, rest =>
    let later := openingsIn (c == '\n') s rest
    match if lineStart then Opening.parse? (c :: (s ++ rest)) else none with
    | some found => found :: later
    | none => later

variable {s t rest : List Char} {lineStart : Bool}

/-- A text can be searched part by part. -/
theorem openingsFrom_append (lineStart : Bool) (s rest : List Char) :
    openingsFrom lineStart (s ++ rest) =
      openingsIn lineStart s rest ++ openingsFrom (startsLine lineStart s) rest := by
  induction s generalizing lineStart with
  | nil => rfl
  | cons c s ih =>
    rw [List.cons_append, openingsFrom, openingsIn, ih, startsLine]
    cases (if lineStart = true then Opening.parse? (c :: (s ++ rest)) else none) <;> rfl

theorem openingsIn_append (lineStart : Bool) (s t rest : List Char) :
    openingsIn lineStart (s ++ t) rest =
      openingsIn lineStart s (t ++ rest) ++ openingsIn (startsLine lineStart s) t rest := by
  induction s generalizing lineStart with
  | nil => rfl
  | cons c s ih =>
    rw [List.cons_append, openingsIn, openingsIn, ih, startsLine, List.append_assoc]
    cases (if lineStart = true then Opening.parse? (c :: (s ++ (t ++ rest))) else none) <;> rfl

theorem startsLine_append (lineStart : Bool) (s t : List Char) :
    startsLine lineStart (s ++ t) = startsLine (startsLine lineStart s) t := by
  induction s generalizing lineStart with
  | nil => rfl
  | cons c s ih => rw [List.cons_append, startsLine, ih, startsLine]

theorem startsLine_of_notMem (hne : s ≠ []) (hs : '\n' ∉ s) : startsLine lineStart s = false := by
  induction s generalizing lineStart with
  | nil => exact absurd rfl hne
  | cons c s ih =>
    rw [List.mem_cons, not_or] at hs
    have hc : (c == '\n') = false := by simpa using Ne.symm hs.1
    rw [startsLine, hc]
    by_cases hnil : s = []
    · rw [hnil, startsLine]
    · exact ih hnil hs.2

/-- Openings start at the start of a line only. -/
theorem openingsIn_false (hs : '\n' ∉ s) (rest : List Char) : openingsIn false s rest = [] := by
  induction s with
  | nil => rfl
  | cons c s ih =>
    rw [List.mem_cons, not_or] at hs
    have hc : (c == '\n') = false := by simpa using Ne.symm hs.1
    rw [openingsIn, hc, ih hs.2]
    rfl

/-- At most one opening starts on a line. -/
theorem openingsIn_true (hne : s ≠ []) (hs : '\n' ∉ s) (rest : List Char) :
    openingsIn true s rest = (Opening.parse? (s ++ rest)).toList := by
  cases s with
  | nil => exact absurd rfl hne
  | cons c s =>
    rw [List.mem_cons, not_or] at hs
    have hc : (c == '\n') = false := by simpa using Ne.symm hs.1
    rw [openingsIn, hc, openingsIn_false hs.2, if_pos rfl, List.cons_append]
    cases Opening.parse? (c :: (s ++ rest)) <;> rfl

theorem openingsIn_newline (lineStart : Bool) (rest : List Char) :
    openingsIn lineStart ['\n'] rest = [] := by
  cases lineStart with
  | false => rfl
  | true => rw [openingsIn, List.nil_append, if_pos rfl, parse?_cons_eq_none (by decide)]; rfl

/-- A line that is no opening has none, and the text after it starts a line. -/
theorem openingsIn_line (hs : '\n' ∉ s) (h : Opening.parse? (s ++ ['\n']) = none)
    (t rest : List Char) :
    openingsIn true (s ++ '\n' :: t) rest = openingsIn true t rest := by
  have hfirst : openingsIn true s ('\n' :: (t ++ rest)) = [] := by
    by_cases hne : s = []
    · rw [hne, openingsIn]
    · rw [openingsIn_true hne hs, parse?_line_eq_none h]
      rfl
  have hsplit : '\n' :: t = ['\n'] ++ t := rfl
  rw [openingsIn_append, List.cons_append, hfirst, hsplit, openingsIn_append, openingsIn_newline]
  rfl

theorem OpeningText.text_ne_nil (t : OpeningText) : t.text ≠ [] := by
  obtain ⟨c, s, h, _⟩ := t.exists_head
  rw [text, h]
  simp

/-- After an opening the search goes on within its line. -/
theorem OpeningText.openingsFrom_append (t : OpeningText) (rest : List Char) :
    openingsFrom true (t.text ++ rest) = (t.opening, rest) :: openingsFrom false rest := by
  rw [PluginDataset.Literal.openingsFrom_append, openingsIn_true t.text_ne_nil t.newline_notMem,
    t.parse?_text, startsLine_of_notMem t.text_ne_nil t.newline_notMem]
  rfl

/-- Closing quotes are no opening. -/
theorem openingsIn_marks (q : Quote) (lineStart : Bool) (rest : List Char) :
    openingsIn lineStart q.marks rest = [] := by
  have hnone : ∀ s, Opening.parse? (q.mark :: s) = none :=
    parse?_cons_eq_none (by cases q <;> decide)
  have hline : (q.mark == '\n') = false := by cases q <;> rfl
  rw [Quote.marks, openingsIn, hline, openingsIn_false (by cases q <;> decide)]
  cases lineStart
  · rfl
  · rw [List.cons_append, if_pos rfl, hnone]

theorem startsLine_marks (q : Quote) (lineStart : Bool) : startsLine lineStart q.marks = false := by
  cases q <;> rfl

/-! ## Program text -/

/-- A text that is empty or ends with a line feed. -/
def EndsLine (s : List Char) : Prop :=
  s = [] ∨ s.getLast? = some '\n'

/-- No line of a text opens a literal. -/
def IsProgramText (s : List Char) : Prop :=
  ∀ line ∈ Text.lines s, Opening.parse? line = none

instance : DecidablePred EndsLine := fun s =>
  inferInstanceAs (Decidable (s = [] ∨ s.getLast? = some '\n'))

instance : DecidablePred IsProgramText := fun s =>
  inferInstanceAs (Decidable (∀ line ∈ Text.lines s, Opening.parse? line = none))

theorem EndsLine.startsLine (h : EndsLine s) : startsLine true s = true := by
  rcases h with rfl | h
  · rfl
  · obtain ⟨s, rfl⟩ := List.getLast?_eq_some_iff.1 h
    rw [startsLine_append]
    rfl

theorem EndsLine.of_append (h : EndsLine (s ++ t)) : EndsLine t := by
  cases t with
  | nil => exact .inl rfl
  | cons c t => exact .inr (by simpa [EndsLine] using h)

/-- Nothing is found in program text, if its last line ends where the text does. -/
theorem IsProgramText.openingsIn_eq_nil (h : IsProgramText s) (hend : EndsLine s ∨ rest = []) :
    openingsIn true s rest = [] := by
  induction s using Text.lines_induction with
  | nil => rfl
  | last w hne hw =>
    have hrest : rest = [] := by
      refine hend.resolve_left fun hends => ?_
      have hstart := hends.startsLine
      rw [startsLine_of_notMem hne hw] at hstart
      simp at hstart
    rw [IsProgramText, Text.lines_of_notMem hne hw] at h
    rw [openingsIn_true hne hw, hrest, List.append_nil, h w List.mem_cons_self]
    rfl
  | line w s hw ih =>
    rw [IsProgramText, Text.lines_append_newline hw, List.forall_mem_cons] at h
    rw [openingsIn_line hw h.1]
    refine ih h.2 (hend.imp_left fun hends => ?_)
    rw [List.append_cons] at hends
    exact hends.of_append

end PluginDataset.Literal
