import PluginDataset.Literal.Blocks
import PluginDataset.Proofs.Literal.Closing

/-!
# Reading back literals

A text is written as a literal with a backslash before every backslash and every quote. The search
for openings, the search for the closing quotes and the decoding of escapes agree on such a literal:
nothing opens inside it, it closes at its own quotes, and it stands for the text.

## Main definitions

* `Literal.escape` writes a text with backslashes.
* `Literal.Assignment` is a literal that is assigned to a name.
* `Literal.Program` is a source text with such assignments and other text between them;
  `Literal.reorderedProgram` is one with all three literals.

## Main results

* `Literal.unescape_escape`: a written text is decoded.
* `Literal.splitClosing?_escape`: a written text is closed by its own quotes.
* `Literal.openingsIn_escape`: nothing opens inside a written text.
* `Literal.Program.blocks_source`: exactly the texts of the assignments are read back.
-/

namespace PluginDataset.Literal

/-! ## Written texts -/

/-- A character that is written with a backslash before it. -/
def isSpecial (c : Char) : Bool :=
  c == '\\' || c == '\'' || c == '"'

def escapedMark (c : Char) : List Char :=
  if isSpecial c then ['\\', c] else [c]

/-- A text with a backslash before every backslash and every quote. -/
def escape (value : List Char) : List Char :=
  value.flatMap escapedMark

variable {q : Quote} {value s rest : List Char}

theorem isSpecial_mark (q : Quote) : isSpecial q.mark = true := by
  cases q <;> rfl

theorem ne_mark_of_isSpecial {c : Char} (h : isSpecial c = false) (q : Quote) :
    c ≠ '\\' ∧ c ≠ q.mark := by
  refine ⟨?_, ?_⟩
  · rintro rfl
    exact absurd h (by decide)
  · rintro rfl
    simp [isSpecial_mark] at h

/-- A text without backslashes and quotes is written as it is. -/
theorem escape_of_plain (h : ∀ c ∈ value, isSpecial c = false) : escape value = value := by
  induction value with
  | nil => rfl
  | cons c value ih =>
    rw [List.forall_mem_cons] at h
    rw [escape, List.flatMap_cons, escapedMark, h.1]
    exact congrArg (c :: ·) (ih h.2)

/-- One written character is decoded. -/
theorem unescapeFrom_escapedMark (c : Char) (s : List Char) :
    unescapeFrom .text (escapedMark c ++ s) = (unescapeFrom .text s).map (c :: ·) := by
  rw [escapedMark]
  split
  · next h =>
    simp only [isSpecial, Bool.or_eq_true, beq_iff_eq] at h
    rcases h with (rfl | rfl) | rfl
    all_goals
      cases hs : unescapeFrom .text s <;>
        simp [unescapeFrom, EscapeState.step, afterText, afterBackslash, escapedLetter?, hs,
          bind, Except.bind, pure, Except.pure, Except.map]
  · next h =>
    have hslash : c ≠ '\\' := by
      rintro rfl
      exact h rfl
    cases hs : unescapeFrom .text s <;>
      simp [unescapeFrom, EscapeState.step, afterText, hslash, hs, bind, Except.bind, pure,
        Except.pure, Except.map]

/-- A written text is decoded. -/
theorem unescape_escape (value : List Char) : unescape (escape value) = .ok value := by
  rw [unescape, escape]
  induction value with
  | nil => rfl
  | cons c value ih => rw [List.flatMap_cons, unescapeFrom_escapedMark, ih]; rfl

/-- A written text is closed by its own quotes. -/
theorem splitClosing?_escape (q : Quote) (value s : List Char) :
    splitClosing? q (escape value ++ (q.marks ++ s)) = some (escape value, s) := by
  induction value with
  | nil => exact splitClosing?_marks q s
  | cons c value ih =>
    rw [escape, List.flatMap_cons, ← escape, List.append_assoc, escapedMark]
    split
    · rw [List.cons_append, List.cons_append, List.nil_append, splitClosing?_backslash, ih]
      rfl
    · next h =>
      obtain ⟨hslash, hmark⟩ := ne_mark_of_isSpecial (by simpa using h) q
      rw [List.cons_append, List.nil_append, splitClosing?_cons hslash hmark, ih]
      rfl

/-- In a written text a backslash stands before the first quote of a line, so that the line is no
opening. -/
theorem escape_append_ne {head : List Char} (hvalue : '\n' ∈ value)
    (hhead : ∀ c ∈ head, c ≠ '\n' ∧ isSpecial c = false) {c : Char} (hc : isSpecial c = true)
    (hslash : c ≠ '\\') (s rest : List Char) : escape value ++ s ≠ head ++ c :: rest := by
  induction value generalizing head with
  | nil => exact absurd hvalue List.not_mem_nil
  | cons d value ih =>
    rw [escape, List.flatMap_cons, ← escape, List.append_assoc, escapedMark]
    intro h
    cases head with
    | nil =>
      split at h
      · exact hslash (List.cons.inj h).1.symm
      · next hd =>
        rw [(List.cons.inj h).1] at hd
        exact hd hc
    | cons e head =>
      rw [List.forall_mem_cons] at hhead
      split at h
      · rw [← (List.cons.inj h).1] at hhead
        exact absurd hhead.1.2 (by decide)
      · obtain ⟨rfl, hrest⟩ := List.cons.inj h
        have hmem : '\n' ∈ value := (List.mem_cons.1 hvalue).resolve_left hhead.1.1.symm
        exact ih hmem hhead.2 hrest

theorem parse?_escape_eq_none (hvalue : '\n' ∈ value) (s : List Char) :
    Opening.parse? (escape value ++ s) = none := by
  cases h : Opening.parse? (escape value ++ s) with
  | none => rfl
  | some found =>
    obtain ⟨t, _, hs⟩ := Opening.parse?_eq_some_iff.1 h
    have hhead : ∀ c ∈ t.head, c ≠ '\n' ∧ isSpecial c = false := by
      intro c hc
      have hchar := t.isHeadChar_head c hc
      constructor
      · rintro rfl
        exact absurd hchar (by decide)
      · by_contra hspecial
        simp only [isSpecial, Bool.not_eq_false, Bool.or_eq_true, beq_iff_eq] at hspecial
        rcases hspecial with (rfl | rfl) | rfl <;> exact absurd hchar (by decide)
    rw [OpeningText.text, List.append_assoc, Quote.marks] at hs
    have hmark : t.quote.mark ≠ '\\' := by cases t.quote <;> decide
    exact absurd hs (escape_append_ne hvalue hhead (isSpecial_mark t.quote) hmark _ _)

/-- Nothing opens inside a written text. -/
theorem openingsIn_escape (h : EndsLine value) (lineStart : Bool) (rest : List Char) :
    openingsIn lineStart (escape value) rest = [] := by
  induction value generalizing lineStart with
  | nil => rfl
  | cons c value ih =>
    have hmem : '\n' ∈ c :: value := by
      rcases h with h | h
      · simp at h
      · exact List.mem_of_getLast? h
    have hparse := parse?_escape_eq_none hmem rest
    have hrest : EndsLine value := EndsLine.of_append (s := [c]) h
    rw [escape, List.flatMap_cons, ← escape] at hparse ⊢
    rw [openingsIn_append, ih hrest, List.append_nil]
    rw [List.append_assoc] at hparse
    rw [escapedMark] at hparse ⊢
    split at hparse
    · next hc =>
      -- the line starts with a backslash, and the character after it starts no line
      have hslash : ∀ s, Opening.parse? ('\\' :: s) = none := parse?_cons_eq_none (by decide)
      have hfalse : ('\\' == '\n') = false := rfl
      rw [if_pos hc, openingsIn, openingsIn, hslash, hfalse]
      cases lineStart <;> rfl
    · next hc =>
      rw [if_neg hc, openingsIn]
      rw [List.cons_append] at hparse
      rw [hparse]
      cases lineStart <;> rfl

/-! ## Assignments -/

/-- A literal that is assigned to a name. Without escapes only a text that needs none can be
written. -/
structure Assignment extends OpeningText where
  value : List Char
  endsLine_value : EndsLine value
  plain_of_raw : toOpeningText.raw = true → ∀ c ∈ value, isSpecial c = false

namespace Assignment

/-- What stands between the quotes. -/
def written (a : Assignment) : List Char :=
  if a.raw then a.value else escape a.value

def source (a : Assignment) : List Char :=
  a.text ++ (a.written ++ a.quote.marks)

theorem written_eq_escape (a : Assignment) : a.written = escape a.value := by
  rw [written]
  split
  · next h => exact (escape_of_plain (a.plain_of_raw h)).symm
  · rfl

/-- The text of an assignment is read back, whatever comes after it. -/
theorem text_opening (a : Assignment) (rest : List Char) :
    a.opening.text (a.written ++ (a.quote.marks ++ rest)) = .ok a.value := by
  have hbody : body? a.opening.quote (a.written ++ (a.quote.marks ++ rest)) = some a.written := by
    rw [body?_eq, written_eq_escape]
    show (splitClosing? a.quote (escape a.value ++ (a.quote.marks ++ rest))).map _ = _
    rw [splitClosing?_escape]
    rfl
  rw [Opening.text, hbody]
  dsimp only
  have hopening : a.opening.raw = a.raw := rfl
  by_cases hraw : a.raw = true
  · rw [hopening, if_pos hraw, written, if_pos hraw]
  · rw [hopening, if_neg hraw, written, if_neg hraw, unescape_escape]
    rfl

end Assignment

/-! ## Programs -/

/-- A source text with assignments to distinct names. The texts between them open no literal; those
after an assignment start on its line with a line feed, and another assignment starts a line. -/
structure Program where
  before : List Char
  parts : List (Assignment × List Char)
  nodup : (parts.map (·.1.name)).Nodup
  isProgramText_before : IsProgramText before
  endsLine_before : EndsLine before
  isProgramText_after : ∀ p ∈ parts, IsProgramText p.2
  head?_after : ∀ p ∈ parts, p.2.head? = some '\n'
  endsLine_after : ∀ p ∈ parts.dropLast, EndsLine p.2

/-- Assignments, each with the text after it. -/
def sourceOf (parts : List (Assignment × List Char)) : List Char :=
  parts.flatMap fun p => p.1.source ++ p.2

/-- The text that is assigned to a name. -/
def valueOf? (name : BlockName) (parts : List (Assignment × List Char)) : Option (List Char) :=
  (parts.find? fun p => p.1.name == name).map (·.1.value)

/-- The openings of assignments. -/
def openingsOf : List (Assignment × List Char) → List (Opening × List Char)
  | [] => []
  | p :: parts =>
    (p.1.opening, p.1.written ++ (p.1.quote.marks ++ (p.2 ++ sourceOf parts))) :: openingsOf parts

def Program.source (p : Program) : List Char :=
  p.before ++ sourceOf p.parts

/-- An assignment opens one literal, and the text after its quotes starts no line. -/
theorem openingsFrom_source (a : Assignment) (rest : List Char) :
    openingsFrom true (a.source ++ rest) =
      (a.opening, a.written ++ (a.quote.marks ++ rest)) :: openingsFrom false rest := by
  have hsource : a.source ++ rest = a.text ++ (a.written ++ (a.quote.marks ++ rest)) := by
    simp [Assignment.source]
  have hwritten : ∀ lineStart rest, openingsIn lineStart a.written rest = [] := by
    rw [a.written_eq_escape]
    exact openingsIn_escape a.endsLine_value
  rw [hsource, a.openingsFrom_append, openingsFrom_append, hwritten, openingsFrom_append,
    openingsIn_marks, startsLine_marks]
  rfl

/-- Text that starts with a line feed is searched as if it started a line. -/
theorem openingsFrom_after {after : List Char} (hafter : IsProgramText after)
    (hhead : after.head? = some '\n') {rest : List Char} (hend : EndsLine after ∨ rest = []) :
    openingsFrom false (after ++ rest) = openingsFrom true rest := by
  obtain ⟨s, rfl⟩ := List.head?_eq_some_iff.1 hhead
  have hnone : Opening.parse? ('\n' :: (s ++ rest)) = none := parse?_cons_eq_none (by decide) _
  have hstart : openingsFrom false ('\n' :: s ++ rest) = openingsFrom true ('\n' :: s ++ rest) := by
    rw [List.cons_append, openingsFrom, openingsFrom, hnone]
    rfl
  rw [hstart, openingsFrom_append, hafter.openingsIn_eq_nil hend, List.nil_append]
  rcases hend with hend | rfl
  · rw [hend.startsLine]
  · rfl

theorem openingsFrom_sourceOf {parts : List (Assignment × List Char)}
    (hafter : ∀ p ∈ parts, IsProgramText p.2) (hhead : ∀ p ∈ parts, p.2.head? = some '\n')
    (hend : ∀ p ∈ parts.dropLast, EndsLine p.2) :
    openingsFrom true (sourceOf parts) = openingsOf parts := by
  induction parts with
  | nil => rfl
  | cons p parts ih =>
    rw [List.forall_mem_cons] at hafter hhead
    have hlast : EndsLine p.2 ∨ sourceOf parts = [] := by
      cases parts with
      | nil => exact .inr rfl
      | cons p' parts => exact .inl (hend p List.mem_cons_self)
    have hrest : ∀ p ∈ parts.dropLast, EndsLine p.2 := by
      intro p' hp'
      cases parts with
      | nil => exact absurd hp' List.not_mem_nil
      | cons _ _ => exact hend p' (List.mem_cons_of_mem _ hp')
    rw [sourceOf, List.flatMap_cons, ← sourceOf, List.append_assoc, openingsFrom_source,
      openingsFrom_after hafter.1 hhead.1 hlast, ih hafter.2 hhead.2 hrest, openingsOf]

/-! ## Bindings -/

theorem Blocks.get?_set (b : Blocks) (text : List Char) (m n : BlockName) :
    (b.set text m).get? n = if n = m then some text else b.get? n := by
  cases m <;> cases n <;> rfl

/-- Assignments to names that are not bound yet bind exactly their texts. -/
theorem foldlM_openingsOf {parts : List (Assignment × List Char)}
    (hnodup : (parts.map (·.1.name)).Nodup) {b : Blocks}
    (hb : ∀ p ∈ parts, b.get? p.1.name = none) :
    ∃ b', (openingsOf parts).foldlM Blocks.add b = .ok b' ∧
      ∀ name, b'.get? name = (valueOf? name parts).or (b.get? name) := by
  induction parts generalizing b with
  | nil => exact ⟨b, rfl, fun name => rfl⟩
  | cons p parts ih =>
    obtain ⟨a, after⟩ := p
    rw [List.forall_mem_cons] at hb
    rw [List.map_cons, List.nodup_cons] at hnodup
    have hadd : b.add (a.opening, a.written ++ (a.quote.marks ++ (after ++ sourceOf parts))) =
        .ok (b.set a.value a.name) := by
      have hname : ¬(b.get? a.opening.name).isSome = true := by
        rw [show b.get? a.opening.name = none from hb.1]
        simp
      rw [Blocks.add, if_neg hname, a.text_opening]
      rfl
    have hrest : ∀ p ∈ parts, (b.set a.value a.name).get? p.1.name = none := by
      intro p hp
      have hne : p.1.name ≠ a.name := by
        rintro heq
        exact hnodup.1 (List.mem_map.2 ⟨p, hp, heq⟩)
      rw [Blocks.get?_set, if_neg hne]
      exact hb.2 p hp
    obtain ⟨b', hfold, hget⟩ := ih hnodup.2 hrest
    refine ⟨b', ?_, fun name => ?_⟩
    · rw [openingsOf, List.foldlM_cons, hadd]
      exact hfold
    · rw [hget, Blocks.get?_set, valueOf?, valueOf?, List.find?_cons]
      by_cases heq : name = a.name
      · subst heq
        have hnone : parts.find? (fun p => p.1.name == a.name) = none := by
          rw [List.find?_eq_none]
          intro p hp h
          exact hnodup.1 (List.mem_map.2 ⟨p, hp, by simpa using h⟩)
        simp [hnone]
      · have hne : (a.name == name) = false := by simpa using Ne.symm heq
        rw [if_neg heq, hne]

/-- Exactly the texts of the assignments are read back, each under its name. -/
theorem Program.blocks_source (p : Program) :
    ∃ b, blocks p.source = .ok b ∧ ∀ name, b.get? name = valueOf? name p.parts := by
  have hopenings : openings p.source = openingsOf p.parts := by
    rw [openings, source, openingsFrom_append,
      p.isProgramText_before.openingsIn_eq_nil (.inl p.endsLine_before),
      p.endsLine_before.startsLine,
      openingsFrom_sourceOf p.isProgramText_after p.head?_after p.endsLine_after]
    rfl
  have hunbound : ∀ part ∈ p.parts, ({} : Blocks).get? part.1.name = none := by
    intro part _
    cases part.1.name <;> rfl
  obtain ⟨b, hfold, hget⟩ := foldlM_openingsOf p.nodup hunbound
  refine ⟨b, ?_, fun name => ?_⟩
  · rw [blocks, hopenings, hfold]
  · rw [hget name]
    cases name <;> simp [Blocks.get?]

/-! ## A program with its literals in another order -/

def returnedAnswer : Assignment where
  name := .returns
  before := [' ']
  after := [' ']
  letters := []
  quote := .double
  isGap_before := by decide
  isGap_after := by decide
  length_letters := by decide
  isLiteralPrefix_letters := List.all_eq_true.1 rfl
  value := "it's \"pong\"\n".toList
  endsLine_value := by decide
  plain_of_raw := by decide

def rawExample : Assignment where
  name := .examples
  before := []
  after := []
  letters := ['b', 'R']
  quote := .single
  isGap_before := by decide
  isGap_after := by decide
  length_letters := by decide
  isLiteralPrefix_letters := List.all_eq_true.1 rfl
  value := "- ping: on\n".toList
  endsLine_value := by decide
  plain_of_raw _ c hc := by
    have hplain : "- ping: on\n".toList.all (!isSpecial ·) = true := rfl
    simpa using List.all_eq_true.1 hplain c hc

def describedModule : Assignment where
  name := .documentation
  before := [' ']
  after := [' ', '\t']
  letters := ['u']
  quote := .single
  isGap_before := by decide
  isGap_after := by decide
  length_letters := by decide
  isLiteralPrefix_letters := List.all_eq_true.1 rfl
  value := "module: ping\nhome: C:\\'s\n".toList
  endsLine_value := by decide
  plain_of_raw := by decide

/-- The return values come first and the documentation comes last. Only the examples are raw. -/
def reorderedProgram : Program where
  before := "import os\n".toList
  parts := [(returnedAnswer, "\n\nNAMES = []\n".toList), (rawExample, "\n".toList),
    (describedModule, "\nmain()".toList)]
  nodup := by decide
  isProgramText_before := by decide
  endsLine_before := by decide
  isProgramText_after := by decide
  head?_after := by decide
  endsLine_after := by decide

/-- Its texts are read back, each under its name. -/
theorem Program.blocks_source_reordered :
    reorderedProgram.source =
      ("import os\nRETURN = \"\"\"it\\'s \\\"pong\\\"\n\"\"\"\n\nNAMES = []\n" ++
        "EXAMPLES=bR'''- ping: on\n'''\n" ++
        "DOCUMENTATION = \tu'''module: ping\nhome: C:\\\\\\'s\n'''\nmain()").toList ∧
    ∃ b, blocks reorderedProgram.source = .ok b ∧
      b.get? .documentation = some "module: ping\nhome: C:\\'s\n".toList ∧
      b.get? .examples = some "- ping: on\n".toList ∧
      b.get? .returns = some "it's \"pong\"\n".toList := by
  refine ⟨by decide +kernel, ?_⟩
  obtain ⟨b, hblocks, hget⟩ := reorderedProgram.blocks_source
  exact ⟨b, hblocks, hget .documentation, hget .examples, hget .returns⟩

end PluginDataset.Literal
