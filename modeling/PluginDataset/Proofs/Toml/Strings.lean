import PluginDataset.Toml.Text

/-!
# Reading back strings

A string is written in one of four forms, and read back from each of them. Between quotes every
character stands for itself, or is written as an escape. Between triple quotes at most two quotes in
a row stand for themselves; those at the end of the string run into the closing ones, of which the
last three count.

## Main definitions

* `Toml.Escapes` says that a text between double quotes stands for a character.

## Main results

* `Toml.basic?_flatMap_escapedChar`, `Toml.literal?_append`: strings on one line.
* `Toml.tripleBasic?_escapedBetweenTriples`, `Toml.tripleLiteral?_append`: strings of several lines.
* `Toml.readString?_stringText`: a string is read back from its text.
-/

namespace PluginDataset.Toml

/-! ## Runs of quotes -/

theorem le_longestRun (mark : Char) (run best : Nat) (s : List Char) :
    run ≤ longestRun mark run best s ∧ best ≤ longestRun mark run best s := by
  induction s generalizing run best with
  | nil => exact ⟨Nat.le_max_left run best, Nat.le_max_right run best⟩
  | cons c cs ih =>
    rw [longestRun]
    split
    · exact ⟨Nat.le_trans (Nat.le_succ run) (ih (run + 1) best).1, (ih (run + 1) best).2⟩
    · have h := (ih 0 (max run best)).2
      exact ⟨Nat.le_trans (Nat.le_max_left run best) h, Nat.le_trans (Nat.le_max_right run best) h⟩

/-- Marks in a row anywhere in a text are counted. -/
theorem le_longestRun_of_isInfix {mark : Char} {k : Nat} {s : List Char}
    (h : List.replicate k mark <:+: s) (run best : Nat) : k ≤ longestRun mark run best s := by
  obtain ⟨before, after, rfl⟩ := h
  rw [List.append_assoc]
  induction before generalizing run best with
  | nil =>
    rw [List.nil_append]
    have hmarks : longestRun mark run best (List.replicate k mark ++ after) =
        longestRun mark (run + k) best after := by
      induction k generalizing run with
      | zero => rfl
      | succ k ih =>
        rw [List.replicate_succ, List.cons_append, longestRun, if_pos rfl, ih, Nat.add_assoc,
          Nat.add_comm 1]
    rw [hmarks]
    exact Nat.le_trans (Nat.le_add_left k run) (le_longestRun mark (run + k) best after).1
  | cons c before ih =>
    rw [List.cons_append, longestRun]
    split
    · exact ih (run + 1) best
    · exact ih 0 (max run best)

/-- Up to two quotes in front of the closing three belong to the string. -/
theorem closeTriple_replicate {quote : Char} {k : Nat} (hk : k ≤ 2) {rest : List Char}
    (hrest : rest.head? ≠ some quote) :
    closeTriple quote (List.replicate k quote ++ rest) = (List.replicate k quote, rest) := by
  match k, rest with
  | 0, [] => rfl
  | 0, [a] => simp_all [closeTriple]
  | 0, a :: b :: rest => simp_all [closeTriple]
  | 1, [] => simp [closeTriple]
  | 1, a :: rest => simp_all [closeTriple, List.replicate]
  | 2, rest => simp [closeTriple, List.replicate]

/-! ## Escapes -/

theorem ne_break_of_isTextChar {c : Char} (h : isTextChar c = true) : c ≠ '\n' ∧ c ≠ '\r' := by
  constructor
  · rintro rfl
    exact absurd h (by decide)
  · rintro rfl
    exact absurd h (by decide)

/-- A text between double quotes that stands for a character. -/
inductive Escapes : Char → List Char → Prop where
  | letter {c x : Char} (h : escapedLetter? x = some c) : Escapes c ['\\', x]
  | code {c a b x y : Char} (h : codePoint? [a, b, x, y] = some c) :
    Escapes c ['\\', 'u', a, b, x, y]
  | plain {c : Char} (h : isTextChar c = true) (hquote : c ≠ '"') (hbackslash : c ≠ '\\') :
    Escapes c [c]

/-- What stands for a character starts neither with a quote nor with a line break. -/
theorem Escapes.exists_cons {c : Char} {text : List Char} (h : Escapes c text) :
    ∃ d rest, text = d :: rest ∧ d ≠ '"' ∧ d ≠ '\n' ∧ d ≠ '\r' := by
  cases h with
  | letter => exact ⟨'\\', _, rfl, by decide, by decide, by decide⟩
  | code => exact ⟨'\\', _, rfl, by decide, by decide, by decide⟩
  | plain h hquote _ => exact ⟨c, [], rfl, hquote, ne_break_of_isTextChar h⟩

/-- A control character is read back from its code. -/
theorem codePoint?_hexByte {c : Char} (h : c.toNat < 0x80) :
    codePoint? (['0', '0'] ++ (Text.hexByte (UInt8.ofNat c.toNat)).map Char.toUpper) = some c := by
  have all : ∀ n < 0x80, codePoint? (['0', '0'] ++ (Text.hexByte (UInt8.ofNat n)).map Char.toUpper) =
      some (Char.ofNat n) := by decide
  rw [all c.toNat h, Char.ofNat_toNat]

/-- Every character is written as a text that stands for it, line breaks between triple quotes
apart. -/
theorem escapes_escapedChar (breaks : Bool) {c : Char} (h : breaks = true → c ≠ '\n') :
    Escapes c (escapedChar breaks c) := by
  unfold escapedChar
  split
  · exact .letter rfl
  · exact .letter rfl
  · cases breaks with
    | true => exact absurd rfl (h rfl)
    | false => exact .letter rfl
  · exact .letter rfl
  · exact .letter rfl
  · exact .letter rfl
  · exact .letter rfl
  · next hquote hbackslash =>
    split
    · next hcontrol => exact .code (codePoint?_hexByte (by omega))
    · next hcontrol =>
      refine .plain ?_ hquote hbackslash
      simp only [isTextChar, Bool.or_eq_true, Bool.and_eq_true, decide_eq_true_eq, bne_iff_ne]
      omega

/-! ## Single characters -/

/-- A character between triple double quotes stands for itself, unless it is the first of three
quotes. -/
theorem tripleBasic?_cons {c : Char} (h : isTextChar c = true) (hbackslash : c ≠ '\\')
    {rest : List Char} (hquotes : ∀ more, c = '"' → rest ≠ '"' :: '"' :: more) :
    tripleBasic? false (c :: rest) = consChar c (tripleBasic? false rest) := by
  obtain ⟨hnewline, hreturn⟩ := ne_break_of_isTextChar h
  rw [tripleBasic?, if_pos h]
  all_goals simp_all

/-- A character between triple single quotes stands for itself, unless it is the first of three
quotes. -/
theorem tripleLiteral?_cons {c : Char} (h : isTextChar c = true) {rest : List Char}
    (hquotes : ∀ more, c = '\'' → rest ≠ '\'' :: '\'' :: more) :
    tripleLiteral? (c :: rest) = consChar c (tripleLiteral? rest) := by
  obtain ⟨hnewline, hreturn⟩ := ne_break_of_isTextChar h
  rw [tripleLiteral?, if_pos h]
  all_goals simp_all

/-- A letter that stands for a character does not start a code. -/
theorem ne_of_escapedLetter? {c x : Char} (h : escapedLetter? x = some c) : x ≠ 'u' ∧ x ≠ 'U' := by
  constructor
  · rintro rfl
    simp [escapedLetter?] at h
  · rintro rfl
    simp [escapedLetter?] at h

/-- What stands for a character is read as this character. -/
theorem Escapes.basic?_append {c : Char} {text : List Char} (h : Escapes c text)
    (rest : List Char) : basic? (text ++ rest) = consChar c (basic? rest) := by
  cases h with
  | letter h =>
    obtain ⟨hu, hU⟩ := ne_of_escapedLetter? h
    simp [basic?, h, hu, hU]
  | code h => simp [basic?, h]
  | plain h hquote hbackslash => simp [basic?, h, hbackslash]

theorem Escapes.tripleBasic?_append {c : Char} {text : List Char} (h : Escapes c text)
    (rest : List Char) :
    tripleBasic? false (text ++ rest) = consChar c (tripleBasic? false rest) := by
  cases h with
  | letter h =>
    obtain ⟨hu, hU⟩ := ne_of_escapedLetter? h
    simp [tripleBasic?, h, hu, hU]
  | code h => simp [tripleBasic?, h]
  | plain h hquote hbackslash =>
    exact tripleBasic?_cons h hbackslash fun _ heq => absurd heq hquote

/-- The text of a character between triple double quotes is read as this character. -/
theorem tripleBasic?_escapedChar (c : Char) (rest : List Char) :
    tripleBasic? false (escapedChar true c ++ rest) = consChar c (tripleBasic? false rest) := by
  by_cases hbreak : c = '\n'
  · subst hbreak
    simp [escapedChar, tripleBasic?]
  · exact (escapes_escapedChar true fun _ => hbreak).tripleBasic?_append rest

/-! ## Strings on one line -/

theorem basic?_flatMap_escapedChar (s rest : List Char) :
    basic? (s.flatMap (escapedChar false) ++ '"' :: rest) = some (s, rest) := by
  induction s with
  | nil => rfl
  | cons c cs ih =>
    have hc : Escapes c (escapedChar false c) := escapes_escapedChar false (by simp)
    rw [List.flatMap_cons, List.append_assoc, hc.basic?_append, ih]
    rfl

theorem literal?_append {s : List Char} (htext : ∀ c ∈ s, isTextChar c = true) (hs : '\'' ∉ s)
    (rest : List Char) : literal? (s ++ '\'' :: rest) = some (s, rest) := by
  induction s with
  | nil => rfl
  | cons c cs ih =>
    obtain ⟨hc, hcs⟩ := List.forall_mem_cons.1 htext
    rw [List.mem_cons, not_or] at hs
    rw [List.cons_append, literal?, if_pos hc, ih hcs hs.2]
    · rfl
    · exact Ne.symm hs.1

/-! ## Strings of several lines -/

/-- The text of a character does not start with a quote, since quotes have a backslash. -/
theorem head?_escapedChar_append (c : Char) (rest : List Char) :
    (escapedChar true c ++ rest).head? ≠ some '"' := by
  by_cases hbreak : c = '\n'
  · subst hbreak
    simp [escapedChar]
  · obtain ⟨d, tail, htext, hquote, _⟩ :=
      (escapes_escapedChar true fun _ => hbreak).exists_cons
    rw [htext]
    simpa using hquote

/-- After two quotes without a backslash comes no third one. -/
theorem head?_escapedBetweenTriples {run : Nat} {c : Char} (h : ¬(c = '"' ∧ run < 2))
    (cs rest : List Char) :
    (escapedBetweenTriples run (c :: cs) ++ rest).head? ≠ some '"' := by
  rw [escapedBetweenTriples, if_neg h, List.append_assoc]
  exact head?_escapedChar_append c _

/-- Where a quote without a backslash stands before a text, two more come only at the end of it. -/
theorem eq_of_two_quotes {run : Nat} (hrun : 1 ≤ run) {s rest more : List Char}
    (h : escapedBetweenTriples run s ++ '"' :: '"' :: '"' :: rest = '"' :: '"' :: more) :
    s = [] ∨ s = ['"'] ∧ run = 1 := by
  cases s with
  | nil => exact .inl rfl
  | cons c cs =>
    have hfirst : c = '"' ∧ run < 2 := Classical.byContradiction fun hescaped =>
      head?_escapedBetweenTriples hescaped cs _ (by rw [h]; rfl)
    obtain ⟨rfl, hlt⟩ := hfirst
    obtain rfl : run = 1 := by omega
    cases cs with
    | nil => exact .inr ⟨rfl, rfl⟩
    | cons d ds =>
      rw [escapedBetweenTriples, if_pos ⟨rfl, hlt⟩, List.cons_append] at h
      have hescaped : ¬(d = '"' ∧ 1 + 1 < 2) := by simp
      have hsecond := head?_escapedBetweenTriples hescaped ds ('"' :: '"' :: '"' :: rest)
      exact absurd (by rw [(List.cons.inj h).2]; rfl) hsecond

/-- A string that ends in quotes without a backslash is closed by the last three quotes. -/
theorem tripleBasic?_replicate {k : Nat} (hk : k ≤ 2) {rest : List Char}
    (hrest : rest.head? ≠ some '"') :
    tripleBasic? false (List.replicate k '"' ++ '"' :: '"' :: '"' :: rest) =
      some (List.replicate k '"', rest) := by
  have hquotes : List.replicate k '"' ++ '"' :: '"' :: '"' :: rest =
      '"' :: '"' :: '"' :: (List.replicate k '"' ++ rest) := by
    match k with
    | 0 => rfl
    | 1 => rfl
    | 2 => rfl
  rw [hquotes, tripleBasic?, closeTriple_replicate hk hrest]

/-- A string is read back from its text between triple double quotes. Up to two quotes without a
backslash may stand before the text. -/
theorem tripleBasic?_escapedBetweenTriples {run : Nat} (hrun : run ≤ 2) (s : List Char)
    {rest : List Char} (hrest : rest.head? ≠ some '"') :
    tripleBasic? false (escapedBetweenTriples run s ++ '"' :: '"' :: '"' :: rest) =
      some (s, rest) := by
  induction s generalizing run with
  | nil => exact tripleBasic?_replicate (Nat.zero_le 2) hrest
  | cons c cs ih =>
    by_cases hbare : c = '"' ∧ run < 2
    · obtain ⟨rfl, hlt⟩ := hbare
      rw [escapedBetweenTriples, if_pos ⟨rfl, hlt⟩, List.cons_append]
      -- the quote is the first of three if no more than one comes between it and the end
      by_cases hends : cs = [] ∨ cs = ['"'] ∧ run + 1 = 1
      · rcases hends with rfl | ⟨rfl, hrun⟩
        · exact tripleBasic?_replicate (Nat.le_succ 1) hrest
        · rw [hrun]
          exact tripleBasic?_replicate (Nat.le_refl 2) hrest
      · rw [tripleBasic?_cons rfl (by decide) fun _ _ heq =>
            hends (eq_of_two_quotes (Nat.le_add_left 1 run) heq), ih hlt]
        rfl
    · rw [escapedBetweenTriples, if_neg hbare, List.append_assoc, tripleBasic?_escapedChar,
        ih (Nat.zero_le 2)]
      rfl

/-- A string without three single quotes in a row is read back between triple single quotes. -/
theorem tripleLiteral?_append {s : List Char} (htext : ∀ c ∈ s, isTextChar c = true ∨ c = '\n')
    (hs : ¬List.replicate 3 '\'' <:+: s) {rest : List Char} (hrest : rest.head? ≠ some '\'') :
    tripleLiteral? (s ++ '\'' :: '\'' :: '\'' :: rest) = some (s, rest) := by
  have hcloses {k : Nat} (hk : k ≤ 2) :
      tripleLiteral? ('\'' :: '\'' :: '\'' :: (List.replicate k '\'' ++ rest)) =
        some (List.replicate k '\'', rest) := by
    rw [tripleLiteral?, closeTriple_replicate hk hrest]
  induction s with
  | nil => exact hcloses (Nat.zero_le 2)
  | cons c cs ih =>
    obtain ⟨hc, hcs⟩ := List.forall_mem_cons.1 htext
    have hread := ih hcs fun hmarks => hs (hmarks.trans (List.suffix_cons c cs).isInfix)
    rcases hc with hc | rfl
    · by_cases hends : c = '\'' ∧ (cs = [] ∨ cs = ['\''])
      · obtain ⟨rfl, rfl | rfl⟩ := hends
        · exact hcloses (Nat.le_succ 1)
        · exact hcloses (Nat.le_refl 2)
      · have hquotes : ∀ more, c = '\'' →
            cs ++ '\'' :: '\'' :: '\'' :: rest ≠ '\'' :: '\'' :: more := by
          rintro more rfl heq
          match cs, heq with
          | [], _ => exact hends ⟨rfl, .inl rfl⟩
          | [d], heq =>
            obtain rfl := (List.cons.inj heq).1
            exact hends ⟨rfl, .inr rfl⟩
          | d :: e :: es, heq =>
            obtain ⟨rfl, htail⟩ := List.cons.inj heq
            obtain rfl := (List.cons.inj htail).1
            exact hs ⟨[], es, rfl⟩
        rw [List.cons_append, tripleLiteral?_cons hc hquotes, hread]
        rfl
    · rw [List.cons_append, tripleLiteral?, hread]
      rfl

/-! ## The form of a string -/

/-- A string in single quotes needs no escapes there. -/
theorem of_stringForm_eq_literal {s : List Char} (h : stringForm s = .literal) :
    (∀ c ∈ s, isTextChar c = true) ∧ '\'' ∉ s := by
  have hform : (s.all fun c => isTextChar c || c == '\n') = true ∧ s.contains '\n' = false ∧
      longestRun '\'' 0 0 s = 0 := by
    grind [stringForm]
  obtain ⟨hplain, hbreaks, hsingles⟩ := hform
  refine ⟨fun c hc => ?_, fun hmem => ?_⟩
  · have hne : c ≠ '\n' := by
      rintro rfl
      simp [hc] at hbreaks
    simpa [hne] using List.all_eq_true.1 hplain c hc
  · obtain ⟨before, after, rfl⟩ := List.append_of_mem hmem
    have hmarks : List.replicate 1 '\'' <:+: before ++ '\'' :: after := ⟨before, after, by simp⟩
    have hrun := le_longestRun_of_isInfix hmarks 0 0
    omega

/-- A string in triple single quotes needs no escapes there. -/
theorem of_stringForm_eq_tripleLiteral {s : List Char} (h : stringForm s = .tripleLiteral) :
    (∀ c ∈ s, isTextChar c = true ∨ c = '\n') ∧ ¬List.replicate 3 '\'' <:+: s := by
  have hform : (s.all fun c => isTextChar c || c == '\n') = true ∧
      longestRun '\'' 0 0 s ≤ 2 := by
    grind [stringForm]
  obtain ⟨hplain, hsingles⟩ := hform
  refine ⟨fun c hc => ?_, fun hmarks => ?_⟩
  · simpa using List.all_eq_true.1 hplain c hc
  · have hrun := le_longestRun_of_isInfix hmarks 0 0
    omega

/-! ## Reading a string back -/

/-- A string in double quotes does not start with three of them. -/
theorem readString?_basic {text : List Char} (h : ∀ more, text ≠ '"' :: '"' :: more) :
    readString? ('"' :: text) = basic? text := by
  rw [readString?]
  exact h

theorem readString?_literal {text : List Char} (h : ∀ more, text ≠ '\'' :: '\'' :: more) :
    readString? ('\'' :: text) = literal? text := by
  rw [readString?]
  exact h

theorem dropBreak_eq_self {text : List Char} (hnewline : text.head? ≠ some '\n')
    (hreturn : text.head? ≠ some '\r') : dropBreak text = text := by
  rw [dropBreak]
  · rintro rest rfl
    exact hnewline rfl
  · rintro rest rfl
    exact hreturn rfl

/-- The opening quotes of a string of several lines stand on a line of their own. -/
theorem dropBreak_start {s text : List Char} (hnewline : '\n' ∉ s → text.head? ≠ some '\n')
    (hreturn : text.head? ≠ some '\r') :
    dropBreak ((if s.contains '\n' then ['\n'] else []) ++ text) = text := by
  by_cases hbreak : '\n' ∈ s
  · rw [if_pos (by simpa using hbreak)]
    rfl
  · rw [if_neg (by simpa using hbreak)]
    exact dropBreak_eq_self (hnewline hbreak) hreturn

/-- The text between triple double quotes starts with a line break only if the string does. -/
theorem head?_tripleBasic (s rest : List Char) :
    ('\n' ∉ s → (escapedBetweenTriples 0 s ++ '"' :: rest).head? ≠ some '\n') ∧
      (escapedBetweenTriples 0 s ++ '"' :: rest).head? ≠ some '\r' := by
  cases s with
  | nil => simp [escapedBetweenTriples]
  | cons c cs =>
    rw [escapedBetweenTriples]
    split
    · simp
    · by_cases hbreak : c = '\n'
      · subst hbreak
        simp [escapedChar]
      · obtain ⟨d, tail, htext, _, hnewline, hreturn⟩ :=
          (escapes_escapedChar true fun _ => hbreak).exists_cons
        rw [htext]
        simp [hnewline, hreturn]

theorem head?_tripleLiteral {s : List Char} (htext : ∀ c ∈ s, isTextChar c = true ∨ c = '\n')
    (rest : List Char) :
    ('\n' ∉ s → (s ++ '\'' :: rest).head? ≠ some '\n') ∧
      (s ++ '\'' :: rest).head? ≠ some '\r' := by
  cases s with
  | nil => simp
  | cons c cs =>
    rcases htext c List.mem_cons_self with hc | rfl
    · obtain ⟨hnewline, hreturn⟩ := ne_break_of_isTextChar hc
      simp [hnewline, hreturn]
    · simp

/-- A string is read back from its text in whatever form it is written, if no quote comes after. -/
theorem readString?_stringText (s : List Char) {rest : List Char} (hdouble : rest.head? ≠ some '"')
    (hsingle : rest.head? ≠ some '\'') : readString? (stringText s ++ rest) = some (s, rest) := by
  rw [stringText]
  cases hform : stringForm s with
  | basic =>
    have hquotes : ∀ more, s.flatMap (escapedChar false) ++ '"' :: rest ≠ '"' :: '"' :: more := by
      intro more heq
      cases s with
      | nil =>
        rw [List.flatMap_nil, List.nil_append] at heq
        rw [(List.cons.inj heq).2] at hdouble
        exact hdouble rfl
      | cons c cs =>
        obtain ⟨d, tail, htext, hquote, _⟩ :=
          (escapes_escapedChar false (c := c) (by simp)).exists_cons
        rw [List.flatMap_cons, List.append_assoc, htext] at heq
        exact hquote (List.cons.inj heq).1
    simp only [List.cons_append, List.append_assoc, List.nil_append]
    rw [readString?_basic hquotes, basic?_flatMap_escapedChar]
  | literal =>
    obtain ⟨htext, hs⟩ := of_stringForm_eq_literal hform
    have hquotes : ∀ more, s ++ '\'' :: rest ≠ '\'' :: '\'' :: more := by
      intro more heq
      cases s with
      | nil =>
        rw [List.nil_append] at heq
        rw [(List.cons.inj heq).2] at hsingle
        exact hsingle rfl
      | cons c cs => exact hs (by rw [(List.cons.inj heq).1]; exact List.mem_cons_self)
    simp only [List.cons_append, List.append_assoc, List.nil_append]
    rw [readString?_literal hquotes, literal?_append htext hs]
  | tripleBasic =>
    obtain ⟨hnewline, hreturn⟩ := head?_tripleBasic s ('"' :: '"' :: rest)
    have hread := tripleBasic?_escapedBetweenTriples (Nat.zero_le 2) s hdouble
    rw [← dropBreak_start hnewline hreturn] at hread
    simpa [readString?] using hread
  | tripleLiteral =>
    obtain ⟨htext, hs⟩ := of_stringForm_eq_tripleLiteral hform
    obtain ⟨hnewline, hreturn⟩ := head?_tripleLiteral htext ('\'' :: '\'' :: rest)
    have hread := tripleLiteral?_append htext hs hsingle
    rw [← dropBreak_start hnewline hreturn] at hread
    simpa [readString?] using hread

example : readString? "\"\"\"\n\"\\\\\"\n\"\"\"\"\",".toList =
    some ("\"\\\"\n\"\"".toList, ",".toList) := by decide
example : stringText "\"\\\"\n\"\"".toList = "'''\n\"\\\"\n\"\"'''".toList := by decide

end PluginDataset.Toml
