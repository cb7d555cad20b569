import PluginDataset.Proofs.BooleanWords.Flow

/-!
# Blanks after a word

All blanks at the end of a value are taken off before it is compared with the boolean words, also
those that belong to a plain scalar, such as a no-break space. A value after a key is therefore
replaced exactly if it is one of the twelve words with nothing but blanks after it. The blanks stay,
so that a word with a no-break space becomes another text and no boolean.

## Main definitions

* `BooleanWords.spacedWord` is a word with a no-break space after it.

## Main results

* `BooleanWords.normalizeLine_entryLine_append`: what becomes of a value with blanks after it.
* `BooleanWords.normalize_entryLine_ne_iff`: the values that change.
* `BooleanWords.normalize_entryLine_spacedWord`: a word with a no-break space after it.
-/

namespace PluginDataset.BooleanWords

variable {s key value w blanks : List Char} {indent : Nat}

/-- A word after a key is replaced before the blanks that come after it. -/
theorem normalizeLine_entryLine_append (hkey : ∀ c ∈ key, isWordChar c = true)
    (hhead : ∀ c ∈ (w ++ blanks).head?, c ≠ ' ' ∧ c ≠ '[')
    (hlast : ∀ c ∈ w.getLast?, Text.isBlank c = false)
    (hblanks : ∀ c ∈ blanks, Text.isBlank c = true) (hcomment : ¬ [' ', '#'] <:+: w ++ blanks) :
    normalizeLine (entryLine indent key (w ++ blanks)) =
      entryLine indent key (replaced w ++ blanks) := by
  have hentry : splitHead? (entryLine indent key (w ++ blanks)) =
      some (List.replicate indent ' ' ++ (key ++ [':', ' ']), w ++ blanks ++ ['\n']) :=
    splitHead?_entryLine hkey fun c hc => (hhead c hc).1
  have hend : ¬ [' ', '#'] <:+: w ++ (blanks ++ ['\n']) := by
    rw [← List.append_assoc]
    exact not_infix_append_newline hcomment (by decide)
  have hafter : ∀ c ∈ blanks ++ ['\n'], Text.isBlank c = true :=
    List.forall_mem_append.2 ⟨hblanks, List.forall_mem_singleton.2 rfl⟩
  rw [List.append_assoc] at hentry
  by_cases hw : w = []
  · subst hw
    have hnone : span? (entryLine indent key ([] ++ blanks)) = none := by
      have htrim : Text.trimEnd ([] ++ (blanks ++ ['\n'])) = [] :=
        Text.trimEnd_append (by simp) hafter
      simp only [span?, hentry, beforeComment_eq_self hend, htrim, if_true]
    rw [normalizeLine, hnone]
    rfl
  · have hplace : Place (entryLine indent key (w ++ blanks))
        (List.replicate indent ' ' ++ (key ++ [':', ' '])) w (blanks ++ ['\n']) := by
      obtain ⟨htext, hhead⟩ := splitHead?_eq_some_iff.1 hentry
      exact ⟨htext, hhead, hw, hlast, _, [], by simp, hafter, .inl rfl, hend⟩
    have hbracket : ∀ c ∈ w.head?, c ≠ '[' := fun c hc =>
      (hhead c (by rwa [List.head?_append_of_ne_nil w hw])).2
    rw [normalizeLine_of_place hplace, normalizeValue_eq_replaced hbracket]
    simp [entryLine]

/-- A value after a key changes if and only if it is one of the twelve words with nothing but blanks
after it. -/
theorem normalize_entryLine_ne_iff (key : Word) (indent : Nat) (hline : '\n' ∉ value)
    (hhead : ∀ c ∈ value.head?, c ≠ ' ' ∧ c ≠ '[') (hcomment : ¬ [' ', '#'] <:+: value) :
    normalize (entryLine indent key.text value) ≠ entryLine indent key.text value ↔
      ∃ b, ∃ w ∈ spellings b, ∃ blanks, value = w ++ blanks ∧
        ∀ c ∈ blanks, Text.isBlank c = true := by
  obtain ⟨blanks, hvalue, hblanks⟩ := Text.exists_trimEnd_append value
  have hlast : ∀ c ∈ (Text.trimEnd value).getLast?, Text.isBlank c = false := by
    intro c hc
    have hne : Text.trimEnd value ≠ [] := by
      intro hnil
      simp [hnil] at hc
    rw [List.getLast?_eq_some_getLast hne] at hc
    obtain rfl := Option.some.inj hc
    exact Text.isBlank_getLast_trimEnd value hne
  have hnormal : normalize (entryLine indent key.text value) =
      entryLine indent key.text (replaced (Text.trimEnd value) ++ blanks) := by
    rw [hvalue] at hhead hcomment
    rw [normalize_of_isLine (isLine_entryLine indent key hline),
      ← normalizeLine_entryLine_append key.isWordChar hhead hlast hblanks hcomment, ← hvalue]
  have hchanged : normalize (entryLine indent key.text value) ≠ entryLine indent key.text value ↔
      ∃ b, Text.trimEnd value ∈ spellings b := by
    have hsame : entryLine indent key.text (replaced (Text.trimEnd value) ++ blanks) =
        entryLine indent key.text (Text.trimEnd value ++ blanks) ↔
          word? (Text.trimEnd value) = none := by
      simp [entryLine, replaced_eq_self_iff]
    rw [← hvalue] at hsame
    rw [hnormal, ← word?_ne_none_iff]
    exact hsame.not
  rw [hchanged]
  constructor
  · rintro ⟨b, hword⟩
    exact ⟨b, _, hword, blanks, hvalue, hblanks⟩
  · rintro ⟨b, w, hword, blanks', hvalue', hblanks'⟩
    have hend : ∀ c ∈ w.getLast?, Text.isBlank c = false := fun c hc =>
      isBlank_of_isWordChar
        (isWordChar_of_isAlpha
          ((isAlpha_of_mem_spellings hword).2 c (List.mem_of_mem_getLast? hc)))
    exact ⟨b, by rwa [hvalue', Text.trimEnd_append hend hblanks']⟩

/-- A word with a no-break space after it. -/
def spacedWord : List Char :=
  "yes\u00A0".toList

/-- The no-break space stays, and what comes before it is replaced. -/
theorem normalize_entryLine_spacedWord :
    (spacedWord ≠ [] ∧ '\n' ∉ spacedWord ∧ ¬ [' ', '#'] <:+: spacedWord ∧
      (∀ c ∈ spacedWord.head?, c ∉ [' ', '\t', '\r', '[']) ∧
      ∀ c ∈ spacedWord.getLast?, c ∉ [' ', '\t', '\r']) ∧
    (∀ b, spacedWord ∉ spellings b) ∧
    normalize (entryLine 0 "choices".toList spacedWord) = "choices: true\u00A0\n".toList ∧
    normalize (entryLine 0 "choices".toList spacedWord) ≠
      entryLine 0 "choices".toList spacedWord := by
  refine ⟨⟨by decide, by decide, by decide, ?_, ?_⟩, by decide, by decide, by decide⟩
  · simp [spacedWord]
  · simp [spacedWord]

theorem normalize_entryLine_ne_spacedWord :
    normalize (entryLine 0 "choices".toList spacedWord) ≠
      entryLine 0 "choices".toList spacedWord :=
  (normalize_entryLine_ne_iff ⟨"choices".toList, List.all_eq_true.1 rfl⟩ 0 (by decide)
    (by simp [spacedWord]) (by decide)).2
    ⟨true, "yes".toList, by decide, ['\u00A0'], rfl, List.forall_mem_singleton.2 rfl⟩

end PluginDataset.BooleanWords
