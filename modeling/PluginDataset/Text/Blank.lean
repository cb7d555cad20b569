/-!
# White space

Characters with the Unicode property `White_Space`, and trimming of texts given as lists of
characters.

## Main definitions

* `Text.isBlank` decides the property.
* `Text.trim`, `Text.trimEnd` and `Text.trimStart` remove blanks at the ends of a text.

## Main results

* `Text.exists_trimEnd_append`, `Text.isBlank_getLast_trimEnd`: trimming removes the blanks at the
  end, and nothing else.
* `Text.leadingSpaces_replicate`, `Text.replicate_leadingSpaces_append`: the indent of an indented
  text, and the text behind its indent.
-/

namespace PluginDataset.Text

/-- The property `White_Space`: tab to carriage return, space, next line, no-break space, and the
separators of the general punctuation and CJK blocks. -/
def isBlank (c : Char) : Bool :=
  let n := c.toNat
  (0x09 ≤ n && n ≤ 0x0D) || n == 0x20 || n == 0x85 || n == 0xA0 || n == 0x1680 ||
    (0x2000 ≤ n && n ≤ 0x200A) || n == 0x2028 || n == 0x2029 || n == 0x202F || n == 0x205F ||
    n == 0x3000

def trimStart (s : List Char) : List Char :=
  s.dropWhile isBlank

/-- The text without its trailing blanks: each character is kept if a non-blank one stands at it
or after it. -/
def trimEnd : List Char → List Char
  | [] => []
  | c :: cs =>
    match trimEnd cs with
    | [] => if isBlank c then [] else [c]
    | kept => c :: kept

def trim (s : List Char) : List Char :=
  trimEnd (trimStart s)

def leadingSpaces (s : List Char) : Nat :=
  (s.takeWhile (· == ' ')).length

/-- Only blanks are removed from the end of a text. -/
theorem exists_trimEnd_append (s : List Char) :
    ∃ blanks, s = trimEnd s ++ blanks ∧ ∀ c ∈ blanks, isBlank c = true := by
  induction s with
  | nil => exact ⟨[], rfl, by simp⟩
  | cons c cs ih =>
    obtain ⟨blanks, hs, hb⟩ := ih
    rw [trimEnd]
    split
    · next h =>
      rw [h] at hs
      split
      · next hc => exact ⟨c :: cs, rfl, by simpa [hc, hs] using hb⟩
      · exact ⟨blanks, by simp [hs], hb⟩
    · next h => exact ⟨blanks, by rw [List.cons_append, ← hs], hb⟩

theorem trimEnd_isPrefix (s : List Char) : trimEnd s <+: s := by
  obtain ⟨blanks, hs, _⟩ := exists_trimEnd_append s
  exact ⟨blanks, hs.symm⟩

theorem trimEnd_cons {c : Char} (hc : isBlank c = false) (s : List Char) :
    ∃ t, trimEnd (c :: s) = c :: t := by
  rw [trimEnd]
  cases trimEnd s with
  | nil => exact ⟨[], by simp [hc]⟩
  | cons d kept => exact ⟨d :: kept, rfl⟩

/-- Blanks at the end are removed from a text that ends otherwise. -/
theorem trimEnd_append {s blanks : List Char} (hs : ∀ c ∈ s.getLast?, isBlank c = false)
    (hblanks : ∀ c ∈ blanks, isBlank c = true) : trimEnd (s ++ blanks) = s := by
  induction s with
  | nil =>
    induction blanks with
    | nil => rfl
    | cons c blanks ih =>
      rw [List.forall_mem_cons] at hblanks
      rw [List.nil_append] at ih ⊢
      rw [trimEnd, ih hblanks.2, if_pos hblanks.1]
  | cons c s ih =>
    cases s with
    | nil =>
      have hc : isBlank c = false := hs c rfl
      have hrest : trimEnd ([] ++ blanks) = [] := ih (by simp)
      rw [List.cons_append, trimEnd, hrest]
      simp [hc]
    | cons d s => rw [List.cons_append, trimEnd, ih (by simpa using hs)]

theorem trimEnd_eq_self {s : List Char} (h : ∀ c ∈ s.getLast?, isBlank c = false) :
    trimEnd s = s := by
  have htrim : trimEnd (s ++ []) = s := trimEnd_append h (by simp)
  rwa [List.append_nil] at htrim

theorem leadingSpaces_replicate (n : Nat) (s : List Char) :
    leadingSpaces (List.replicate n ' ' ++ s) = n + leadingSpaces s := by
  rw [leadingSpaces, List.takeWhile_append_of_pos (by simp), List.length_append,
    List.length_replicate, leadingSpaces]

theorem leadingSpaces_eq_zero {s : List Char} (h : ∀ c ∈ s.head?, c ≠ ' ') :
    leadingSpaces s = 0 := by
  cases s with
  | nil => rfl
  | cons c s => simp [leadingSpaces, h c rfl]

theorem replicate_leadingSpaces (s : List Char) :
    List.replicate (leadingSpaces s) ' ' = s.takeWhile (· == ' ') := by
  have hspaces := List.all_eq_true.1 (List.all_takeWhile (p := (· == ' ')) (l := s))
  exact (List.eq_replicate_iff.2 ⟨rfl, by simpa using hspaces⟩).symm

/-- A text is its indent and what stands behind it. -/
theorem replicate_leadingSpaces_append (s : List Char) :
    List.replicate (leadingSpaces s) ' ' ++ s.dropWhile (· == ' ') = s := by
  rw [replicate_leadingSpaces, List.takeWhile_append_dropWhile]

/-- What stands behind an indent does not start with a space. -/
theorem head_dropWhile_ne_space (s : List Char) :
    ∀ c ∈ (s.dropWhile (· == ' ')).head?, c ≠ ' ' := by
  intro c hc
  have hdrop := List.head?_dropWhile_not (· == ' ') s
  rw [Option.mem_def.1 hc] at hdrop
  simpa using hdrop

theorem isBlank_getLast_trimEnd (s : List Char) (h : trimEnd s ≠ []) :
    isBlank ((trimEnd s).getLast h) = false := by
  induction s with
  | nil => exact absurd rfl h
  | cons c cs ih =>
    revert h
    rw [trimEnd]
    split
    · split
      · simp
      · next hc => simpa using hc
    · next hne =>
      intro h
      rw [List.getLast_cons hne]
      exact ih hne

end PluginDataset.Text
