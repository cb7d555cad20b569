import PluginDataset.Documentation
import PluginDataset.Proofs.Literal.TopLevel

/-!
# Lines after a source text

The first binding of a name counts. Lines that come after a source text can not change what was
found in it: an opening ends on its own line, and the first closing quotes stay the first ones. If
these lines open literals of names that are bound only, then they add nothing either, and they can
not make the search fail, whatever else they hold.

## Main results

* `Literal.splitClosing?_append`: closing quotes do not depend on the text after them.
* `Literal.openingsFrom_append_newline`: the openings of a text and of the lines after it.
* `Literal.blocks_append_of_bound`: lines that open bound names change nothing.
-/

namespace PluginDataset.Literal

/-! ## The text of a literal -/

/-- Closing quotes that are found stay the first ones, whatever comes after the text. -/
theorem splitClosing?_append {q : Quote} {s body after : List Char}
    (h : splitClosing? q s = some (body, after)) (t : List Char) :
    splitClosing? q (s ++ t) = some (body, after ++ t) := by
  fun_induction splitClosing? q s generalizing body with
  | case1 | case2 => simp at h
  | case3 b rest ih =>
    obtain ⟨⟨body', after'⟩, hrest, heq⟩ := Option.map_eq_some_iff.1 h
    obtain ⟨rfl, rfl⟩ := Prod.mk.inj heq
    rw [List.cons_append, List.cons_append, splitClosing?_backslash, ih hrest]
    rfl
  | case4 a b rest ha _ hclose =>
    obtain ⟨rfl, rfl⟩ := Prod.mk.inj (Option.some.inj h)
    rw [after?_eq_some_iff.1 hclose, List.append_assoc, splitClosing?_marks]
  | case5 a b rest ha hclose ih =>
    obtain ⟨⟨body', after'⟩, hrest, heq⟩ := Option.map_eq_some_iff.1 h
    obtain ⟨rfl, rfl⟩ := Prod.mk.inj heq
    -- the quotes found later show that three characters of the text are there to be compared
    have hopen : after? q.marks (a :: b :: (rest ++ t)) = none := by
      cases rest with
      | nil => simp [splitClosing?] at hrest
      | cons c rest => simpa [Quote.marks, after?] using hclose
    have hlater := ih hrest
    rw [List.cons_append] at hlater
    rw [List.cons_append, List.cons_append, splitClosing?, if_neg ha, hopen]
    dsimp only
    rw [hlater]
    rfl

/-- The text of a literal does not depend on what comes after its closing quotes. -/
theorem Opening.text_append {o : Opening} {rest text : List Char} (h : o.text rest = .ok text)
    (t : List Char) : o.text (rest ++ t) = .ok text := by
  rw [Opening.text, body?_eq] at h ⊢
  cases hsplit : splitClosing? o.quote rest with
  | none => simp [hsplit] at h
  | some r =>
    rw [hsplit] at h
    rw [splitClosing?_append hsplit]
    exact h

/-! ## Openings before a line feed -/

/-- An opening and the text after it, to which more text is added. -/
def extend (t : List Char) (found : Opening × List Char) : Opening × List Char :=
  (found.1, found.2 ++ t)

/-- Whether a text opens a literal is decided before the next line. -/
theorem parse?_append_newline (s t : List Char) :
    Opening.parse? (s ++ '\n' :: t) = (Opening.parse? s).map (extend ('\n' :: t)) := by
  cases hs : Opening.parse? s with
  | some found =>
    obtain ⟨o, rest⟩ := found
    obtain ⟨text, rfl, rfl⟩ := Opening.parse?_eq_some_iff.1 hs
    rw [List.append_assoc, text.parse?_text]
    rfl
  | none =>
    cases hall : Opening.parse? (s ++ '\n' :: t) with
    | none => rfl
    | some found =>
      obtain ⟨text, _, heq⟩ := Opening.parse?_eq_some_iff.1 hall
      obtain ⟨x, rfl, _⟩ := Text.exists_eq_append_of_notMem text.newline_notMem heq
      rw [text.parse?_text] at hs
      simp at hs

/-- The openings of a text stay its openings when lines are added after it. -/
theorem openingsIn_append_newline (lineStart : Bool) (s t : List Char) :
    openingsIn lineStart s ('\n' :: t) =
      (openingsFrom lineStart s).map (extend ('\n' :: t)) := by
  induction s generalizing lineStart with
  | nil => rfl
  | cons c s ih =>
    rw [openingsIn, openingsFrom, ih, ← List.cons_append, parse?_append_newline]
    cases lineStart with
    | false => rfl
    | true =>
      rw [if_pos rfl, if_pos rfl]
      cases Opening.parse? (c :: s) <;> rfl

theorem openingsFrom_newline (lineStart : Bool) (s : List Char) :
    openingsFrom lineStart ('\n' :: s) = openingsFrom true s := by
  have hsplit : '\n' :: s = ['\n'] ++ s := rfl
  rw [hsplit, openingsFrom_append, openingsIn_newline]
  rfl

/-- The openings of a text and of the lines after it. -/
theorem openingsFrom_append_newline (lineStart : Bool) (s t : List Char) :
    openingsFrom lineStart (s ++ '\n' :: t) =
      (openingsFrom lineStart s).map (extend ('\n' :: t)) ++ openingsFrom true t := by
  rw [openingsFrom_append, openingsIn_append_newline, openingsFrom_newline]

/-- An opening is found on a line that opens a literal. -/
theorem exists_line_of_mem_openingsFrom {s : List Char} {found : Opening × List Char}
    (h : found ∈ openingsFrom true s) :
    ∃ line ∈ Text.lines s, ∃ rest, Opening.parse? line = some (found.1, rest) := by
  -- the opening of a text without a line feed
  have hline : ∀ {w found}, '\n' ∉ w → found ∈ openingsFrom true w →
      w ≠ [] ∧ Opening.parse? w = some found := by
    intro w found hw hmem
    have hne : w ≠ [] := by
      rintro rfl
      exact absurd hmem List.not_mem_nil
    rw [← List.append_nil w, openingsFrom_append, openingsIn_true hne hw,
      startsLine_of_notMem hne hw, openingsFrom, List.append_nil, List.append_nil] at hmem
    exact ⟨hne, Option.mem_toList.1 hmem⟩
  induction s using Text.lines_induction with
  | nil => exact absurd h List.not_mem_nil
  | last w hne hw =>
    rw [Text.lines_of_notMem hne hw]
    exact ⟨w, List.mem_cons_self, found.2, (hline hw h).2⟩
  | line w s hw ih =>
    rw [Text.lines_append_newline hw]
    rw [openingsFrom_append_newline] at h
    rcases List.mem_append.1 h with h | h
    · obtain ⟨f, hf, rfl⟩ := List.mem_map.1 h
      refine ⟨_, List.mem_cons_self, f.2 ++ ['\n'], ?_⟩
      rw [parse?_append_newline, (hline hw hf).2]
      rfl
    · obtain ⟨line, hmem, rest, hparse⟩ := ih h
      exact ⟨line, List.mem_cons_of_mem _ hmem, rest, hparse⟩

/-! ## Blocks -/

/-- A block that is added does not depend on what comes after its literal. -/
theorem Blocks.add_extend {b b' : Blocks} {found : Opening × List Char}
    (h : b.add found = .ok b') (t : List Char) : b.add (extend t found) = .ok b' := by
  obtain ⟨o, rest⟩ := found
  rw [Blocks.add] at h
  rw [extend, Blocks.add]
  by_cases hname : (b.get? o.name).isSome = true
  · rw [if_pos hname] at h ⊢
    exact h
  · rw [if_neg hname] at h ⊢
    cases htext : o.text rest with
    | error fault => simp [htext, Except.map] at h
    | ok text =>
      rw [htext] at h
      rw [Opening.text_append htext]
      exact h

theorem foldlM_add_extend {b b' : Blocks} {found : List (Opening × List Char)}
    (h : found.foldlM Blocks.add b = .ok b') (t : List Char) :
    (found.map (extend t)).foldlM Blocks.add b = .ok b' := by
  induction found generalizing b with
  | nil => exact h
  | cons f found ih =>
    rw [List.foldlM_cons] at h
    rw [List.map_cons, List.foldlM_cons]
    cases hadd : b.add f with
    | error fault => simp [hadd, bind, Except.bind] at h
    | ok b₁ =>
      rw [hadd] at h
      rw [Blocks.add_extend hadd]
      exact ih h

/-- Lines that come after a source text and open literals of bound names only change neither its
blocks nor its documentation. -/
theorem blocks_append_of_bound {source rest : List Char} {b : Blocks}
    (hsource : blocks source = .ok b) (hrest : rest.head? = some '\n')
    (hbound : ∀ line ∈ Text.lines rest, ∀ o after, Opening.parse? line = some (o, after) →
      (b.get? o.name).isSome = true) :
    blocks (source ++ rest) = .ok b ∧
      Documentation.ofSource (source ++ rest) = Documentation.ofSource source := by
  obtain ⟨t, rfl⟩ := List.head?_eq_some_iff.1 hrest
  have hlater : ∀ found ∈ openingsFrom true t, (b.get? found.1.name).isSome = true := by
    intro found hfound
    obtain ⟨line, hline, after, hparse⟩ := exists_line_of_mem_openingsFrom hfound
    have hlines : Text.lines ('\n' :: t) = ['\n'] :: Text.lines t :=
      Text.lines_append_newline List.not_mem_nil t
    refine hbound line ?_ found.1 after hparse
    rw [hlines]
    exact List.mem_cons_of_mem _ hline
  have hblocks : blocks (source ++ '\n' :: t) = .ok b := by
    have hfirst := foldlM_add_extend hsource ('\n' :: t)
    rw [openings] at hfirst
    rw [blocks, openings, openingsFrom_append_newline, List.foldlM_append, hfirst]
    exact foldlM_add_of_bound hlater
  refine ⟨hblocks, ?_⟩
  rw [Documentation.ofSource, Documentation.ofSource, hblocks, hsource]

/-- A source text with one literal. -/
def openingSource : List Char :=
  "DOCUMENTATION = r'''a: b'''".toList

/-- Lines that open the same name twice, with an invalid escape and without an end, and hold quotes
that close nothing. -/
def reopeningLines : List Char :=
  "\n''' \"\"\"\nDOCUMENTATION = '''\\xZZ'''\nDOCUMENTATION = \"\"\"c".toList

theorem blocks_append_reopeningLines :
    blocks openingSource = .ok ⟨some "a: b".toList, none, none⟩ ∧
      reopeningLines.head? = some '\n' ∧
      blocks (openingSource ++ reopeningLines) = .ok ⟨some "a: b".toList, none, none⟩ ∧
      Documentation.ofSource (openingSource ++ reopeningLines) =
        Documentation.ofSource openingSource := by
  have hsource : blocks openingSource = .ok ⟨some "a: b".toList, none, none⟩ := by rfl
  have hnames : ∀ line ∈ Text.lines reopeningLines,
      ((Opening.parse? line).all fun found => found.1.name == .documentation) = true := by
    decide +kernel
  have hbound : ∀ line ∈ Text.lines reopeningLines, ∀ o after,
      Opening.parse? line = some (o, after) →
        (Blocks.get? ⟨some "a: b".toList, none, none⟩ o.name).isSome = true := by
    intro line hline o after hparse
    have hname := hnames line hline
    rw [hparse] at hname
    have hdocumentation : o.name = .documentation := by simpa using hname
    rw [hdocumentation]
    rfl
  exact ⟨hsource, rfl, blocks_append_of_bound hsource rfl hbound⟩

end PluginDataset.Literal
