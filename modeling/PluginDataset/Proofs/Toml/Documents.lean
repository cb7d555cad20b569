import PluginDataset.Proofs.Toml.Strings
import PluginDataset.Toml.Reader

/-!
# Reading back documents

Texts that are read as a value or as a line whatever comes after them can be put together: values to
arrays, values with their keys to lines, and lines to a document.

## Main definitions

* `Toml.StartsVisibly` says that a text starts neither with a blank, a comment nor a line break.
* `Toml.Writes` says that a text is read as a value, `Toml.IsLine` that it is read as a line.

## Main results

* `Toml.Writes.string`, `Toml.Writes.array_nil`, `Toml.Writes.array_singleton`,
  `Toml.Writes.array_lines`: texts of strings and arrays.
* `Toml.IsLine.header`, `Toml.IsLine.entry`: texts of headers and entries.
* `Toml.read?_of_isLine`: the statements of a document are those of its lines.
-/

namespace PluginDataset.Toml

/-! ## Blanks, comments and line breaks -/

/-- The text starts neither with a blank, a comment nor a line break. -/
def StartsVisibly (s : List Char) : Prop :=
  ∃ c rest, s = c :: rest ∧ c ∉ [' ', '\t', '#', '\n', '\r']

theorem StartsVisibly.append {s : List Char} (h : StartsVisibly s) (rest : List Char) :
    StartsVisibly (s ++ rest) := by
  obtain ⟨c, tail, rfl, hc⟩ := h
  exact ⟨c, tail ++ rest, rfl, hc⟩

theorem StartsVisibly.skipBlanks_eq {s : List Char} (h : StartsVisibly s) : skipBlanks s = s := by
  obtain ⟨c, rest, rfl, hc⟩ := h
  simp only [List.mem_cons, not_or] at hc
  simp [skipBlanks, hc.1, hc.2.1]

theorem StartsVisibly.skipLines_eq {s : List Char} (h : StartsVisibly s) (fuel : Nat) :
    skipLines fuel s = s := by
  cases fuel with
  | zero => rfl
  | succ fuel =>
    rw [skipLines, h.skipBlanks_eq]
    obtain ⟨c, rest, rfl, hc⟩ := h
    simp_all

theorem skipBlanks_space (s : List Char) : skipBlanks (' ' :: s) = skipBlanks s :=
  rfl

/-- A line break is passed over, with the blanks at the start of the next line. -/
theorem skipLines_break {fuel : Nat} (hfuel : 2 ≤ fuel) (blanks : List Char)
    (hblanks : ∀ c ∈ blanks, c = ' ') {s : List Char} (h : StartsVisibly s) :
    skipLines fuel ('\n' :: (blanks ++ s)) = s := by
  obtain ⟨fuel, rfl⟩ := Nat.exists_eq_add_of_le' hfuel
  have hskip : skipBlanks (blanks ++ s) = s := by
    rw [skipBlanks, List.dropWhile_append_of_pos fun c hc => by simp [hblanks c hc]]
    exact h.skipBlanks_eq
  have hnext : skipLines (fuel + 1) (blanks ++ s) = skipLines (fuel + 1) s := by
    rw [skipLines, skipLines, hskip, h.skipBlanks_eq]
  rw [skipLines, skipBlanks, List.dropWhile_cons_of_neg (by simp)]
  exact hnext.trans (h.skipLines_eq (fuel + 1))

/-! ## Values -/

/-- The text is read as a value in which no more than the given number of arrays are nested,
whatever comes after it, if that is no quote. -/
structure Writes (levels : Nat) (v : Value) (text : List Char) : Prop where
  starts : StartsVisibly text
  notClosing : text.head? ≠ some ']'
  read : ∀ {fuel depth : Nat} {rest : List Char}, text.length ≤ fuel → levels ≤ depth →
    rest.head? ≠ some '"' → rest.head? ≠ some '\'' →
    readValue? fuel depth (text ++ rest) = some (v, rest)

/-- The text of a string starts with a quote. -/
theorem exists_stringText_eq_cons (s : List Char) :
    ∃ c rest, stringText s = c :: rest ∧ (c = '"' ∨ c = '\'') := by
  rw [stringText]
  cases stringForm s with
  | basic => exact ⟨'"', _, rfl, .inl rfl⟩
  | literal => exact ⟨'\'', _, rfl, .inr rfl⟩
  | tripleBasic => exact ⟨'"', _, rfl, .inl rfl⟩
  | tripleLiteral => exact ⟨'\'', _, rfl, .inr rfl⟩

theorem Writes.string (s : List Char) : Writes 0 (.string s) (stringText s) where
  starts := by
    obtain ⟨c, rest, htext, rfl | rfl⟩ := exists_stringText_eq_cons s
    · exact ⟨'"', rest, htext, by decide⟩
    · exact ⟨'\'', rest, htext, by decide⟩
  notClosing := by
    obtain ⟨c, rest, htext, rfl | rfl⟩ := exists_stringText_eq_cons s
    · simp [htext]
    · simp [htext]
  read := by
    intro fuel depth rest hfuel _ hdouble hsingle
    have hread := readString?_stringText s hdouble hsingle
    obtain ⟨c, tail, htext, hc⟩ := exists_stringText_eq_cons s
    rw [htext] at hread hfuel ⊢
    obtain ⟨fuel, rfl⟩ := Nat.exists_eq_add_of_le' (Nat.le_trans (Nat.le_add_left 1 _) hfuel)
    have hscalar : readScalar? (c :: tail ++ rest) = some (.string s, rest) := by
      rw [List.cons_append] at hread ⊢
      rw [readScalar?, if_pos hc, hread]
      rfl
    rcases hc with rfl | rfl
    · simpa [readValue?] using hscalar
    · simpa [readValue?] using hscalar

/-! ## Arrays -/

/-- An item with the end of the array after it. -/
theorem Writes.readItems?_last {levels : Nat} {v : Value} {text : List Char}
    (h : Writes levels v text) {fuel depth : Nat} (hfuel : text.length ≤ fuel)
    (hdepth : levels ≤ depth) (rest : List Char) :
    readItems? (fuel + 1) depth (text ++ ']' :: rest) = some ([v], rest) := by
  have hclosing : StartsVisibly (']' :: rest) := ⟨']', rest, rfl, by decide⟩
  rw [readItems?, h.read hfuel hdepth (by simp) (by simp)]
  · dsimp only
    rw [hclosing.skipLines_eq]
    rfl
  · intro more heq
    obtain ⟨c, tail, rfl, _⟩ := h.starts
    exact h.notClosing (by rw [(List.cons.inj heq).1]; rfl)

/-- An item with a comma after it. -/
theorem Writes.readItems?_next {levels : Nat} {v : Value} {text : List Char}
    (h : Writes levels v text) {fuel depth : Nat} (hfuel : text.length ≤ fuel)
    (hdepth : levels ≤ depth) (rest : List Char) :
    readItems? (fuel + 1) depth (text ++ ',' :: rest) =
      (readItems? fuel depth (skipLines rest.length rest)).map
        fun (items, rest) => (v :: items, rest) := by
  have hcomma : StartsVisibly (',' :: rest) := ⟨',', rest, rfl, by decide⟩
  rw [readItems?, h.read hfuel hdepth (by simp) (by simp)]
  · dsimp only
    rw [hcomma.skipLines_eq]
    rfl
  · intro more heq
    obtain ⟨c, tail, rfl, _⟩ := h.starts
    exact h.notClosing (by rw [(List.cons.inj heq).1]; rfl)

/-- Items of which each is on a line of its own, with a comma after it. -/
def itemLines (texts : List (List Char)) : List Char :=
  texts.flatMap fun text => "\n    ".toList ++ text ++ [',']

/-- Items on lines of their own are read up to the closing bracket. -/
theorem readItems?_itemLines {levels : Nat} {items : List (Value × List Char)}
    (h : ∀ item ∈ items, Writes levels item.1 item.2) {fuel depth : Nat}
    (hfuel : (itemLines (items.map (·.2))).length < fuel) (hdepth : levels ≤ depth)
    (rest : List Char) :
    let text := itemLines (items.map (·.2)) ++ '\n' :: ']' :: rest
    readItems? fuel depth (skipLines text.length text) = some (items.map (·.1), rest) := by
  induction items generalizing fuel with
  | nil =>
    obtain ⟨fuel, rfl⟩ := Nat.exists_eq_add_of_le' hfuel
    have hclosing : StartsVisibly (']' :: rest) := ⟨']', rest, rfl, by decide⟩
    have hskip : skipLines (rest.length + 2) ('\n' :: ']' :: rest) = ']' :: rest :=
      skipLines_break (by omega) [] (by simp) hclosing
    exact (congrArg (readItems? (fuel + 1) depth) hskip).trans rfl
  | cons item items ih =>
    obtain ⟨hitem, hitems⟩ := List.forall_mem_cons.1 h
    have hlength : (itemLines ((item :: items).map (·.2))).length =
        item.2.length + (itemLines (items.map (·.2))).length + 6 := by
      simp [itemLines]
      omega
    obtain ⟨fuel, rfl⟩ := Nat.exists_eq_add_of_le' (Nat.lt_of_le_of_lt (Nat.zero_le _) hfuel)
    intro text
    have htext : text = '\n' :: ("    ".toList ++ (item.2 ++
        ',' :: (itemLines (items.map (·.2)) ++ '\n' :: ']' :: rest))) := by
      simp [text, itemLines]
    have hskip : skipLines text.length text =
        item.2 ++ ',' :: (itemLines (items.map (·.2)) ++ '\n' :: ']' :: rest) := by
      rw [htext]
      exact skipLines_break (by simp) "    ".toList (by simp) (hitem.starts.append _)
    rw [hskip, hitem.readItems?_next (by omega) hdepth, ih hitems (by omega)]
    rfl

/-- An array is read if its items are. -/
theorem writes_array {levels : Nat} {items : List Value} {text : List Char}
    (h : ∀ (fuel depth : Nat) (rest : List Char), text.length + 1 ≤ fuel → levels ≤ depth →
      readItems? fuel depth (skipLines (text ++ ']' :: rest).length (text ++ ']' :: rest)) =
        some (items, rest)) : Writes (levels + 1) (.array items) ('[' :: text ++ [']']) where
  starts := ⟨'[', _, rfl, by decide⟩
  notClosing := by simp
  read := by
    intro fuel depth rest hfuel hdepth _ _
    obtain ⟨fuel, rfl⟩ := Nat.exists_eq_add_of_le' (Nat.le_trans (Nat.le_add_left 1 _) hfuel)
    obtain ⟨depth, rfl⟩ := Nat.exists_eq_add_of_le' (Nat.le_trans (Nat.le_add_left 1 levels) hdepth)
    have hitems := h fuel depth rest (by simpa using hfuel) (by simpa using hdepth)
    have hread : readValue? (fuel + 1) (depth + 1) ('[' :: (text ++ ']' :: rest)) =
        (readItems? fuel depth (skipLines (text ++ ']' :: rest).length (text ++ ']' :: rest))).map
          fun (items, rest) => (.array items, rest) := by
      rw [readValue?]
    rw [List.cons_append, List.cons_append, List.append_assoc, List.singleton_append, hread, hitems]
    rfl

/-- An array without items. -/
theorem Writes.array_nil : Writes 1 (.array []) ['[', ']'] := by
  have harray : Writes (0 + 1) (.array []) ('[' :: [] ++ [']']) := by
    refine writes_array fun fuel depth rest hfuel _ => ?_
    obtain ⟨fuel, rfl⟩ := Nat.exists_eq_add_of_le' hfuel
    have hclosing : StartsVisibly (']' :: rest) := ⟨']', rest, rfl, by decide⟩
    exact (congrArg (readItems? (fuel + 1) depth) (hclosing.skipLines_eq _)).trans rfl
  exact harray

/-- An array with one item on its line. -/
theorem Writes.array_singleton {levels : Nat} {v : Value} {text : List Char}
    (h : Writes levels v text) : Writes (levels + 1) (.array [v]) ('[' :: text ++ [']']) := by
  refine writes_array fun fuel depth rest hfuel hdepth => ?_
  obtain ⟨fuel, rfl⟩ := Nat.exists_eq_add_of_le' (Nat.le_trans (Nat.le_add_left 1 _) hfuel)
  rw [(h.starts.append _).skipLines_eq, h.readItems?_last (by simpa using hfuel) hdepth]

/-- An array with each of its items on a line of its own. -/
theorem Writes.array_lines {levels : Nat} {items : List (Value × List Char)}
    (h : ∀ item ∈ items, Writes levels item.1 item.2) : Writes (levels + 1)
      (.array (items.map (·.1))) ('[' :: (itemLines (items.map (·.2)) ++ ['\n']) ++ [']']) := by
  refine writes_array fun fuel depth rest hfuel hdepth => ?_
  rw [List.length_append] at hfuel
  have hread := readItems?_itemLines h (Nat.lt_of_lt_of_le (by omega) hfuel) hdepth rest
  rwa [← List.append_cons]

/-! ## Keys -/

/-- A key that needs no quotes. -/
def IsBareKey (key : Key) : Prop :=
  (!key.isEmpty && key.all isBareKeyChar) = true

instance (key : Key) : Decidable (IsBareKey key) :=
  inferInstanceAs (Decidable ((!key.isEmpty && key.all isBareKeyChar) = true))

theorem IsBareKey.bare {key : Key} (h : IsBareKey key) : ∀ c ∈ key, isBareKeyChar c = true :=
  List.all_eq_true.1 (Bool.and_eq_true_iff.1 h).2

/-- A key without quotes starts with none of the characters that mean something to a reader. -/
theorem IsBareKey.exists_cons {key : Key} (h : IsBareKey key) :
    ∃ c rest, key = c :: rest ∧ c ∉ [' ', '\t', '#', '\n', '\r', '"', '\'', '['] := by
  cases key with
  | nil => simp [IsBareKey] at h
  | cons c rest =>
    have hmarks : ([' ', '\t', '#', '\n', '\r', '"', '\'', '['].all (!isBareKeyChar ·)) = true := rfl
    refine ⟨c, rest, rfl, fun hmem => ?_⟩
    have hmark := List.all_eq_true.1 hmarks c hmem
    simp [h.bare c List.mem_cons_self] at hmark

theorem IsBareKey.startsVisibly {key : Key} (h : IsBareKey key) : StartsVisibly key := by
  obtain ⟨c, rest, rfl, hc⟩ := h.exists_cons
  exact ⟨c, rest, rfl, fun hmem => hc (by simp_all)⟩

/-- A key without quotes is read up to the next character that cannot be in one. -/
theorem IsBareKey.readKey?_append {key : Key} (h : IsBareKey key) {next : Char}
    (hnext : isBareKeyChar next = false) {rest : List Char}
    (hdot : ∀ more, skipBlanks (next :: rest) ≠ '.' :: more) :
    readKey? (key ++ next :: rest) = some (([], key), skipBlanks (next :: rest)) := by
  have htake : (key ++ next :: rest).takeWhile isBareKeyChar = key := by
    rw [List.takeWhile_append_of_pos h.bare, List.takeWhile_cons_of_neg (by simp [hnext]),
      List.append_nil]
  have hdrop : (key ++ next :: rest).dropWhile isBareKeyChar = next :: rest := by
    rw [List.dropWhile_append_of_pos h.bare, List.dropWhile_cons_of_neg (by simp [hnext])]
  have hstring : readLineString? (key ++ next :: rest) = none := by
    obtain ⟨c, tail, rfl, hc⟩ := h.exists_cons
    rw [List.cons_append, readLineString?]
    · intro more heq
      exact hc (by rw [(List.cons.inj heq).1]; decide)
    · intro more heq
      exact hc (by rw [(List.cons.inj heq).1]; decide)
  have hsimple : readSimpleKey? (key ++ next :: rest) = some (key, next :: rest) := by
    rw [readSimpleKey?, hstring, htake, hdrop]
    obtain ⟨c, tail, rfl, _⟩ := h.exists_cons
    rfl
  have hkeys : readKeys? ((key ++ next :: rest).length + 1) (key ++ next :: rest) =
      some ([key], skipBlanks (next :: rest)) := by
    rw [readKeys?, (h.startsVisibly.append _).skipBlanks_eq, hsimple]
    dsimp only
    split
    · next more heq => exact absurd heq (hdot more)
    · rfl
  rw [readKey?, hkeys]
  rfl

/-! ## Lines -/

/-- The text is read as a line, whatever comes after it. -/
structure IsLine (text : List Char) (line? : Option Statement) : Prop where
  ne_nil : text ≠ []
  read : ∀ rest, readLine? (text ++ rest) = some (line?, rest)

theorem IsLine.blank : IsLine ['\n'] none where
  ne_nil := by simp
  read _ := rfl

theorem finishLine?_break (rest : List Char) : finishLine? ('\n' :: rest) = some rest :=
  rfl

/-- A single bracket starts the header of a table. -/
theorem readLine?_bracket {c : Char} (hc : c ≠ '[') (more : List Char) :
    readLine? ('[' :: c :: more) =
      (readHeader? [']'] (c :: more)).map
        fun ((path, key), rest) => (some (.header path key), rest) := by
  have hskip : skipBlanks ('[' :: c :: more) = '[' :: c :: more := by simp [skipBlanks]
  rw [readLine?, hskip]
  split <;> simp_all

/-- A bare key starts an entry, which has a value behind the `=` and ends with the line. -/
theorem readLine?_bareKey {key : Key} (h : IsBareKey key) {more after rest : List Char}
    {path : List Key} {last : Key} {v : Value}
    (hkey : readKey? (key ++ more) = some ((path, last), '=' :: after))
    (hvalue : readValue? (2 * after.length + 2) (nestingLimit - 1) (skipBlanks after) =
      some (v, '\n' :: rest)) :
    readLine? (key ++ more) = some (some (.entry path last v), rest) := by
  have hskip := (h.startsVisibly.append more).skipBlanks_eq
  obtain ⟨c, tail, rfl, hc⟩ := h.exists_cons
  rw [readLine?, hskip]
  split <;> simp_all [finishLine?_break]

theorem IsLine.header {name : Key} (h : IsBareKey name) :
    IsLine ('[' :: name ++ [']', '\n']) (some (.header [] name)) where
  ne_nil := by simp
  read rest := by
    have hheader : readHeader? [']'] (name ++ ']' :: '\n' :: rest) = some (([], name), rest) := by
      have hdot : ∀ more, skipBlanks (']' :: '\n' :: rest) ≠ '.' :: more := by
        intro more heq
        simp [skipBlanks] at heq
      rw [readHeader?, h.readKey?_append (by decide) hdot]
      rfl
    obtain ⟨c, tail, rfl, hc⟩ := h.exists_cons
    have hbracket : c ≠ '[' := by
      rintro rfl
      exact hc (by simp)
    have htext : '[' :: (c :: tail) ++ [']', '\n'] ++ rest =
        '[' :: c :: (tail ++ ']' :: '\n' :: rest) := by simp
    rw [htext, readLine?_bracket hbracket, ← List.cons_append, hheader]
    rfl

/-- An entry under a key without quotes, with blanks around the sign. -/
theorem IsLine.entry {key : Key} (h : IsBareKey key) {levels : Nat} {v : Value} {text : List Char}
    (hlevels : levels < nestingLimit) (htext : Writes levels v text) :
    IsLine (key ++ [' ', '=', ' '] ++ text ++ ['\n']) (some (.entry [] key v)) where
  ne_nil := by simp
  read rest := by
    have hdot : ∀ more, skipBlanks (' ' :: '=' :: ' ' :: (text ++ '\n' :: rest)) ≠ '.' :: more := by
      intro more heq
      simp [skipBlanks] at heq
    have hkey : readKey? (key ++ ' ' :: '=' :: ' ' :: (text ++ '\n' :: rest)) =
        some (([], key), '=' :: ' ' :: (text ++ '\n' :: rest)) :=
      h.readKey?_append (by decide) hdot
    have hvalue : readValue? (2 * (' ' :: (text ++ '\n' :: rest)).length + 2) (nestingLimit - 1)
        (skipBlanks (' ' :: (text ++ '\n' :: rest))) = some (v, '\n' :: rest) := by
      rw [skipBlanks_space, (htext.starts.append _).skipBlanks_eq]
      refine htext.read ?_ (Nat.le_pred_of_lt hlevels) (by simp) (by simp)
      simp
      omega
    have hline : key ++ [' ', '=', ' '] ++ text ++ ['\n'] ++ rest =
        key ++ ' ' :: '=' :: ' ' :: (text ++ '\n' :: rest) := by simp
    rw [hline]
    exact readLine?_bareKey h hkey hvalue

/-! ## Documents -/

/-- The text of lines, each with the statement that it holds. -/
def documentText (lines : List (List Char × Option Statement)) : List Char :=
  lines.flatMap (·.1)

/-- Lines are read one after the other. -/
theorem readLines?_documentText {lines : List (List Char × Option Statement)}
    (h : ∀ line ∈ lines, IsLine line.1 line.2) {fuel : Nat}
    (hfuel : (documentText lines).length < fuel) :
    readLines? fuel (documentText lines) = some (lines.filterMap (·.2)) := by
  induction lines generalizing fuel with
  | nil =>
    obtain ⟨fuel, rfl⟩ := Nat.exists_eq_add_of_le' hfuel
    rfl
  | cons line lines ih =>
    obtain ⟨hline, hlines⟩ := List.forall_mem_cons.1 h
    obtain ⟨c, tail, htext⟩ := List.exists_cons_of_ne_nil hline.ne_nil
    have hdocument : documentText (line :: lines) = line.1 ++ documentText lines :=
      List.flatMap_cons
    have hlength : (documentText (line :: lines)).length =
        tail.length + 1 + (documentText lines).length := by
      rw [hdocument, List.length_append, htext, List.length_cons]
    obtain ⟨fuel, rfl⟩ := Nat.exists_eq_add_of_le' (Nat.lt_of_le_of_lt (Nat.zero_le _) hfuel)
    have hread := hline.read (documentText lines)
    rw [hdocument, readLines?, hread]
    · dsimp only
      rw [ih hlines (by omega)]
      cases hstatement : line.2 <;> simp [hstatement]
    · simp [htext]

/-- A document that does not start with a byte order mark is read as a whole. -/
theorem read?_of_head? {s : List Char} (h : s.head? ≠ some '\uFEFF') :
    read? s = (readLines? (s.length + 1) s).bind build? := by
  delta read?
  dsimp only
  split
  · exact absurd rfl h
  · rfl

/-- The statements of a document are those of its lines. -/
theorem read?_of_isLine {lines : List (List Char × Option Statement)}
    (h : ∀ line ∈ lines, IsLine line.1 line.2)
    (hmark : (documentText lines).head? ≠ some '\uFEFF') :
    read? (documentText lines) = build? (lines.filterMap (·.2)) := by
  have hlines := readLines?_documentText h (Nat.lt_succ_self (documentText lines).length)
  rw [read?_of_head? hmark, hlines]
  rfl

end PluginDataset.Toml
