import PluginDataset.Proofs.Json.Grammar

/-!
# Reading back printed values

A value that is printed over several lines is read back, with the members of its objects in
ascending order of their keys: the printed text is one of the texts that write the value, and it
nests as deep as the value does. Integers are read back as they were; a binary64 number may become
another one, as the reader rounds more than once.

## Main definitions

* `Json.FloatFree` says that all numbers of a value are integers.
* `Json.Readable` says that the texts of all numbers of a value are read.
* `Json.reread` is the value with the numbers that are read from these texts.
* `Json.sorted` puts the members of all objects in order.

## Main results

* `Json.written_prettyAt`: a printed value is written in the grammar.
* `Json.read?_pretty_of_readable`: what is read from the text of a value.
* `Json.read?_pretty`: a value without binary64 numbers is read back from its text.
* `Json.sorted_of_canonical`: a value whose objects are in order stays as it is.
-/

namespace PluginDataset.Json

/-- An integer of 64 bits. -/
def Number.IsInteger : Number → Prop
  | .float _ => False
  | _ => True

mutual

/-- All numbers inside the value are integers. -/
def FloatFree : Json → Prop
  | .number n => n.IsInteger
  | .array items => FloatFreeItems items
  | .object members => FloatFreeMembers members
  | _ => True

/-- All numbers inside the items are integers. -/
def FloatFreeItems : List Json → Prop
  | [] => True
  | v :: rest => FloatFree v ∧ FloatFreeItems rest

/-- All numbers inside the values of the members are integers. -/
def FloatFreeMembers : List (String × Json) → Prop
  | [] => True
  | (_, v) :: rest => FloatFree v ∧ FloatFreeMembers rest

end

/-- The text of the number is read as a number. -/
def Number.Readable (n : Number) : Prop :=
  ∃ m, readNumber? n.text = some (m, [])

/-- The number that is read from the text of the number, if there is one. -/
def Number.reread (n : Number) : Number :=
  ((readNumber? n.text).map (·.1)).getD n

mutual

/-- The texts of all numbers inside the value are read. -/
def Readable : Json → Prop
  | .number n => n.Readable
  | .array items => ReadableItems items
  | .object members => ReadableMembers members
  | _ => True

/-- The texts of all numbers inside the items are read. -/
def ReadableItems : List Json → Prop
  | [] => True
  | v :: rest => Readable v ∧ ReadableItems rest

/-- The texts of all numbers inside the values of the members are read. -/
def ReadableMembers : List (String × Json) → Prop
  | [] => True
  | (_, v) :: rest => Readable v ∧ ReadableMembers rest

end

mutual

/-- The value with the numbers that are read from the texts of its numbers. -/
def reread : Json → Json
  | .number n => .number n.reread
  | .array items => .array (rereadItems items)
  | .object members => .object (rereadMembers members)
  | v => v

/-- Each item with the numbers that are read. -/
def rereadItems : List Json → List Json
  | [] => []
  | v :: rest => reread v :: rereadItems rest

/-- Each member with the numbers that are read in its value. -/
def rereadMembers : List (String × Json) → List (String × Json)
  | [] => []
  | (k, v) :: rest => (k, reread v) :: rereadMembers rest

end

mutual

/-- The value with the members of all objects in ascending order of their keys; the last value of a
repeated key stands. -/
def sorted : Json → Json
  | .array items => .array (sortedItems items)
  | .object members => .object (Keyed.ofList (sortedMembers members))
  | v => v

/-- Each item in order. -/
def sortedItems : List Json → List Json
  | [] => []
  | v :: rest => sorted v :: sortedItems rest

/-- Each member with its value in order. The members themselves stay in place. -/
def sortedMembers : List (String × Json) → List (String × Json)
  | [] => []
  | (k, v) :: rest => (k, sorted v) :: sortedMembers rest

end

/-! ## Scalars -/

theorem isBlanks_newline (level : Nat) : IsBlanks (newline level) := by
  intro c hc
  rcases List.mem_cons.1 hc with rfl | hc
  · rfl
  · obtain rfl := (List.mem_replicate.1 hc).2
    rfl

theorem isBlanks_space : IsBlanks [' '] := by
  intro c hc
  obtain rfl := List.mem_singleton.1 hc
  rfl

/-- Every character is written in its escaped form, whatever surrogates may stand for. -/
theorem writtenChar_escapedChar (ρ : Reading) (c : Char) : WrittenChar ρ c (escapedChar c) := by
  unfold escapedChar
  split
  case h_8 hquote hslash hb hf hn hr ht =>
    split
    · next hlt =>
      have hbyte : (UInt8.ofNat c.toNat).toNat = c.toNat := Utf8.toNat_ofNat_of_lt (by omega)
      have hunit := codeUnit?_control c.toNat hlt
      have hsurrogate : IsSurrogate c.toNat → ρ.loneSurrogates := by
        rintro ⟨hge, _⟩
        omega
      have hwritten := WrittenChar.unit hunit hsurrogate
      rw [Char.ofNat_toNat] at hwritten
      simpa only [Text.hexByte, hbyte, List.cons_append, List.nil_append] using hwritten
    · next hge => exact .plain hquote hslash (by omega)
  all_goals exact .letter rfl

theorem writtenChars_flatMap_escapedChar (ρ : Reading) (s : List Char) :
    WrittenChars ρ s (s.flatMap escapedChar) := by
  induction s with
  | nil => exact .nil
  | cons c s ih => exact .cons (writtenChar_escapedChar ρ c) ih

theorem written_stringText (ρ : Reading) (depth : Nat) (text : String) :
    Written ρ depth (.string text) (stringText text) := by
  have h : Written ρ depth (.ofChars text.toList) (stringText text) :=
    .string (writtenChars_flatMap_escapedChar ρ text.toList)
  rwa [ofChars, String.ofList_toList] at h

/-- A number that is written as whole digits. -/
def NumberText.ofNat (negative : Bool) (n : Nat) : NumberText where
  negative
  whole := Text.decimalDigits n
  fraction := none
  exponent := none
  isDigits_whole := ⟨Text.decimalDigits_ne_nil n, Text.isDigit_decimalDigits n⟩
  noLeadingZero := Text.decimalDigits_leading n
  isDigits_fraction := by simp

theorem NumberText.value?_ofNat (negative : Bool) {n : Nat} (hn : n < 0x10000000000000000) :
    (ofNat negative n).value? = integer? negative n := by
  have hpush : pushWhole true ⟨0, 0⟩ (Text.decimalDigits n) = (true, ⟨n, 0⟩) :=
    pushWhole_of_addDigits? (Text.addDigits?_decimalDigits n) hn
  simp only [value?, ofNat, hpush, valueAfter?, if_true]

theorem NumberText.text_ofNat (negative : Bool) (n : Nat) :
    (ofNat negative n).text =
      if negative then '-' :: Text.decimalDigits n else Text.decimalDigits n := by
  simp [text, magnitude, ofNat, fractionText, exponentText]

theorem NumberText.readNumber?_text {t : NumberText} {n : Number} (h : t.value? = some n) :
    readNumber? t.text = some (n, []) := by
  have hread := readNumber?_append t endsNumber_nil
  rwa [List.append_nil, h] at hread

/-- An integer is read back. -/
theorem Number.IsInteger.readNumber?_text {n : Number} (h : n.IsInteger) :
    readNumber? n.text = some (n, []) := by
  cases n with
  | natural n =>
    have hvalue : (NumberText.ofNat false n).value? = some (.natural n) := by
      rw [NumberText.value?_ofNat false n.isLt, integer?, if_neg (by simp), dif_pos n.isLt]
    have htext : (NumberText.ofNat false n).text = (Number.natural n).text :=
      NumberText.text_ofNat false n
    exact htext ▸ NumberText.readNumber?_text hvalue
  | negative n =>
    have hlt : n.val + 1 < 0x10000000000000000 := by have := n.isLt; omega
    have hn : n.val + 1 - 1 < 0x8000000000000000 := n.isLt
    have hvalue : (NumberText.ofNat true (n + 1)).value? = some (.negative n) := by
      rw [NumberText.value?_ofNat true hlt, integer?, if_pos rfl, if_neg (by omega), dif_pos hn]
      rfl
    have htext : (NumberText.ofNat true (n + 1)).text = (Number.negative n).text :=
      NumberText.text_ofNat true (n + 1)
    exact htext ▸ NumberText.readNumber?_text hvalue
  | float x => exact absurd h id

theorem Number.IsInteger.reread_eq {n : Number} (h : n.IsInteger) : n.reread = n := by
  rw [reread, h.readNumber?_text]
  rfl

theorem Number.Readable.written {n : Number} (h : n.Readable) (depth : Nat) :
    Written .exact depth (.number n.reread) n.text := by
  obtain ⟨m, hm⟩ := h
  obtain ⟨t, htext, hvalue⟩ := exists_numberText hm
  rw [reread, hm, htext, List.append_nil]
  exact .number hvalue

theorem readableMembers_iff {members : List (String × Json)} :
    ReadableMembers members ↔ ∀ p ∈ members, p.2.Readable := by
  induction members with
  | nil => simp [ReadableMembers]
  | cons p rest ih => simp [ReadableMembers, ih]

theorem readable_object_ofList {members : List (String × Json)} (h : ReadableMembers members) :
    Readable (.object (Keyed.ofList members)) :=
  readableMembers_iff.2 fun p hp => readableMembers_iff.1 h p (Keyed.mem_of_mem_ofList hp)

mutual

/-- Values without binary64 numbers can be read. -/
theorem FloatFree.readable {v : Json} (h : v.FloatFree) : v.Readable := by
  match v, h with
  | .null, _ | .bool _, _ | .string _, _ => trivial
  | .number n, h => exact ⟨n, Number.IsInteger.readNumber?_text h⟩
  | .array items, h => exact readableItems_of_floatFree h
  | .object members, h => exact readableMembers_of_floatFree h

theorem readableItems_of_floatFree {items : List Json} (h : FloatFreeItems items) :
    ReadableItems items := by
  match items, h with
  | [], _ => trivial
  | v :: rest, h => exact ⟨h.1.readable, readableItems_of_floatFree h.2⟩

theorem readableMembers_of_floatFree {members : List (String × Json)}
    (h : FloatFreeMembers members) : ReadableMembers members := by
  match members, h with
  | [], _ => trivial
  | (k, v) :: rest, h => exact ⟨h.1.readable, readableMembers_of_floatFree h.2⟩

end

mutual

/-- Values without binary64 numbers stay as they are. -/
theorem FloatFree.reread_eq {v : Json} (h : v.FloatFree) : v.reread = v := by
  match v, h with
  | .null, _ | .bool _, _ | .string _, _ => rfl
  | .number n, h => rw [reread, Number.IsInteger.reread_eq h]
  | .array items, h => rw [reread, rereadItems_of_floatFree h]
  | .object members, h => rw [reread, rereadMembers_of_floatFree h]

theorem rereadItems_of_floatFree {items : List Json} (h : FloatFreeItems items) :
    rereadItems items = items := by
  match items, h with
  | [], _ => rfl
  | v :: rest, h => rw [rereadItems, h.1.reread_eq, rereadItems_of_floatFree h.2]

theorem rereadMembers_of_floatFree {members : List (String × Json)}
    (h : FloatFreeMembers members) : rereadMembers members = members := by
  match members, h with
  | [], _ => rfl
  | (k, v) :: rest, h => rw [rereadMembers, h.1.reread_eq, rereadMembers_of_floatFree h.2]

end

/-! ## The whole value -/

section

variable {ρ : Reading} {depth : Nat} {v : Json} {t u b b' : List Char}

/-- The members of an object, each key with a colon and one space after it. -/
theorem writtenMembers_last (key : String) (hb : IsBlanks b) (hv : Written ρ depth v t)
    (hb' : IsBlanks b') :
    WrittenMembers ρ depth [(key, v)] (b ++ (stringText key ++ ':' :: ' ' :: (t ++ b'))) := by
  have h := WrittenMembers.last hb (writtenChars_flatMap_escapedChar ρ key.toList) isBlanks_nil
    isBlanks_space hv hb'
  simpa [stringText] using h

theorem writtenMembers_next (key : String) {members : List (String × Json)} (hb : IsBlanks b)
    (hv : Written ρ depth v t) (hmembers : WrittenMembers ρ depth members u) :
    WrittenMembers ρ depth ((key, v) :: members)
      (b ++ (stringText key ++ ':' :: ' ' :: (t ++ ',' :: u))) := by
  have h := WrittenMembers.next hb (writtenChars_flatMap_escapedChar ρ key.toList) isBlanks_nil
    isBlanks_space hv isBlanks_nil hmembers
  simpa [stringText] using h

end

mutual

/-- A printed value is written, nested as deep as the value is. -/
theorem written_prettyAt {v : Json} (h : v.Readable) {depth : Nat} (hdepth : v.depth ≤ depth)
    (level : Nat) : Written .exact depth v.reread.sorted (prettyAt level v) := by
  match v, h with
  | .null, _ => exact .null
  | .bool true, _ => exact .trueWord
  | .bool false, _ => exact .falseWord
  | .number n, h => exact Number.Readable.written h depth
  | .string s, _ => exact written_stringText .exact depth s
  | .array [], _ =>
    obtain ⟨depth, rfl⟩ : ∃ n, depth = n + 1 := ⟨depth - 1, by simp [Json.depth] at hdepth; omega⟩
    exact .emptyArray isBlanks_nil
  | .object [], _ =>
    obtain ⟨depth, rfl⟩ : ∃ n, depth = n + 1 := ⟨depth - 1, by simp [Json.depth] at hdepth; omega⟩
    exact .emptyObject isBlanks_nil
  | .array (v :: items), h =>
    obtain ⟨depth, rfl⟩ : ∃ n, depth = n + 1 := ⟨depth - 1, by simp [Json.depth] at hdepth; omega⟩
    simp only [Json.depth, depthItems, Nat.add_le_add_iff_right, Nat.max_le] at hdepth
    have hv := written_prettyAt h.1 hdepth.1 (level + 1)
    have hitems := Written.array (written_prettyItems h.2 hdepth.2 (level + 1) hv
      (isBlanks_newline (level + 1)) (isBlanks_newline level))
    simpa [prettyAt, reread, rereadItems, sorted, sortedItems] using hitems
  | .object ((k, v) :: members), h =>
    obtain ⟨depth, rfl⟩ : ∃ n, depth = n + 1 := ⟨depth - 1, by simp [Json.depth] at hdepth; omega⟩
    simp only [Json.depth, depthMembers, Nat.add_le_add_iff_right, Nat.max_le] at hdepth
    have hv := written_prettyAt h.1 hdepth.1 (level + 1)
    have hmembers := Written.object (written_prettyMembers h.2 hdepth.2 (level + 1) k hv
      (isBlanks_newline (level + 1)) (isBlanks_newline level))
    simpa [prettyAt, reread, rereadMembers, sorted, sortedMembers] using hmembers
termination_by structural v

/-- A written value and the items printed after it are written items. -/
theorem written_prettyItems {items : List Json} (h : ReadableItems items) {depth : Nat}
    (hdepth : depthItems items ≤ depth) (level : Nat) {v : Json} {t b b' : List Char}
    (hv : Written .exact depth v t) (hb : IsBlanks b) (hb' : IsBlanks b') :
    WrittenItems .exact depth (v :: sortedItems (rereadItems items))
      (b ++ (t ++ (prettyItems level items ++ b'))) := by
  match items, h with
  | [], _ => exact .last hb hv hb'
  | w :: items, h =>
    simp only [depthItems, Nat.max_le] at hdepth
    have hw := written_prettyAt h.1 hdepth.1 level
    have hitems := written_prettyItems h.2 hdepth.2 level hw (isBlanks_newline level) hb'
    simpa [prettyItems, rereadItems, sortedItems] using WrittenItems.next hb hv isBlanks_nil hitems
termination_by structural items

/-- A member with a written value and the members printed after it are written members. -/
theorem written_prettyMembers {members : List (String × Json)} (h : ReadableMembers members)
    {depth : Nat} (hdepth : depthMembers members ≤ depth) (level : Nat) (key : String) {v : Json}
    {t b b' : List Char} (hv : Written .exact depth v t) (hb : IsBlanks b) (hb' : IsBlanks b') :
    WrittenMembers .exact depth ((key, v) :: sortedMembers (rereadMembers members))
      (b ++ (stringText key ++ ':' :: ' ' :: (t ++ (prettyMembers level members ++ b')))) := by
  match members, h with
  | [], _ => exact writtenMembers_last key hb hv hb'
  | (k, w) :: members, h =>
    simp only [depthMembers, Nat.max_le] at hdepth
    have hw := written_prettyAt h.1 hdepth.1 level
    have hmembers := written_prettyMembers h.2 hdepth.2 level k hw (isBlanks_newline level) hb'
    simpa [prettyMembers, rereadMembers, sortedMembers] using
      writtenMembers_next key hb hv hmembers
termination_by structural members

end

mutual

/-- Putting in order leaves a value alone whose objects are in order. -/
theorem sorted_of_canonical {v : Json} (h : v.Canonical) : v.sorted = v := by
  match v, h with
  | .null, _ | .bool _, _ | .number _, _ | .string _, _ => rfl
  | .array items, h => rw [sorted, sortedItems_of_canonical h]
  | .object members, h =>
    rw [sorted, sortedMembers_of_canonical h.2, Keyed.ofList_of_ascending h.1]

theorem sortedItems_of_canonical {items : List Json} (h : CanonicalItems items) :
    sortedItems items = items := by
  match items, h with
  | [], _ => rfl
  | v :: rest, h => rw [sortedItems, sorted_of_canonical h.1, sortedItems_of_canonical h.2]

theorem sortedMembers_of_canonical {members : List (String × Json)}
    (h : CanonicalMembers members) : sortedMembers members = members := by
  match members, h with
  | [], _ => rfl
  | (k, v) :: rest, h =>
    rw [sortedMembers, sorted_of_canonical h.1, sortedMembers_of_canonical h.2]

end

/-- A value is read from its text with the numbers that are read, within a limit that its nesting
stays in. -/
theorem read?_pretty_of_readable {v : Json} (h : v.Readable) {limit : Nat}
    (hlimit : v.depth ≤ limit) : read? limit v.pretty = some v.reread.sorted := by
  have hwritten := written_prettyAt h hlimit 0
  exact read?_eq_some_iff.2 ⟨[], _, [], isBlanks_nil, hwritten, isBlanks_nil, by simp [pretty]⟩

/-- A value without binary64 numbers is read back from its text, within a limit that its nesting
stays in. -/
theorem read?_pretty {v : Json} (h : v.FloatFree) {limit : Nat} (hlimit : v.depth ≤ limit) :
    read? limit v.pretty = some v.sorted := by
  rw [read?_pretty_of_readable h.readable hlimit, h.reread_eq]

end PluginDataset.Json
