import PluginDataset.Literal.Closing
import PluginDataset.Proofs.Literal.Opening
import PluginDataset.Proofs.Text.Ascii

/-!
# Where literals close

The closing quotes are looked for in bytes. Quotes and backslashes are spelled by bytes that no
other character has in its spelling, so that the same quotes are found in the characters of the
text: three of one kind, not behind a backslash.

## Main definitions

* `Literal.splitClosing?` cuts the characters of a text at the closing quotes.

## Main results

* `Literal.body?_eq`: the bytes and the characters of a text are closed at the same place.
* `Literal.splitClosing?_eq_some`: what is cut is the body, the quotes and the text after them.
-/

namespace PluginDataset.Literal

/-- The text before the closing quotes and the text after them. The character after a backslash is
passed over. -/
def splitClosing? (q : Quote) : List Char → Option (List Char × List Char)
  | [] => none
  | [_] => none
  | a :: b :: rest =>
    if a = '\\' then
      (splitClosing? q rest).map fun (body, after) => (a :: b :: body, after)
    else
      match after? q.marks (a :: b :: rest) with
      | some after => some ([], after)
      | none => (splitClosing? q (b :: rest)).map fun (body, after) => (a :: body, after)

variable {q : Quote} {mark : UInt8} {s body after : List Char}

/-! ## Characters -/

theorem after?_marks_cons {c : Char} (hc : c ≠ q.mark) (s : List Char) :
    after? q.marks (c :: s) = none := by
  rw [Quote.marks, after?, if_neg (Ne.symm hc)]

/-- A plain character belongs to the body. -/
theorem splitClosing?_cons {c : Char} (hslash : c ≠ '\\') (hmark : c ≠ q.mark) (s : List Char) :
    splitClosing? q (c :: s) = (splitClosing? q s).map fun (body, after) => (c :: body, after) := by
  cases s with
  | nil => rfl
  | cons b s => rw [splitClosing?, if_neg hslash, after?_marks_cons hmark]

/-- A character behind a backslash belongs to the body. -/
theorem splitClosing?_backslash (c : Char) (s : List Char) :
    splitClosing? q ('\\' :: c :: s) =
      (splitClosing? q s).map fun (body, after) => ('\\' :: c :: body, after) := by
  rw [splitClosing?, if_pos rfl]

theorem splitClosing?_marks (q : Quote) (s : List Char) :
    splitClosing? q (q.marks ++ s) = some ([], s) := by
  cases q <;> rfl

/-- What is cut is the body, the quotes and the text after them. -/
theorem splitClosing?_eq_some (h : splitClosing? q s = some (body, after)) :
    s = body ++ (q.marks ++ after) := by
  fun_induction splitClosing? q s generalizing body with
  | case1 | case2 => simp at h
  | case3 b rest ih =>
    obtain ⟨⟨body', after'⟩, hrest, heq⟩ := Option.map_eq_some_iff.1 h
    obtain ⟨rfl, rfl⟩ := Prod.mk.inj heq
    rw [ih hrest, List.cons_append, List.cons_append]
  | case4 a b rest ha _ hclose =>
    obtain ⟨rfl, rfl⟩ := Prod.mk.inj (Option.some.inj h)
    rw [after?_eq_some_iff.1 hclose, List.nil_append]
  | case5 a b rest ha hclose ih =>
    obtain ⟨⟨body', after'⟩, hrest, heq⟩ := Option.map_eq_some_iff.1 h
    obtain ⟨rfl, rfl⟩ := Prod.mk.inj heq
    rw [ih hrest, List.cons_append]

/-! ## Bytes -/

theorem toNat_mark_lt (q : Quote) : q.mark.toNat < 0x80 := by
  cases q <;> decide

theorem toNat_byte_lt (q : Quote) : q.byte.toNat < 0x80 := by
  cases q <;> decide

/-- A text starts with the byte of a quote just when it starts with the quote. -/
theorem encode_eq_byte_cons {bytes : List UInt8} :
    Utf8.encode s = q.byte :: bytes ↔ ∃ s', s = q.mark :: s' ∧ Utf8.encode s' = bytes := by
  have hmark : String.utf8EncodeChar q.mark = [q.byte] := by cases q <;> decide
  constructor
  · intro h
    cases s with
    | nil => simp at h
    | cons c s =>
      rw [Utf8.encode_cons] at h
      rcases Utf8.utf8EncodeChar_eq_or c with ⟨hlt, hc⟩ | ⟨_, hc⟩
      · rw [hc] at h
        obtain ⟨hbyte, hs⟩ := List.cons.inj h
        exact ⟨s, by rw [Utf8.eq_of_ofNat_toNat_eq hlt (toNat_mark_lt q) hbyte], hs⟩
      · obtain ⟨b, bytes', hcons, _⟩ := Utf8.exists_utf8EncodeChar c
        rw [hcons] at h hc
        have hge := hc b List.mem_cons_self
        rw [(List.cons.inj h).1] at hge
        exact absurd (toNat_byte_lt q) (by omega)
  · rintro ⟨s', rfl, rfl⟩
    rw [Utf8.encode_cons, hmark]
    rfl

/-- Three quotes are seen in the bytes just when the characters are three quotes. -/
theorem startsClosing_encode (q : Quote) (s : List Char) :
    startsClosing q.byte (Utf8.encode s) = true ↔ ∃ rest, s = q.marks ++ rest := by
  have hbytes : startsClosing q.byte (Utf8.encode s) = true ↔
      ∃ rest, Utf8.encode s = q.byte :: q.byte :: q.byte :: rest := by
    generalize Utf8.encode s = bytes
    match bytes with
    | [] | [_] | [_, _] => simp [startsClosing]
    | a :: b :: c :: bytes => simp [startsClosing, and_assoc]
  rw [hbytes]
  constructor
  · rintro ⟨rest, h⟩
    obtain ⟨s₁, rfl, h₁⟩ := encode_eq_byte_cons.1 h
    obtain ⟨s₂, rfl, h₂⟩ := encode_eq_byte_cons.1 h₁
    obtain ⟨s₃, rfl, _⟩ := encode_eq_byte_cons.1 h₂
    exact ⟨s₃, rfl⟩
  · rintro ⟨rest, rfl⟩
    refine ⟨Utf8.encode rest, encode_eq_byte_cons.2 ⟨_, rfl, ?_⟩⟩
    exact encode_eq_byte_cons.2 ⟨_, rfl, encode_eq_byte_cons.2 ⟨_, rfl, rfl⟩⟩

/-- A byte that is no backslash and does not start the closing quotes belongs to the body. -/
theorem closingOffset?_cons {a : UInt8} {bytes : List UInt8} (hslash : a ≠ 0x5C)
    (hopen : ¬startsClosing mark (a :: bytes) = true) :
    closingOffset? mark (a :: bytes) = (closingOffset? mark bytes).map (· + 1) := by
  cases bytes with
  | nil => rfl
  | cons b bytes => rw [closingOffset?, if_neg hslash, if_neg hopen]

/-- The bytes of other characters belong to the body. -/
theorem closingOffset?_append {bytes : List UInt8} (h : ∀ b ∈ bytes, 0x80 ≤ b.toNat)
    (hmark : mark.toNat < 0x80) (rest : List UInt8) :
    closingOffset? mark (bytes ++ rest) = (closingOffset? mark rest).map (· + bytes.length) := by
  induction bytes with
  | nil => simp
  | cons b bytes ih =>
    rw [List.forall_mem_cons] at h
    have hslash : b ≠ 0x5C := by
      rintro rfl
      exact absurd h.1 (by decide)
    have hne : b ≠ mark := by
      rintro rfl
      omega
    have hopen : ¬startsClosing mark (b :: (bytes ++ rest)) = true := by
      cases bytes ++ rest with
      | nil => simp [startsClosing]
      | cons x rest => cases rest <;> simp [startsClosing, hne]
    rw [List.cons_append, closingOffset?_cons hslash hopen, ih h.2, Option.map_map]
    rfl

/-- The closing quotes are found in the bytes where they are in the characters. -/
theorem closingOffset?_encode (q : Quote) (s : List Char) :
    closingOffset? q.byte (Utf8.encode s) =
      (splitClosing? q s).map fun r => (Utf8.encode r.1).length := by
  fun_induction splitClosing? q s with
  | case1 => rfl
  | case2 c =>
    rcases Utf8.utf8EncodeChar_eq_or c with ⟨_, hc⟩ | ⟨_, hc⟩
    · rw [Utf8.encode_cons, hc]
      rfl
    · rw [Utf8.encode_cons, closingOffset?_append hc (toNat_byte_lt q)]
      rfl
  | case3 b rest ih =>
    -- one byte of `b` is passed over; the others are no backslash and no quote
    obtain ⟨x, bytes, hb, hbytes⟩ := Utf8.exists_utf8EncodeChar b
    have hencode : ∀ s, Utf8.encode ('\\' :: b :: s) = 0x5C :: x :: (bytes ++ Utf8.encode s) := by
      intro s
      rw [Utf8.encode_cons, Utf8.encode_cons, hb]
      rfl
    rw [hencode, closingOffset?, if_pos rfl, closingOffset?_append hbytes (toNat_byte_lt q), ih]
    cases splitClosing? q rest with
    | none => rfl
    | some r =>
      simp only [Option.map_some, hencode, List.length_cons, List.length_append]
      congr 1
      omega
  | case4 a b rest ha _ hclose =>
    have hs := after?_eq_some_iff.1 hclose
    have hstarts := (startsClosing_encode q (a :: b :: rest)).2 ⟨_, hs⟩
    -- the first quote is no backslash, and another byte comes after it
    obtain ⟨x, bytes, hbytes⟩ : ∃ x bytes, Utf8.encode (a :: b :: rest) = q.byte :: x :: bytes := by
      rw [hs]
      exact ⟨_, _, encode_eq_byte_cons.2 ⟨_, rfl, encode_eq_byte_cons.2 ⟨_, rfl, rfl⟩⟩⟩
    have hslash : q.byte ≠ 0x5C := by cases q <;> decide
    rw [hbytes] at hstarts ⊢
    rw [closingOffset?, if_neg hslash, if_pos hstarts]
    rfl
  | case5 a b rest ha hclose ih =>
    have hopen : ¬startsClosing q.byte (Utf8.encode (a :: b :: rest)) = true := by
      rw [startsClosing_encode]
      rintro ⟨after, hafter⟩
      rw [after?_eq_some_iff.2 hafter] at hclose
      simp at hclose
    have hencode : closingOffset? q.byte (Utf8.encode (a :: b :: rest)) =
        (closingOffset? q.byte (Utf8.encode (b :: rest))).map
          (· + (String.utf8EncodeChar a).length) := by
      rw [Utf8.encode_cons] at hopen ⊢
      rcases Utf8.utf8EncodeChar_eq_or a with ⟨hlt, hc⟩ | ⟨_, hc⟩
      · have hslash : UInt8.ofNat a.toNat ≠ 0x5C := fun h =>
          ha (Utf8.eq_of_ofNat_toNat_eq hlt (by decide) h)
        rw [hc] at hopen ⊢
        exact closingOffset?_cons hslash hopen
      · exact closingOffset?_append hc (toNat_byte_lt q) _
    rw [hencode, ih]
    cases splitClosing? q (b :: rest) with
    | none => rfl
    | some r =>
      simp only [Option.map_some, Utf8.encode_cons, List.length_append]
      congr 1
      omega

/-- The bytes and the characters of a text are closed at the same place. -/
theorem body?_eq (q : Quote) (s : List Char) : body? q s = (splitClosing? q s).map (·.1) := by
  rw [body?, closingOffset?_encode]
  cases h : splitClosing? q s with
  | none => rfl
  | some r =>
    obtain ⟨body, after⟩ := r
    have hs := splitClosing?_eq_some h
    rw [hs]
    simp [Utf8.splitAt?_encode]

end PluginDataset.Literal
