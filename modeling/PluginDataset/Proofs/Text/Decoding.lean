import PluginDataset.Text.Utf8

/-!
# Decoding loses nothing

The pieces that bytes are cut into are made of these bytes, well-formed or not. Bytes that are read
strictly are therefore the bytes of the text that is read.

## Main definitions

* `Utf8.Piece.bytes` gives the bytes of a piece.
* `Utf8.Unfinished.Spells` says how the bytes so far and those owed spell a character.

## Main results

* `Utf8.flatMap_bytes_pieces`: the pieces together are the bytes.
* `Utf8.decode?_eq_some_iff`: strict reading is inverse to spelling.
-/

namespace PluginDataset.Utf8

/-- The bytes of a piece. -/
def Piece.bytes : Piece → List UInt8
  | .char c => String.utf8EncodeChar c
  | .illFormed bytes => bytes

/-- The payload after more bytes, each of which adds six bits. -/
def payloadAfter (payload : Nat) (bytes : List UInt8) : Nat :=
  bytes.foldl (fun payload b => payload * 0x40 + b.toNat % 0x40) payload

/-- Bytes that continue a character: the first one within the given bounds, the others within those
of all later bytes. -/
def Continues (low high : UInt8) : List UInt8 → Prop
  | [] => True
  | b :: rest => (low ≤ b ∧ b ≤ high) ∧ Continues 0x80 0xBF rest

/-- Some bytes are owed, and together with any bytes that continue them, those so far spell the
character of the whole payload. -/
structure Unfinished.Spells (u : Unfinished) : Prop where
  pos : 0 < u.owed
  spells : ∀ rest, rest.length = u.owed → Continues u.low u.high rest →
    String.utf8EncodeChar (Char.ofNat (payloadAfter u.payload rest)) = u.bytes ++ rest

/-- The last byte makes a character of which all bytes are known. -/
theorem Unfinished.Spells.push_char {u : Unfinished} (h : u.Spells) {b : UInt8}
    (hb : u.admits b = true) {piece : Piece} (hpush : u.push b = .inl piece) :
    piece.bytes = u.bytes ++ [b] := by
  simp only [Unfinished.admits, Bool.and_eq_true, decide_eq_true_eq] at hb
  rw [Unfinished.push] at hpush
  split at hpush
  · next howed =>
    obtain rfl := Sum.inl.inj hpush
    have := h.pos
    exact h.spells [b] (by simp; omega) ⟨hb, trivial⟩
  · simp at hpush

/-- Every other byte leaves bytes owed. -/
theorem Unfinished.Spells.push_unfinished {u u' : Unfinished} (h : u.Spells) {b : UInt8}
    (hb : u.admits b = true) (hpush : u.push b = .inr u') :
    u'.Spells ∧ u'.bytes = u.bytes ++ [b] := by
  simp only [Unfinished.admits, Bool.and_eq_true, decide_eq_true_eq] at hb
  rw [Unfinished.push] at hpush
  split at hpush
  · simp at hpush
  · next howed =>
    obtain rfl := Sum.inr.inj hpush
    refine ⟨⟨by simp; omega, fun rest hlength hrest => ?_⟩, rfl⟩
    have hspells := h.spells (b :: rest) (by simp at hlength ⊢; omega) ⟨hb, hrest⟩
    rw [List.append_assoc]
    exact hspells

/-! ## First bytes -/

theorem toNat_ofNat {n : Nat} (h : n < 0xD800 ∨ 0xDFFF < n ∧ n < 0x110000) :
    (Char.ofNat n).val.toNat = n := by
  have hvalid : n.isValidChar := h
  rw [Char.ofNat, dif_pos hvalid]
  rfl

theorem ofNat_eq {b : UInt8} {n : Nat} (h : n = b.toNat) : UInt8.ofNat n = b := by
  rw [h, UInt8.ofNat_toNat]

/-- Two bytes spell the character of their payload. -/
theorem utf8EncodeChar_two {b x : UInt8} (hb : 0xC2 ≤ b.toNat ∧ b.toNat < 0xE0)
    (hx : 0x80 ≤ x.toNat ∧ x.toNat ≤ 0xBF) :
    String.utf8EncodeChar (Char.ofNat ((b.toNat - 0xC0) * 0x40 + x.toNat % 0x40)) = [b, x] := by
  have hn : (Char.ofNat ((b.toNat - 0xC0) * 0x40 + x.toNat % 0x40)).val.toNat =
      (b.toNat - 0xC0) * 0x40 + x.toNat % 0x40 := toNat_ofNat (by omega)
  rw [String.utf8EncodeChar, hn]
  rw [if_neg (by omega), if_pos (by omega), ofNat_eq (b := b) (by omega),
    ofNat_eq (b := x) (by omega)]

/-- Three bytes spell the character of their payload, unless it is too small or a surrogate. -/
theorem utf8EncodeChar_three {b x y : UInt8} (hb : 0xE0 ≤ b.toNat ∧ b.toNat < 0xF0)
    (hx : 0x80 ≤ x.toNat ∧ x.toNat ≤ 0xBF) (hy : 0x80 ≤ y.toNat ∧ y.toNat ≤ 0xBF)
    (hlow : b.toNat = 0xE0 → 0xA0 ≤ x.toNat) (hhigh : b.toNat = 0xED → x.toNat ≤ 0x9F) :
    String.utf8EncodeChar (Char.ofNat
      (((b.toNat - 0xE0) * 0x40 + x.toNat % 0x40) * 0x40 + y.toNat % 0x40)) = [b, x, y] := by
  have hn := toNat_ofNat
    (n := ((b.toNat - 0xE0) * 0x40 + x.toNat % 0x40) * 0x40 + y.toNat % 0x40) (by omega)
  rw [String.utf8EncodeChar, hn]
  rw [if_neg (by omega), if_neg (by omega), if_pos (by omega), ofNat_eq (b := b) (by omega),
    ofNat_eq (b := x) (by omega), ofNat_eq (b := y) (by omega)]

/-- Four bytes spell the character of their payload, unless it is too small or too great. -/
theorem utf8EncodeChar_four {b x y z : UInt8} (hb : 0xF0 ≤ b.toNat ∧ b.toNat ≤ 0xF4)
    (hx : 0x80 ≤ x.toNat ∧ x.toNat ≤ 0xBF) (hy : 0x80 ≤ y.toNat ∧ y.toNat ≤ 0xBF)
    (hz : 0x80 ≤ z.toNat ∧ z.toNat ≤ 0xBF) (hlow : b.toNat = 0xF0 → 0x90 ≤ x.toNat)
    (hhigh : b.toNat = 0xF4 → x.toNat ≤ 0x8F) :
    String.utf8EncodeChar (Char.ofNat ((((b.toNat - 0xF0) * 0x40 + x.toNat % 0x40) * 0x40 +
      y.toNat % 0x40) * 0x40 + z.toNat % 0x40)) = [b, x, y, z] := by
  have hn := toNat_ofNat (n := (((b.toNat - 0xF0) * 0x40 + x.toNat % 0x40) * 0x40 +
    y.toNat % 0x40) * 0x40 + z.toNat % 0x40) (by omega)
  rw [String.utf8EncodeChar, hn]
  rw [if_neg (by omega), if_neg (by omega), if_neg (by omega), ofNat_eq (b := b) (by omega),
    ofNat_eq (b := x) (by omega), ofNat_eq (b := y) (by omega), ofNat_eq (b := z) (by omega)]

theorem bytes_of_lead {b : UInt8} {piece : Piece} (h : lead b = .inl piece) :
    piece.bytes = [b] := by
  rw [lead] at h
  split at h
  · next hb =>
    obtain rfl := Sum.inl.inj h
    rw [Piece.bytes, String.utf8EncodeChar, toNat_ofNat (by omega), if_pos (by omega),
      UInt8.ofNat_toNat]
  · split at h
    · obtain rfl := Sum.inl.inj h
      rfl
    · repeat' split at h
      all_goals simp at h
      obtain rfl := h
      rfl

theorem Continues.bounds {low high : UInt8} {x : UInt8} {rest : List UInt8}
    (h : Continues low high (x :: rest)) :
    (low.toNat ≤ x.toNat ∧ x.toNat ≤ high.toNat) ∧ Continues 0x80 0xBF rest :=
  ⟨⟨UInt8.le_iff_toNat_le.1 h.1.1, UInt8.le_iff_toNat_le.1 h.1.2⟩, h.2⟩

/-- A first byte with bounds that exclude long spellings and surrogates. -/
theorem spells_three {b : UInt8} {payload : Nat} {low high : UInt8}
    (hb : 0xE0 ≤ b.toNat ∧ b.toNat < 0xF0) (hpayload : payload = b.toNat - 0xE0)
    (hlow : 0x80 ≤ low.toNat ∧ (b.toNat = 0xE0 → 0xA0 ≤ low.toNat))
    (hhigh : high.toNat ≤ 0xBF ∧ (b.toNat = 0xED → high.toNat ≤ 0x9F)) :
    Unfinished.Spells { bytes := [b], payload, owed := 2, low, high } := by
  refine ⟨Nat.succ_pos _, fun rest hlength hrest => ?_⟩
  match rest, hlength with
  | [x, y], _ =>
    obtain ⟨hx, htail⟩ := hrest.bounds
    dsimp only at hx
    obtain ⟨hy, _⟩ := htail.bounds
    simp only [payloadAfter, List.foldl_cons, List.foldl_nil, hpayload]
    exact utf8EncodeChar_three hb (by omega) hy (by omega) (by omega)

theorem spells_four {b : UInt8} {payload : Nat} {low high : UInt8}
    (hb : 0xF0 ≤ b.toNat ∧ b.toNat ≤ 0xF4) (hpayload : payload = b.toNat - 0xF0)
    (hlow : 0x80 ≤ low.toNat ∧ (b.toNat = 0xF0 → 0x90 ≤ low.toNat))
    (hhigh : high.toNat ≤ 0xBF ∧ (b.toNat = 0xF4 → high.toNat ≤ 0x8F)) :
    Unfinished.Spells { bytes := [b], payload, owed := 3, low, high } := by
  refine ⟨Nat.succ_pos _, fun rest hlength hrest => ?_⟩
  match rest, hlength with
  | [x, y, z], _ =>
    obtain ⟨hx, htail⟩ := hrest.bounds
    dsimp only at hx
    obtain ⟨hy, htail⟩ := htail.bounds
    obtain ⟨hz, _⟩ := htail.bounds
    simp only [payloadAfter, List.foldl_cons, List.foldl_nil, hpayload]
    exact utf8EncodeChar_four hb (by omega) hy hz (by omega) (by omega)

theorem spells_two {b : UInt8} {payload : Nat} (hb : 0xC2 ≤ b.toNat ∧ b.toNat < 0xE0)
    (hpayload : payload = b.toNat - 0xC0) :
    Unfinished.Spells { bytes := [b], payload, owed := 1 } := by
  refine ⟨Nat.succ_pos _, fun rest hlength hrest => ?_⟩
  match rest, hlength with
  | [x], _ =>
    simp only [payloadAfter, List.foldl_cons, List.foldl_nil, hpayload]
    exact utf8EncodeChar_two hb hrest.bounds.1

/-- Every first byte of several bounds the byte after it so that they spell a character. -/
theorem spells_of_lead {b : UInt8} {u : Unfinished} (h : lead b = .inr u) :
    u.Spells ∧ u.bytes = [b] := by
  rw [lead] at h
  split at h
  · simp at h
  split at h
  · simp at h
  split at h
  · obtain rfl := Sum.inr.inj h
    exact ⟨spells_two (by omega) rfl, rfl⟩
  split at h
  · obtain rfl := Sum.inr.inj h
    exact ⟨spells_three (by omega) (by omega) ⟨by decide, fun _ => by decide⟩ (by simp; omega), rfl⟩
  split at h
  · obtain rfl := Sum.inr.inj h
    exact ⟨spells_three (by omega) (by omega) (by simp; omega) ⟨by decide, fun _ => by decide⟩, rfl⟩
  split at h
  · obtain rfl := Sum.inr.inj h
    exact ⟨spells_three (by omega) rfl (by simp; omega) (by simp; omega), rfl⟩
  split at h
  · obtain rfl := Sum.inr.inj h
    exact ⟨spells_four (by omega) (by omega) ⟨by decide, fun _ => by decide⟩ (by simp; omega), rfl⟩
  split at h
  · obtain rfl := Sum.inr.inj h
    exact ⟨spells_four (by omega) rfl (by simp; omega) (by simp; omega), rfl⟩
  split at h
  · obtain rfl := Sum.inr.inj h
    exact ⟨spells_four (by omega) (by omega) (by simp; omega) ⟨by decide, fun _ => by decide⟩, rfl⟩
  · simp at h

/-! ## All pieces -/

/-- The bytes of an unfinished character, if there is one. -/
def pending : Option Unfinished → List UInt8
  | some u => u.bytes
  | none => []

/-- The pieces are made of the bytes so far and those that come after. -/
theorem flatMap_bytes_piecesAfter {u : Option Unfinished} (h : ∀ v ∈ u, v.Spells)
    (bytes : List UInt8) : (piecesAfter u bytes).flatMap Piece.bytes = pending u ++ bytes := by
  have hlead : ∀ {b : UInt8} {rest : List UInt8},
      (∀ {u : Option Unfinished}, (∀ v ∈ u, v.Spells) →
        (piecesAfter u rest).flatMap Piece.bytes = pending u ++ rest) →
      (piecesAfter none (b :: rest)).flatMap Piece.bytes = b :: rest := by
    intro b rest ih
    rw [piecesAfter]
    cases hb : lead b with
    | inl piece => simp [bytes_of_lead hb, ih, pending]
    | inr v =>
      obtain ⟨hv, hbytes⟩ := spells_of_lead hb
      have hrest := ih (u := some v) (by simpa using hv)
      simpa [pending, hbytes] using hrest
  induction bytes generalizing u with
  | nil => cases u <;> simp [piecesAfter, pending, Piece.bytes]
  | cons b rest ih =>
    cases u with
    | none => exact hlead ih
    | some v =>
      have hv : v.Spells := h v rfl
      rw [piecesAfter]
      split
      · next hadmits =>
        cases hpush : v.push b with
        | inl piece => simp [hv.push_char hadmits hpush, ih, pending]
        | inr v' =>
          obtain ⟨hv', hbytes⟩ := hv.push_unfinished hadmits hpush
          have hrest := ih (u := some v') (by simpa using hv')
          simpa [pending, hbytes] using hrest
      · rw [List.flatMap_cons]
        exact congrArg (v.bytes ++ ·) (hlead ih)

/-- The pieces together are the bytes. -/
theorem flatMap_bytes_pieces (bytes : List UInt8) :
    (pieces bytes).flatMap Piece.bytes = bytes :=
  flatMap_bytes_piecesAfter (by simp) bytes

/-- Strict reading is inverse to spelling. -/
theorem decode?_eq_some_iff {bytes : List UInt8} {text : List Char} :
    decode? bytes = some text ↔ encode text = bytes := by
  constructor
  · intro h
    have hpieces : pieces bytes = text.map .char := by
      rw [decode?] at h
      generalize pieces bytes = all at h
      induction all generalizing text with
      | nil =>
        obtain rfl : text = [] := by simpa using h.symm
        rfl
      | cons piece rest ih =>
        simp only [List.mapM_cons, Option.bind_eq_bind, Option.bind_eq_some_iff] at h
        obtain ⟨c, hc, tail, htail, h⟩ := h
        obtain rfl := Option.some.inj h
        cases piece with
        | illFormed _ => simp [Piece.char?] at hc
        | char d =>
          obtain rfl := Option.some.inj hc
          rw [ih htail, List.map_cons]
    have hbytes := flatMap_bytes_pieces bytes
    rw [hpieces, List.flatMap_map] at hbytes
    exact hbytes
  · rintro rfl
    exact decode?_encode text

/-- A text is read back from its bytes by lenient reading too. -/
theorem decodeLossy_encode (s : List Char) : decodeLossy (encode s) = s := by
  rw [decodeLossy, pieces_encode, List.map_map]
  exact List.map_id s

/-- A text whose bytes start with those of another text starts with that text. -/
theorem isPrefix_of_encode {s t : List Char} (h : encode s <+: encode t) : s <+: t := by
  obtain ⟨rest, hrest⟩ := h
  have hpieces : s.map Piece.char ++ piecesAfter none rest = t.map Piece.char := by
    rw [← piecesAfter_encode_append, hrest, ← pieces_encode]
    rfl
  obtain ⟨start, hstart, heq⟩ := List.prefix_map_iff.1 ⟨_, hpieces⟩
  have hs : s = start := (List.map_inj_right fun c d h => Piece.char.inj h).1 heq
  exact hs ▸ hstart

end PluginDataset.Utf8
