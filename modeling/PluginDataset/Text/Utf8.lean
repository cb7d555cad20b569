/-!
# UTF-8

Bytes and the characters that they spell. A byte sequence is cut into pieces, each a character or
a maximal run of bytes that cannot be continued to one; strict reading accepts only characters,
lenient reading puts U+FFFD in place of the rest.

## Main definitions

* `Utf8.encode` spells a text in bytes.
* `Utf8.pieces` cuts bytes into characters and ill-formed runs.
* `Utf8.decode?` and `Utf8.decodeLossy` read bytes strictly and leniently.
* `Utf8.splitAt?` cuts a text at a byte offset, if the offset is a character boundary.

## Main results

* `Utf8.decode?_encode`: a text is read back from its bytes.
* `Utf8.splitAt?_eq_some_iff`: a text is cut at an offset just if a character ends there.
-/

namespace PluginDataset.Utf8

def encode (s : List Char) : List UInt8 :=
  s.flatMap String.utf8EncodeChar

/-- A part of a byte sequence: a character, or bytes that spell none. -/
inductive Piece where
  | char (c : Char)
  | illFormed (bytes : List UInt8)
deriving DecidableEq, Repr

/-- A character of which some bytes are missing: the bytes so far, their payload, the number of
bytes owed, and the bounds of the next one. -/
structure Unfinished where
  bytes : List UInt8
  payload : Nat
  owed : Nat
  low : UInt8 := 0x80
  high : UInt8 := 0xBF

/-- What a byte means where a character starts. The bounds of the second byte exclude long
spellings, surrogates and code points above U+10FFFF. -/
def lead (b : UInt8) : Piece ⊕ Unfinished :=
  let n := b.toNat
  if n < 0x80 then .inl (.char (Char.ofNat n))
  else if n < 0xC2 then .inl (.illFormed [b])
  else if n < 0xE0 then .inr { bytes := [b], payload := n - 0xC0, owed := 1 }
  else if n = 0xE0 then .inr { bytes := [b], payload := 0, owed := 2, low := 0xA0 }
  else if n = 0xED then .inr { bytes := [b], payload := 0xD, owed := 2, high := 0x9F }
  else if n < 0xF0 then .inr { bytes := [b], payload := n - 0xE0, owed := 2 }
  else if n = 0xF0 then .inr { bytes := [b], payload := 0, owed := 3, low := 0x90 }
  else if n < 0xF4 then .inr { bytes := [b], payload := n - 0xF0, owed := 3 }
  else if n = 0xF4 then .inr { bytes := [b], payload := 4, owed := 3, high := 0x8F }
  else .inl (.illFormed [b])

def Unfinished.admits (u : Unfinished) (b : UInt8) : Bool :=
  u.low ≤ b && b ≤ u.high

def Unfinished.push (u : Unfinished) (b : UInt8) : Piece ⊕ Unfinished :=
  let payload := u.payload * 0x40 + b.toNat % 0x40
  if u.owed ≤ 1 then .inl (.char (Char.ofNat payload))
  else .inr { bytes := u.bytes ++ [b], payload, owed := u.owed - 1 }

/-- The pieces of the bytes that come after an unfinished character, or after none. -/
def piecesAfter : Option Unfinished → List UInt8 → List Piece
  | none, [] => []
  | some u, [] => [.illFormed u.bytes]
  | none, b :: rest =>
    match lead b with
    | .inl piece => piece :: piecesAfter none rest
    | .inr u => piecesAfter (some u) rest
  | some u, b :: rest =>
    if u.admits b then
      match u.push b with
      | .inl piece => piece :: piecesAfter none rest
      | .inr u' => piecesAfter (some u') rest
    else
      .illFormed u.bytes ::
        match lead b with
        | .inl piece => piece :: piecesAfter none rest
        | .inr u' => piecesAfter (some u') rest

/-- Bytes cut into characters and maximal runs that no continuation makes a character. -/
def pieces (bytes : List UInt8) : List Piece :=
  piecesAfter none bytes

def Piece.char? : Piece → Option Char
  | .char c => some c
  | .illFormed _ => none

/-- The text that the bytes spell, if every piece is a character. -/
def decode? (bytes : List UInt8) : Option (List Char) :=
  (pieces bytes).mapM Piece.char?

/-- The text of the bytes, with U+FFFD for each ill-formed run. -/
def decodeLossy (bytes : List UInt8) : List Char :=
  (pieces bytes).map fun p => p.char?.getD '\uFFFD'

/-- The text cut after `offset` bytes, if a character ends there. -/
def splitAt? : Nat → List Char → Option (List Char × List Char)
  | 0, s => some ([], s)
  | _ + 1, [] => none
  | offset + 1, c :: cs =>
    if c.utf8Size ≤ offset + 1 then
      (splitAt? (offset + 1 - c.utf8Size) cs).map fun (left, right) => (c :: left, right)
    else none

@[simp] theorem encode_nil : encode [] = [] := rfl

theorem encode_cons (c : Char) (s : List Char) :
    encode (c :: s) = String.utf8EncodeChar c ++ encode s :=
  List.flatMap_cons

theorem encode_append (s t : List Char) : encode (s ++ t) = encode s ++ encode t :=
  List.flatMap_append

theorem length_encode_cons (c : Char) (s : List Char) :
    (encode (c :: s)).length = c.utf8Size + (encode s).length := by
  rw [encode_cons, List.length_append, String.length_utf8EncodeChar]

theorem length_encode_append (s t : List Char) :
    (encode (s ++ t)).length = (encode s).length + (encode t).length := by
  rw [encode_append, List.length_append]

/-- A text that is not empty is spelled by at least one byte. -/
theorem encode_cons_ne_nil (c : Char) (s : List Char) : encode (c :: s) ≠ [] := by
  rw [encode_cons]
  intro h
  exact String.utf8EncodeChar_ne_nil (List.append_eq_nil_iff.1 h).1

theorem toNat_ofNat_of_lt {n : Nat} (h : n < 256) : (UInt8.ofNat n).toNat = n := by
  simp [UInt8.toNat_ofNat', Nat.mod_eq_of_lt h]

/-- A byte within its bounds is taken up by an unfinished character. -/
theorem piecesAfter_some_cons {u : Unfinished} {b : UInt8} {rest : List UInt8}
    (low : u.low.toNat ≤ b.toNat) (high : b.toNat ≤ u.high.toNat) :
    piecesAfter (some u) (b :: rest) =
      match u.push b with
      | .inl piece => piece :: piecesAfter none rest
      | .inr u' => piecesAfter (some u') rest := by
  have : u.admits b = true := by
    simp [Unfinished.admits, UInt8.le_iff_toNat_le, low, high]
  rw [piecesAfter, if_pos this]

theorem piecesAfter_last {u : Unfinished} {n : Nat} {rest : List UInt8} (owed : u.owed = 1)
    (low : u.low.toNat ≤ n) (high : n ≤ u.high.toNat) (lt : n < 256) :
    piecesAfter (some u) (UInt8.ofNat n :: rest) =
      .char (Char.ofNat (u.payload * 64 + n % 64)) :: piecesAfter none rest := by
  have hn := toNat_ofNat_of_lt lt
  rw [piecesAfter_some_cons (by rwa [hn]) (by rwa [hn]), Unfinished.push, hn, owed]
  rfl

/-- A byte of a character before the last one adds six bits to it. -/
theorem piecesAfter_next {u : Unfinished} {n : Nat} {rest : List UInt8} (owed : 1 < u.owed)
    (low : u.low.toNat ≤ n) (high : n ≤ u.high.toNat) (lt : n < 256) :
    piecesAfter (some u) (UInt8.ofNat n :: rest) =
      piecesAfter (some { bytes := u.bytes ++ [UInt8.ofNat n]
                          payload := u.payload * 64 + n % 64
                          owed := u.owed - 1 }) rest := by
  have hn := toNat_ofNat_of_lt lt
  rw [piecesAfter_some_cons (by rwa [hn]) (by rwa [hn]), Unfinished.push, hn, if_neg (by omega)]

theorem lead_two {k : Nat} (low : 2 ≤ k) (high : k < 32) :
    lead (UInt8.ofNat (k + 192)) =
      .inr { bytes := [UInt8.ofNat (k + 192)], payload := k, owed := 1 } := by
  simp only [lead, toNat_ofNat_of_lt (n := k + 192) (by omega)]
  rw [if_neg (by omega), if_neg (by omega), if_pos (by omega)]
  simp

theorem lead_three {k : Nat} (high : k < 16) :
    lead (UInt8.ofNat (k + 224)) =
      .inr { bytes := [UInt8.ofNat (k + 224)], payload := k, owed := 2,
             low := if k = 0 then 0xA0 else 0x80, high := if k = 13 then 0x9F else 0xBF } := by
  by_cases h0 : k = 0
  · subst h0; rfl
  by_cases h13 : k = 13
  · subst h13; rfl
  simp only [lead, toNat_ofNat_of_lt (n := k + 224) (by omega)]
  rw [if_neg (by omega), if_neg (by omega), if_neg (by omega), if_neg (by omega),
    if_neg (by omega), if_pos (by omega), if_neg h0, if_neg h13]
  simp

theorem lead_four {k : Nat} (high : k < 5) :
    lead (UInt8.ofNat (k + 240)) =
      .inr { bytes := [UInt8.ofNat (k + 240)], payload := k, owed := 3,
             low := if k = 0 then 0x90 else 0x80, high := if k = 4 then 0x8F else 0xBF } := by
  match k, high with
  | 0, _ | 1, _ | 2, _ | 3, _ | 4, _ => rfl

/-- The bytes of a character are read back as the character. -/
theorem piecesAfter_utf8EncodeChar (c : Char) (rest : List UInt8) :
    piecesAfter none (String.utf8EncodeChar c ++ rest) = .char c :: piecesAfter none rest := by
  have valid : c.toNat < 0xD800 ∨ 0xDFFF < c.toNat ∧ c.toNat < 0x110000 := c.valid
  have ofNat_eq {n : Nat} (h : n = c.toNat) : Char.ofNat n = c := h ▸ Char.ofNat_toNat c
  unfold String.utf8EncodeChar
  rw [show c.val.toNat = c.toNat from rfl]
  generalize c.toNat = n at valid ofNat_eq
  dsimp only
  split
  · next h =>
    simp only [List.cons_append, List.nil_append, piecesAfter, lead,
      toNat_ofNat_of_lt (n := n) (by omega)]
    rw [if_pos (by omega), ofNat_eq rfl]
  split
  · rw [List.cons_append, List.cons_append, List.nil_append, piecesAfter,
      lead_two (by omega) (by omega)]
    dsimp only
    rw [piecesAfter_last rfl (by simp) (by simp; omega) (by omega), ofNat_eq (by simp; omega)]
  split
  · rw [List.cons_append, List.cons_append, List.cons_append, List.nil_append, piecesAfter,
      lead_three (by omega)]
    dsimp only
    rw [piecesAfter_next (by simp) (by dsimp only; split <;> grind)
      (by dsimp only; split <;> grind) (by omega)]
    rw [piecesAfter_last rfl (by simp) (by simp; omega) (by omega), ofNat_eq (by simp; omega)]
  · rw [List.cons_append, List.cons_append, List.cons_append, List.cons_append, List.nil_append,
      piecesAfter, lead_four (by omega)]
    dsimp only
    rw [piecesAfter_next (by simp) (by dsimp only; split <;> grind)
      (by dsimp only; split <;> grind) (by omega)]
    rw [piecesAfter_next (by simp) (by simp) (by simp; omega) (by omega)]
    rw [piecesAfter_last rfl (by simp) (by simp; omega) (by omega), ofNat_eq (by simp; omega)]

/-- The pieces of a text's bytes are its characters, whatever comes after them. -/
theorem piecesAfter_encode_append (s : List Char) (rest : List UInt8) :
    piecesAfter none (encode s ++ rest) = s.map .char ++ piecesAfter none rest := by
  induction s with
  | nil => rfl
  | cons c cs ih =>
    rw [encode_cons, List.append_assoc, piecesAfter_utf8EncodeChar, ih]
    rfl

theorem pieces_encode (s : List Char) : pieces (encode s) = s.map .char := by
  have h := piecesAfter_encode_append s []
  rwa [List.append_nil, piecesAfter, List.append_nil] at h

theorem decode?_encode (s : List Char) : decode? (encode s) = some s := by
  rw [decode?, pieces_encode]
  induction s with
  | nil => rfl
  | cons c cs ih => simp [Piece.char?, ih]

theorem splitAt?_encode (body after : List Char) :
    splitAt? (encode body).length (body ++ after) = some (body, after) := by
  induction body with
  | nil => rw [encode_nil, List.length_nil, List.nil_append, splitAt?]
  | cons c body ih =>
    obtain ⟨n, hn⟩ : ∃ n, c.utf8Size = n + 1 := ⟨c.utf8Size - 1, by have := c.utf8Size_pos; omega⟩
    rw [length_encode_cons, Nat.add_comm, hn, ← Nat.add_assoc, List.cons_append, splitAt?,
      if_pos (by omega), hn, Nat.add_assoc, Nat.add_sub_cancel, ih]
    rfl

/-- A text is cut at an offset if this is the number of bytes of a part at its start. -/
theorem splitAt?_eq_some_iff {offset : Nat} {s body after : List Char} :
    splitAt? offset s = some (body, after) ↔
      s = body ++ after ∧ offset = (encode body).length := by
  constructor
  · intro h
    fun_induction splitAt? offset s generalizing body with
    | case1 =>
      obtain ⟨rfl, rfl⟩ := Prod.mk.inj (Option.some.inj h)
      exact ⟨rfl, rfl⟩
    | case2 => simp at h
    | case3 offset c cs hle ih =>
      obtain ⟨⟨body', after'⟩, hcut, heq⟩ := Option.map_eq_some_iff.1 h
      obtain ⟨rfl, rfl⟩ := Prod.mk.inj heq
      obtain ⟨rfl, hoffset⟩ := ih hcut
      refine ⟨rfl, ?_⟩
      rw [length_encode_cons]
      omega
    | case4 => simp at h
  · rintro ⟨rfl, rfl⟩
    exact splitAt?_encode body after

end PluginDataset.Utf8
