import Mathlib.Tactic.SplitIfs
import Mathlib.Tactic.Tauto
import PluginDataset.Text.Utf8

/-!
# The order of texts and of their bytes

Texts are compared character by character, files and stored data byte by byte. UTF-8 makes the two
orders one: a smaller character is spelled by smaller bytes, since the first byte grows with the
length of the spelling and the payload is written from its highest bits on.

## Main results

* `Utf8.encode_lt_encode_iff`: texts and their bytes are in the same order.
-/

namespace PluginDataset.Utf8

/-- Bytes are compared by the numbers that they hold. -/
theorem ofNat_cons_lt {m n : Nat} (hm : m < 256) (hn : n < 256) (u v : List UInt8) :
    UInt8.ofNat m :: u < UInt8.ofNat n :: v ↔ m < n ∨ m = n ∧ u < v := by
  rw [List.cons_lt_cons_iff, UInt8.lt_iff_toNat_lt, ← UInt8.toNat_inj, toNat_ofNat_of_lt hm,
    toNat_ofNat_of_lt hn]

/-- Numbers are compared by their digits in base 64, which are the payloads of bytes. -/
theorem lt_iff_div_mod (m n : Nat) :
    m < n ↔ m / 64 < n / 64 ∨ m / 64 = n / 64 ∧ m % 64 < n % 64 := by
  omega

theorem eq_iff_div_mod (m n : Nat) : m = n ↔ m / 64 = n / 64 ∧ m % 64 = n % 64 := by
  omega

/-- A smaller character is spelled by smaller bytes, whatever comes after it. -/
theorem utf8EncodeChar_append_lt {c d : Char} (h : c < d) (u v : List UInt8) :
    String.utf8EncodeChar c ++ u < String.utf8EncodeChar d ++ v := by
  have hlt : c.val.toNat < d.val.toNat := h
  have hd : d.val.toNat < 0x110000 := by
    have := d.valid
    simp only [UInt32.isValidChar, Nat.isValidChar] at this
    omega
  unfold String.utf8EncodeChar
  generalize c.val.toNat = m at hlt
  generalize d.val.toNat = n at hlt hd
  have hm₂ : m / 4096 = m / 64 / 64 := by omega
  have hn₂ : n / 4096 = n / 64 / 64 := by omega
  have hm₃ : m / 262144 = m / 64 / 64 / 64 := by omega
  have hn₃ : n / 262144 = n / 64 / 64 / 64 := by omega
  dsimp only
  split_ifs
  all_goals try omega
  all_goals simp (disch := omega) only [List.cons_append, List.nil_append, ofNat_cons_lt]
  -- the first byte of a longer spelling is the greater one
  all_goals try exact Or.inl (by omega)
  -- spellings of one length are compared digit by digit
  all_goals simp only [hm₂, hn₂, hm₃, hn₃, Nat.add_lt_add_iff_right, Nat.add_right_cancel_iff]
  · rw [Nat.mod_eq_of_lt (show m / 64 < 32 by omega), Nat.mod_eq_of_lt (show n / 64 < 32 by omega)]
    rw [lt_iff_div_mod m n] at hlt
    tauto
  · rw [Nat.mod_eq_of_lt (show m / 64 / 64 < 16 by omega),
      Nat.mod_eq_of_lt (show n / 64 / 64 < 16 by omega)]
    rw [lt_iff_div_mod m n, lt_iff_div_mod (m / 64) (n / 64), eq_iff_div_mod (m / 64) (n / 64)]
      at hlt
    tauto
  · rw [Nat.mod_eq_of_lt (show m / 64 / 64 / 64 < 8 by omega),
      Nat.mod_eq_of_lt (show n / 64 / 64 / 64 < 8 by omega)]
    rw [lt_iff_div_mod m n, lt_iff_div_mod (m / 64) (n / 64), eq_iff_div_mod (m / 64) (n / 64),
      lt_iff_div_mod (m / 64 / 64) (n / 64 / 64), eq_iff_div_mod (m / 64 / 64) (n / 64 / 64)]
      at hlt
    tauto

/-- A smaller text is spelled by smaller bytes. -/
theorem encode_lt_encode {s t : List Char} (h : s < t) : encode s < encode t := by
  induction s generalizing t with
  | nil =>
    cases t with
    | nil => exact absurd h (List.lt_irrefl _)
    | cons d t =>
      cases hd : encode (d :: t) with
      | nil => exact absurd hd (encode_cons_ne_nil d t)
      | cons b bs => exact List.nil_lt_cons b bs
  | cons c s ih =>
    cases t with
    | nil => exact absurd h (List.not_lt_nil _)
    | cons d t =>
      rw [encode_cons, encode_cons]
      rcases List.cons_lt_cons_iff.1 h with hcd | ⟨rfl, hst⟩
      · exact utf8EncodeChar_append_lt hcd _ _
      · exact List.append_left_lt (ih hst)

/-- Texts and their bytes are in the same order. -/
theorem encode_lt_encode_iff {s t : String} : encode s.toList < encode t.toList ↔ s < t := by
  constructor
  · intro h
    by_cases hts : t ≤ s
    · rcases Std.le_iff_lt_or_eq.1 hts with hts | rfl
      · exact absurd (List.lt_trans h (encode_lt_encode hts)) (List.lt_irrefl _)
      · exact absurd h (List.lt_irrefl _)
    · exact Std.not_le.1 hts
  · exact encode_lt_encode

end PluginDataset.Utf8
