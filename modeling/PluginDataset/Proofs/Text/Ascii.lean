import Mathlib.Data.List.Induction
import Mathlib.Tactic.SplitIfs
import PluginDataset.Text.Utf8

/-!
# Bytes of ASCII characters

An ASCII character is spelled by one byte, which is in the spelling of no other character. Such
characters can therefore be looked for in the bytes of a text.

## Main results

* `Utf8.utf8EncodeChar_eq_or`: one small byte, or only large bytes.
* `Utf8.ofNat_mem_encode_iff`: the byte of an ASCII character is in the bytes of a text just when
  the character is in the text.
* `Utf8.exists_of_encode_eq_append`: bytes of ASCII characters at the end are these characters.
-/

namespace PluginDataset.Utf8

/-- A character is spelled by its own number, or by bytes that are no ASCII characters. -/
theorem utf8EncodeChar_eq_or (c : Char) :
    (c.toNat < 0x80 ∧ String.utf8EncodeChar c = [UInt8.ofNat c.toNat]) ∨
      (0x80 ≤ c.toNat ∧ ∀ b ∈ String.utf8EncodeChar c, 0x80 ≤ b.toNat) := by
  have hn : c.toNat = c.val.toNat := rfl
  unfold String.utf8EncodeChar
  rw [hn]
  generalize c.val.toNat = n
  dsimp only
  by_cases hsmall : n ≤ 127
  · exact .inl ⟨by omega, by rw [if_pos hsmall]⟩
  · refine .inr ⟨by omega, ?_⟩
    rw [if_neg hsmall]
    split_ifs
    all_goals
      simp only [List.mem_cons, List.not_mem_nil, or_false, forall_eq_or_imp, forall_eq,
        UInt8.toNat_ofNat']
      omega

theorem exists_utf8EncodeChar (c : Char) : ∃ b bytes, String.utf8EncodeChar c = b :: bytes ∧
    ∀ x ∈ bytes, 0x80 ≤ x.toNat := by
  rcases utf8EncodeChar_eq_or c with ⟨_, h⟩ | ⟨_, h⟩
  · exact ⟨_, [], h, by simp⟩
  · cases hc : String.utf8EncodeChar c with
    | nil => exact absurd hc String.utf8EncodeChar_ne_nil
    | cons b bytes =>
      rw [hc] at h
      exact ⟨b, bytes, rfl, fun x hx => h x (List.mem_cons_of_mem _ hx)⟩

/-- Small numbers are told apart by their bytes. -/
theorem eq_of_ofNat_toNat_eq {c d : Char} (hc : c.toNat < 0x80) (hd : d.toNat < 0x80)
    (h : UInt8.ofNat c.toNat = UInt8.ofNat d.toNat) : c = d := by
  have hnat := congrArg UInt8.toNat h
  rw [UInt8.toNat_ofNat', UInt8.toNat_ofNat'] at hnat
  exact Char.toNat_inj.1 (by omega)

/-- The byte of an ASCII character stands for this character alone. -/
theorem ofNat_mem_encode_iff {c : Char} (hc : c.toNat < 0x80) {s : List Char} :
    UInt8.ofNat c.toNat ∈ encode s ↔ c ∈ s := by
  have hbyte : (UInt8.ofNat c.toNat).toNat = c.toNat := by
    rw [UInt8.toNat_ofNat']
    omega
  rw [encode, List.mem_flatMap]
  constructor
  · rintro ⟨d, hd, hmem⟩
    rcases utf8EncodeChar_eq_or d with ⟨hsmall, hspelled⟩ | ⟨_, hlarge⟩
    · rw [hspelled, List.mem_singleton] at hmem
      obtain rfl := eq_of_ofNat_toNat_eq hc hsmall hmem
      exact hd
    · have hle := hlarge _ hmem
      omega
  · intro hmem
    refine ⟨c, hmem, ?_⟩
    rcases utf8EncodeChar_eq_or c with ⟨_, hspelled⟩ | ⟨hlarge, _⟩
    · rw [hspelled]
      exact List.mem_singleton_self _
    · omega

/-- The byte of an ASCII character at the end of a text is this character. -/
theorem exists_of_encode_eq_concat {text : List Char} {bytes : List UInt8} {c : Char}
    (hc : c.toNat < 0x80) (h : encode text = bytes ++ [UInt8.ofNat c.toNat]) :
    ∃ t, text = t ++ [c] ∧ bytes = encode t := by
  rcases List.eq_nil_or_concat text with rfl | ⟨t, d, rfl⟩
  · simp at h
  · have hlast : encode [d] = String.utf8EncodeChar d := List.flatMap_singleton ..
    rw [List.concat_eq_append] at h ⊢
    rw [encode_append, hlast] at h
    rcases utf8EncodeChar_eq_or d with ⟨hd, hspelled⟩ | ⟨_, hlarge⟩
    · rw [hspelled] at h
      obtain ⟨hbytes, hbyte⟩ := List.append_inj' h rfl
      obtain rfl := eq_of_ofNat_toNat_eq hd hc (List.cons.inj hbyte).1
      exact ⟨t, rfl, hbytes.symm⟩
    · -- the last byte would be a large one
      rcases List.eq_nil_or_concat (String.utf8EncodeChar d) with hnil | ⟨x, b, hspelled⟩
      · exact absurd hnil String.utf8EncodeChar_ne_nil
      · rw [List.concat_eq_append] at hspelled
        rw [hspelled, ← List.append_assoc] at h
        obtain ⟨_, hbyte⟩ := List.append_inj' h rfl
        obtain rfl := (List.cons.inj hbyte).1
        have hge := hlarge _ (hspelled ▸ List.mem_append_right x List.mem_cons_self)
        rw [UInt8.toNat_ofNat'] at hge
        omega

/-- The bytes of ASCII characters at the end of a text are these characters. -/
theorem exists_of_encode_eq_append {text s : List Char} {bytes : List UInt8}
    (hs : ∀ c ∈ s, c.toNat < 0x80) (h : encode text = bytes ++ encode s) :
    ∃ t, text = t ++ s ∧ bytes = encode t := by
  induction s using List.reverseRecOn generalizing text with
  | nil => exact ⟨text, (List.append_nil text).symm, by simpa using h.symm⟩
  | append_singleton s c ih =>
    rw [List.forall_mem_append, List.forall_mem_singleton] at hs
    have hlast : encode [c] = [UInt8.ofNat c.toNat] := by
      rcases utf8EncodeChar_eq_or c with ⟨_, hspelled⟩ | ⟨hlarge, _⟩
      · exact (List.flatMap_singleton ..).trans hspelled
      · exact absurd hs.2 (by omega)
    rw [encode_append, hlast, ← List.append_assoc] at h
    obtain ⟨text', rfl, htext'⟩ := exists_of_encode_eq_concat hs.2 h
    obtain ⟨t, rfl, hbytes⟩ := ih hs.1 htext'.symm
    exact ⟨t, List.append_assoc .., hbytes⟩

end PluginDataset.Utf8
