import PluginDataset.Json.Printer
import PluginDataset.Json.Reader
import PluginDataset.Text.Utf8

/-!
# Characters and digits

What single characters of strings and numbers are read as: a plain character of a string stands for
itself, and digits are summed up to the number that they spell.

## Main definitions

* `Json.EndsNumber` says that a text does not continue a number.

## Main results

* `Json.readString?_cons`: a character that needs no escape is read as itself.
* `Json.pushWhole_of_addDigits?`: the digits of a number of 64 bits are read as that number.
-/

namespace PluginDataset

namespace Text

/-- A digit in base ten is one of the ten digit characters. -/
theorem digitValue?_ten {c : Char} {d : Nat} (h : digitValue? 10 c = some d) :
    c.isDigit = true ∧ d = c.toNat - 0x30 := by
  have hlt := digitValue?_lt h
  have hc := toNat_of_digitValue? h hlt
  refine ⟨?_, by omega⟩
  simp only [Char.isDigit, Bool.and_eq_true, decide_eq_true_eq, UInt32.le_iff_toNat_le]
  change 48 ≤ c.toNat ∧ c.toNat ≤ 57
  omega

/-- Every character of a number in base ten is a digit. -/
theorem isDigit_of_addDigits? {acc n : Nat} {cs : List Char}
    (h : addDigits? 10 acc cs = some n) : ∀ c ∈ cs, c.isDigit = true := by
  induction cs generalizing acc with
  | nil => simp
  | cons c cs ih =>
    obtain ⟨d, hd, hrest⟩ := addDigits?_cons h
    intro x hx
    rcases List.mem_cons.1 hx with rfl | hx
    · exact (digitValue?_ten hd).1
    · exact ih hrest x hx

/-- More digits make no smaller number. -/
theorem le_of_addDigits? {acc n : Nat} {cs : List Char} (h : addDigits? 10 acc cs = some n) :
    acc ≤ n := by
  induction cs generalizing acc with
  | nil => exact Nat.le_of_eq (Option.some.inj h)
  | cons c cs ih =>
    obtain ⟨d, _, hrest⟩ := addDigits?_cons h
    have := ih hrest
    omega

theorem addDigits?_decimalDigits (n : Nat) : addDigits? 10 0 (decimalDigits n) = some n := by
  have h := natOfDigits?_decimalDigits n
  rwa [natOfDigits?] at h
  exact digitsBefore_ne_nil (by omega)

theorem decimalDigits_ne_nil (n : Nat) : decimalDigits n ≠ [] :=
  digitsBefore_ne_nil (by omega)

theorem isDigit_decimalDigits (n : Nat) : ∀ c ∈ decimalDigits n, c.isDigit = true :=
  isDigit_of_addDigits? (addDigits?_decimalDigits n)

/-- The first digit of a positive number is not zero. -/
theorem head?_digitsBefore {fuel n : Nat} {acc : List Char} (hpos : 0 < n)
    (hlog : n.log2 < fuel) : (digitsBefore 10 fuel n acc).head? ≠ some '0' := by
  induction fuel generalizing n acc with
  | zero => exact absurd hlog (Nat.not_lt_zero _)
  | succ fuel ih =>
    rw [digitsBefore]
    split
    · next hn =>
      have all : ∀ d < 10, 0 < d → digitChar d ≠ '0' := by decide
      simpa using all n hn hpos
    · next hn =>
      refine ih (by omega) ?_
      exact Nat.lt_of_lt_of_le (log2_div_lt (by decide) hn) (Nat.le_of_lt_succ hlog)

/-- A number is written without leading zeros. -/
theorem decimalDigits_leading (n : Nat) :
    ¬(1 < (decimalDigits n).length ∧ (decimalDigits n).head? = some '0') := by
  rintro ⟨hlen, hhead⟩
  by_cases hn : n = 0
  · subst hn
    exact absurd hlen (by decide)
  · exact head?_digitsBefore (Nat.pos_of_ne_zero hn) (Nat.lt_succ_self _) hhead

end Text

namespace Json

/-! ## Strings -/

theorem codeUnit?_control :
    ∀ n < 0x20, codeUnit? '0' '0' (Text.digitChar (n / 16)) (Text.digitChar (n % 16)) = some n := by
  decide

/-- A character that is neither a quote, a backslash nor a control stands for itself. -/
theorem readString?_cons {c : Char} (hquote : c ≠ '"') (hslash : c ≠ '\\')
    (hge : ¬c.toNat < 0x20) (s : List Char) :
    readString? (c :: s) = consChar c (readString? s) := by
  rw [readString?.eq_def]
  split
  · next h => simp at h
  · next h => exact absurd (List.cons.inj h).1 hquote
  · next h => exact absurd (List.cons.inj h).1 hslash
  · next h => exact absurd (List.cons.inj h).1 hslash
  · next h =>
    obtain ⟨rfl, rfl⟩ := List.cons.inj h
    exact if_neg hge

/-! ## Numbers -/

/-- A text that does not continue a number. -/
def EndsNumber (rest : List Char) : Prop :=
  ∀ c ∈ rest.head?, c.isDigit = false ∧ c ≠ '.' ∧ c ≠ 'e' ∧ c ≠ 'E'

theorem endsNumber_nil : EndsNumber [] := by
  simp [EndsNumber]

theorem endsNumber_cons {c : Char} {rest : List Char}
    (h : c.isDigit = false ∧ c ≠ '.' ∧ c ≠ 'e' ∧ c ≠ 'E') : EndsNumber (c :: rest) := by
  intro d hd
  obtain rfl : c = d := by simpa using hd
  exact h

/-- All digits of a number of 64 bits fit. -/
theorem pushWhole_of_addDigits? {acc n : Nat} {scale : Int} {digits : List Char}
    (h : Text.addDigits? 10 acc digits = some n) (hn : n < 0x10000000000000000) :
    pushWhole true ⟨acc, scale⟩ digits = (true, ⟨n, scale⟩) := by
  induction digits generalizing acc with
  | nil =>
    obtain rfl : acc = n := Option.some.inj h
    rw [pushWhole]
  | cons c cs ih =>
    obtain ⟨d, hd, hrest⟩ := Text.addDigits?_cons h
    have hle := Text.le_of_addDigits? hrest
    have hpush : pushDigit? acc c = some (acc * 10 + d) := by
      rw [(Text.digitValue?_ten hd).2] at hle ⊢
      exact pushDigit?_of_lt (Nat.lt_of_le_of_lt hle hn)
    rw [pushWhole, hpush]
    exact ih hrest

end Json

end PluginDataset
