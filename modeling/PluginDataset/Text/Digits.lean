/-!
# Digits of numbers

Positional notation of natural numbers over lists of characters.

## Main definitions

* `Text.digitValue?` reads one digit in a base up to sixteen.
* `Text.natOfDigits?` reads a non-empty text of digits.
* `Text.hexDigits`, `Text.decimalDigits` and `Text.octalDigits` write a number; `Text.hexByte` writes
  two digits.

## Main results

* `Text.natOfDigits?_decimalDigits`: a number is read back from its digits.
-/

namespace PluginDataset.Text

/-- The value of a digit, with letters of either case for ten to fifteen, if it is below `base`. -/
def digitValue? (base : Nat) (c : Char) : Option Nat :=
  let n := c.toNat
  let value? :=
    if 0x30 ≤ n ∧ n ≤ 0x39 then some (n - 0x30)
    else if 0x41 ≤ n ∧ n ≤ 0x46 then some (n - 0x37)
    else if 0x61 ≤ n ∧ n ≤ 0x66 then some (n - 0x57)
    else none
  value?.filter (· < base)

def addDigits? (base : Nat) : Nat → List Char → Option Nat
  | acc, [] => some acc
  | acc, c :: cs => do addDigits? base (acc * base + (← digitValue? base c)) cs

/-- The number that a non-empty text of digits writes. -/
def natOfDigits? (base : Nat) : List Char → Option Nat
  | [] => none
  | cs => addDigits? base 0 cs

/-- The digit of a value below sixteen, in lower case. -/
def digitChar (n : Nat) : Char :=
  if n < 10 then Char.ofNat (0x30 + n) else Char.ofNat (0x57 + n)

/-- The digits of `n` in front of `acc`; `fuel` bounds their number. -/
def digitsBefore (base : Nat) : (fuel : Nat) → Nat → List Char → List Char
  | 0, _, acc => acc
  | fuel + 1, n, acc =>
    if n < base then digitChar n :: acc
    else digitsBefore base fuel (n / base) (digitChar (n % base) :: acc)

def decimalDigits (n : Nat) : List Char :=
  digitsBefore 10 (n.log2 + 1) n []

/-- A number in base sixteen, without leading zeros, in lower case. -/
def hexDigits (n : Nat) : List Char :=
  digitsBefore 16 (n.log2 + 1) n []

/-- A number in base eight, without leading zeros. -/
def octalDigits (n : Nat) : List Char :=
  digitsBefore 8 (n.log2 + 1) n []

/-- A byte as two digits in base sixteen, in lower case. -/
def hexByte (b : UInt8) : List Char :=
  [digitChar (b.toNat / 16), digitChar (b.toNat % 16)]

def hexOfBytes (bytes : List UInt8) : List Char :=
  bytes.flatMap hexByte

/-- The bytes that pairs of digits in base sixteen write. -/
def bytesOfHex? : List Char → Option (List UInt8)
  | [] => some []
  | [_] => none
  | a :: b :: rest => do
    let high ← digitValue? 16 a
    let low ← digitValue? 16 b
    return UInt8.ofNat (high * 16 + low) :: (← bytesOfHex? rest)

theorem digitValue?_digitChar {base d : Nat} (hd : d < base) (hb : base ≤ 16) :
    digitValue? base (digitChar d) = some d := by
  have all : ∀ d < 16, digitValue? 16 (digitChar d) = some d := by decide
  have h := all d (by omega)
  simp only [digitValue?, Option.filter_eq_some_iff] at h ⊢
  exact ⟨h.1, by simpa using hd⟩

theorem digitValue?_lt {base d : Nat} {c : Char} (h : digitValue? base c = some d) : d < base := by
  simp only [digitValue?, Option.filter_eq_some_iff, decide_eq_true_eq] at h
  exact h.2

/-- A digit below ten is one of the ten digit characters. -/
theorem toNat_of_digitValue? {base d : Nat} {c : Char} (h : digitValue? base c = some d)
    (hd : d < 10) : c.toNat = 0x30 + d := by
  simp only [digitValue?, Option.filter_eq_some_iff] at h
  split at h
  · have := Option.some.inj h.1
    omega
  · split at h
    · have := Option.some.inj h.1
      omega
    · split at h
      · have := Option.some.inj h.1
        omega
      · simp at h

theorem addDigits?_cons {base acc n : Nat} {c : Char} {cs : List Char}
    (h : addDigits? base acc (c :: cs) = some n) :
    ∃ d, digitValue? base c = some d ∧ addDigits? base (acc * base + d) cs = some n := by
  simpa [addDigits?, Option.bind_eq_some_iff] using h

/-- Division by a base takes at least one binary digit off a number that is no digit. -/
theorem log2_div_lt {base n : Nat} (low : 2 ≤ base) (h : ¬n < base) : (n / base).log2 < n.log2 := by
  have hpos : n / base ≠ 0 := Nat.ne_of_gt (Nat.div_pos (Nat.le_of_not_lt h) (by omega))
  rw [Nat.log2_lt hpos]
  refine Nat.lt_of_le_of_lt (Nat.div_le_div_left low Nat.two_pos) (Nat.div_lt_of_lt_mul ?_)
  rw [← Nat.pow_succ']
  exact Nat.lt_log2_self

theorem addDigits?_digitsBefore {base : Nat} (low : 2 ≤ base) (high : base ≤ 16)
    {fuel n : Nat} (acc : List Char) (h : n.log2 < fuel) :
    addDigits? base 0 (digitsBefore base fuel n acc) = addDigits? base n acc := by
  induction fuel generalizing n acc with
  | zero => exact absurd h (Nat.not_lt_zero _)
  | succ fuel ih =>
    rw [digitsBefore]
    split
    · next hn => simp [addDigits?, digitValue?_digitChar hn high]
    · next hn =>
      have hlt : n % base < base := Nat.mod_lt _ (by omega)
      have hlog : (n / base).log2 < fuel :=
        Nat.lt_of_lt_of_le (log2_div_lt low hn) (Nat.le_of_lt_succ h)
      rw [ih _ hlog, addDigits?, digitValue?_digitChar hlt high, Option.bind_eq_bind,
        Option.bind_some, Nat.div_add_mod']

theorem digitsBefore_ne_nil {base fuel n : Nat} {acc : List Char} (h : 0 < fuel) :
    digitsBefore base fuel n acc ≠ [] := by
  have key : ∀ (fuel n : Nat) (acc : List Char), acc ≠ [] → digitsBefore base fuel n acc ≠ [] := by
    intro fuel
    induction fuel with
    | zero => exact fun _ _ h => h
    | succ fuel ih =>
      intro n acc _
      rw [digitsBefore]
      split
      · simp
      · exact ih _ _ (by simp)
  obtain ⟨fuel, rfl⟩ := Nat.exists_eq_succ_of_ne_zero (Nat.ne_of_gt h)
  rw [digitsBefore]
  split
  · simp
  · exact key _ _ _ (by simp)

theorem natOfDigits?_digitsBefore {base n : Nat} (low : 2 ≤ base) (high : base ≤ 16) :
    natOfDigits? base (digitsBefore base (n.log2 + 1) n []) = some n := by
  rw [natOfDigits?, addDigits?_digitsBefore low high [] (Nat.lt_succ_self _), addDigits?]
  exact digitsBefore_ne_nil (by omega)

/-- A number is read back from its digits in base ten. -/
theorem natOfDigits?_decimalDigits (n : Nat) : natOfDigits? 10 (decimalDigits n) = some n :=
  natOfDigits?_digitsBefore (by decide) (by decide)

example : decimalDigits 1000 = "1000".toList := by decide
example : hexDigits 0x10FFFF = "10ffff".toList := by decide
example : natOfDigits? 10 "0042".toList = some 42 := by decide

end PluginDataset.Text
