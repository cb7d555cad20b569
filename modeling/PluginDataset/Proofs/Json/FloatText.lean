import PluginDataset.Proofs.Json.NumberRange

/-!
# The text of a binary64 number

The text of a binary64 number is written in the notation of numbers, and what it writes is its
shortest decimal. That one is in range, so that the text of every number is read as some number.

## Main definitions

* `Binary64.IsSignificant` says what the significant digits of a number are.

## Main results

* `Json.exists_numberText_text`: the text of a number in range is a number in range.
-/

namespace PluginDataset

namespace Text

/-! ## Digits -/

theorem addDigits?_append (base acc : ℕ) (s t : List Char) :
    addDigits? base acc (s ++ t) = (addDigits? base acc s).bind (addDigits? base · t) := by
  induction s generalizing acc with
  | nil => rfl
  | cons c s ih =>
    rw [List.cons_append, addDigits?, addDigits?, Option.bind_eq_bind, Option.bind_assoc]
    exact Option.bind_congr fun d _ => ih _

theorem addDigits?_zeros (acc k : ℕ) :
    addDigits? 10 acc (List.replicate k '0') = some (acc * 10 ^ k) := by
  induction k generalizing acc with
  | zero => simp [addDigits?]
  | succ k ih =>
    rw [List.replicate_succ, addDigits?, show digitValue? 10 '0' = some 0 from by decide,
      Option.bind_eq_bind, Option.bind_some, ih, pow_succ']
    congr 1
    ring

/-- Digits are read whatever stands before them. -/
theorem exists_addDigits? {s : List Char} (h : ∀ c ∈ s, c.isDigit = true) (acc : ℕ) :
    ∃ n, addDigits? 10 acc s = some n := by
  induction s generalizing acc with
  | nil => exact ⟨acc, rfl⟩
  | cons c s ih =>
    have hc := h c List.mem_cons_self
    have hvalue : ∃ d, digitValue? 10 c = some d := by
      simp only [Char.isDigit, Bool.and_eq_true, decide_eq_true_eq, UInt32.le_iff_toNat_le] at hc
      have hrange : 0x30 ≤ c.toNat ∧ c.toNat ≤ 0x39 := hc
      refine ⟨c.toNat - 0x30, ?_⟩
      rw [digitValue?, if_pos hrange, Option.filter_some, if_pos]
      simp
      omega
    obtain ⟨d, hd⟩ := hvalue
    obtain ⟨n, hn⟩ := ih (fun x hx => h x (List.mem_cons_of_mem c hx)) (acc * 10 + d)
    exact ⟨n, by rw [addDigits?, hd, Option.bind_eq_bind, Option.bind_some, hn]⟩

/-- A number has no more digits than places are left for them. -/
theorem addDigits?_lt {acc n : ℕ} {s : List Char} (h : addDigits? 10 acc s = some n) :
    n < (acc + 1) * 10 ^ s.length := by
  induction s generalizing acc with
  | nil =>
    obtain rfl : acc = n := Option.some.inj h
    simp
  | cons c s ih =>
    obtain ⟨d, hd, hrest⟩ := addDigits?_cons h
    have hlt : d < 10 := digitValue?_lt hd
    calc n < (acc * 10 + d + 1) * 10 ^ s.length := ih hrest
      _ ≤ ((acc + 1) * 10) * 10 ^ s.length := Nat.mul_le_mul_right _ (by omega)
      _ = (acc + 1) * 10 ^ (c :: s).length := by
        rw [List.length_cons, pow_succ]
        ring

theorem length_digitsBefore_le (base fuel n : ℕ) (acc : List Char) :
    (digitsBefore base fuel n acc).length ≤ fuel + acc.length := by
  induction fuel generalizing n acc with
  | zero => simp [digitsBefore]
  | succ fuel ih =>
    rw [digitsBefore]
    split
    · rw [List.length_cons]
      omega
    · refine (ih _ _).trans ?_
      rw [List.length_cons]
      omega

end Text

/-! ## Significant digits -/

namespace Binary64

/-- Zeros are dropped at the end of digits that are not all zero. -/
theorem exists_dropTrailingZeros {digits : List Char} {n : ℕ}
    (h : Text.addDigits? 10 0 digits = some n) (hn : n ≠ 0) :
    ∃ k, digits = dropTrailingZeros digits ++ List.replicate k '0' := by
  let zeros := digits.reverse.takeWhile (· == '0')
  have hzeros : zeros = List.replicate zeros.length '0' := by
    refine List.eq_replicate_iff.2 ⟨rfl, fun c hc => ?_⟩
    simpa using List.all_eq_true.1 List.all_takeWhile c hc
  have hsplit : digits = (digits.reverse.dropWhile (· == '0')).reverse ++
      List.replicate zeros.length '0' := by
    rw [← List.reverse_replicate, ← hzeros, ← List.reverse_append, List.takeWhile_append_dropWhile,
      List.reverse_reverse]
  refine ⟨zeros.length, ?_⟩
  rw [dropTrailingZeros]
  cases hkept : digits.reverse.dropWhile (· == '0') with
  | nil =>
    rw [hkept, List.reverse_nil, List.nil_append] at hsplit
    rw [hsplit, Text.addDigits?_zeros, Nat.zero_mul] at h
    exact absurd (Option.some.inj h).symm hn
  | cons c kept =>
    rw [hkept] at hsplit
    exact hsplit

/-- Without the zeros at their end, digits write a number that is smaller by a power of ten. -/
theorem exists_addDigits?_dropTrailingZeros {digits : List Char} {n : ℕ}
    (hdigits : ∀ c ∈ digits, c.isDigit = true) (h : Text.addDigits? 10 0 digits = some n)
    (hn : n ≠ 0) : ∃ m k, Text.addDigits? 10 0 (dropTrailingZeros digits) = some m ∧
      digits = dropTrailingZeros digits ++ List.replicate k '0' ∧ m * 10 ^ k = n := by
  obtain ⟨k, hk⟩ := exists_dropTrailingZeros h hn
  have hkept : ∀ c ∈ dropTrailingZeros digits, c.isDigit = true := fun c hc =>
    hdigits c (hk ▸ List.mem_append_left _ hc)
  obtain ⟨m, hm⟩ := Text.exists_addDigits? hkept 0
  rw [hk, Text.addDigits?_append, hm, Option.bind_some, Text.addDigits?_zeros] at h
  exact ⟨m, k, hm, hk, Option.some.inj h⟩

/-- Numbers below `10 ^ 18` are written with few digits. -/
theorem length_decimalDigits_le {n : ℕ} (hpos : 0 < n) (hn : n < 10 ^ 18) :
    (Text.decimalDigits n).length ≤ 60 := by
  refine (Text.length_digitsBefore_le _ _ _ _).trans ?_
  have : n.log2 < 60 := (Nat.log2_lt hpos.ne').2 (hn.trans (by norm_num))
  simp
  omega

/-- The digits `d` write a number in range with the power of ten `power` of the last one of them. -/
structure IsSignificant (x : Binary64) (d : List Char) (power : ℤ) : Prop where
  significant_eq : x.significant = (d, power + d.length - 1)
  isDigits : Json.IsDigits d
  of_head?_zero : d.head? = some '0' → d.length = 1 ∧ power = 0
  exists_value : ∃ n, Text.addDigits? 10 0 d = some n ∧ n < 10 ^ 18 ∧
    decimal n power ≤ largestDecimal
  length_le : d.length ≤ 60
  power_ge : -400 ≤ power
  power_le : power ≤ 308

theorem isSignificant_of_zero {x : Binary64} (h : x.significand = 0) :
    x.IsSignificant ['0'] 0 where
  significant_eq := by
    have hshortest : x.shortest = (0, 0) := by rw [shortest, if_pos h]
    rw [significant, hshortest]
    decide
  isDigits := by decide
  of_head?_zero := by decide
  exists_value := by
    refine ⟨0, by decide, by decide, ?_⟩
    rw [decimal, Nat.cast_zero, zero_mul, largestDecimal, decimal]
    positivity
  length_le := by decide
  power_ge := by decide
  power_le := by decide

theorem exists_isSignificant {x : Binary64} (hx : x.Valid) : ∃ d power, x.IsSignificant d power := by
  by_cases hpos : x.significand = 0
  · exact ⟨_, _, isSignificant_of_zero hpos⟩
  obtain ⟨hdigits, hmany, _, hscale⟩ := shortest_spec hx hpos
  have hlargest := shortest_le_largestDecimal hx
  have hsignificant : x.significant = (dropTrailingZeros (Text.decimalDigits x.shortest.1),
    x.shortest.2 + (Text.decimalDigits x.shortest.1).length - 1) := rfl
  generalize x.shortest = shortest at *
  obtain ⟨digits, scale⟩ := shortest
  dsimp only at *
  have hall := Text.isDigit_decimalDigits digits
  obtain ⟨n, k, hn, hk, hvalue⟩ :=
    exists_addDigits?_dropTrailingZeros hall (Text.addDigits?_decimalDigits digits) hdigits.ne'
  have hlength := length_decimalDigits_le hdigits hmany
  have hleading : (Text.decimalDigits digits).head? ≠ some '0' :=
    Text.head?_digitsBefore hdigits (Nat.lt_succ_self _)
  generalize dropTrailingZeros (Text.decimalDigits digits) = d at *
  rw [hk] at hsignificant hlength hall hleading
  rw [List.length_append, List.length_replicate] at hsignificant hlength
  have hdecimal : decimal n (scale + k) = decimal digits scale := by
    rw [decimal, decimal, ← hvalue, zpow_add₀ (by norm_num), zpow_natCast]
    push_cast
    ring
  have hne : n ≠ 0 := by
    rintro rfl
    simp at hvalue
    omega
  have hnil : d ≠ [] := by
    rintro rfl
    exact hne (Option.some.inj hn).symm
  have hpower : scale + k ≤ 308 := by
    by_contra hlt
    obtain ⟨j, hj⟩ : ∃ j : ℕ, scale + k = j := ⟨(scale + k).toNat, by omega⟩
    rw [← hdecimal, hj] at hlargest
    have : j ≤ 308 := Json.le_largestPower_of_decimal_le hne hlargest
    omega
  refine ⟨d, scale + k, ?_, ⟨hnil, fun c hc => hall c (List.mem_append_left _ hc)⟩, ?_,
    ⟨n, hn, ?_, hdecimal.trans_le hlargest⟩, by omega, by omega, hpower⟩
  · rw [hsignificant]
    congr 1
    push_cast
    omega
  · intro hhead
    refine absurd ?_ hleading
    rw [List.head?_append, hhead]
    rfl
  · exact lt_of_le_of_lt (hvalue ▸ Nat.le_mul_of_pos_right n (Nat.pow_pos (by decide))) hmany

end Binary64

namespace Json

open Binary64 (decimal largestDecimal)

/-! ## Notations -/

theorem ExponentText.text_ofInt (n : ℤ) :
    (ofInt n).text = 'e' :: (if n < 0 then '-' else '+') :: Text.decimalDigits n.natAbs := by
  by_cases hn : n < 0 <;> simp [ofInt, text, mark, signText, hn]

variable {x : Binary64} {d : List Char} {power : ℤ}

theorem NumberText.text_eq_signed {t : NumberText} (h : t.negative = x.negative) :
    t.text = x.signed t.magnitude := by
  rw [text, h, Binary64.signed]

/-- A number below one that is written positionally. -/
theorem exists_numberText_small (h : x.IsSignificant d power) (hpoint : power + d.length ≤ 0) :
    ∃ (t : NumberText) (y : Binary64),
      t.text = x.signed (Binary64.positional d (power + d.length)) ∧ t.value? = some (.float y) := by
  obtain ⟨n, hread, hn, hle⟩ := h.exists_value
  let zeros := List.replicate (-(power + d.length)).toNat '0'
  have hdigits : Text.addDigits? 10 0 (zeros ++ d) = some n := by
    rw [Text.addDigits?_append, Text.addDigits?_zeros, Option.bind_some, Nat.zero_mul, hread]
  have hlength : -((zeros ++ d).length : ℤ) = power := by
    rw [List.length_append, List.length_replicate]
    omega
  let t : NumberText :=
    { negative := x.negative
      whole := ['0']
      fraction := some (zeros ++ d)
      exponent := none
      isDigits_whole := by decide
      noLeadingZero := by decide
      isDigits_fraction := by
        rintro f ⟨⟩
        refine ⟨by simp [h.isDigits.1], fun c hc => ?_⟩
        rcases List.mem_append.1 hc with hc | hc
        · exact (List.eq_of_mem_replicate hc) ▸ rfl
        · exact h.isDigits.2 c hc }
  obtain ⟨y, hy⟩ := NumberText.exists_value?_of_fraction (t := t) rfl rfl hdigits rfl hn
    (by rwa [hlength]) (by rw [hlength]; have := h.power_ge; omega)
  refine ⟨t, y, ?_, hy⟩
  rw [t.text_eq_signed rfl, Binary64.positional, if_pos hpoint]
  simp [t, zeros, NumberText.magnitude, fractionText, exponentText]

/-- A whole number that is written positionally. -/
theorem exists_numberText_whole (h : x.IsSignificant d power) (hpower : 0 ≤ power)
    (hpoint : power + d.length ≤ 16) :
    ∃ (t : NumberText) (y : Binary64),
      t.text = x.signed (Binary64.positional d (power + d.length)) ∧ t.value? = some (.float y) := by
  obtain ⟨n, hread, _, hle⟩ := h.exists_value
  obtain ⟨k, rfl⟩ := Int.eq_ofNat_of_zero_le hpower
  have hpos : d.length ≠ 0 := fun hzero => h.isDigits.1 (List.length_eq_zero_iff.1 hzero)
  have hwhole : Text.addDigits? 10 0 (d ++ List.replicate k '0') = some (n * 10 ^ k) := by
    rw [Text.addDigits?_append, hread, Option.bind_some, Text.addDigits?_zeros]
  have hn : n * 10 ^ k * 10 < 10 ^ 18 := by
    have hpow : 10 ^ (d ++ List.replicate k '0').length ≤ 10 ^ 16 := by
      refine Nat.pow_le_pow_right (by decide) ?_
      rw [List.length_append, List.length_replicate]
      omega
    have hlt := Text.addDigits?_lt hwhole
    omega
  have hle' : decimal (n * 10 ^ k * 10) (-(['0'].length : ℕ)) ≤ largestDecimal := by
    refine le_of_eq_of_le ?_ hle
    rw [decimal, decimal, zpow_natCast]
    push_cast
    norm_num
    ring
  let t : NumberText :=
    { negative := x.negative
      whole := d ++ List.replicate k '0'
      fraction := some ['0']
      exponent := none
      isDigits_whole := by
        refine ⟨by simp [h.isDigits.1], fun c hc => ?_⟩
        rcases List.mem_append.1 hc with hc | hc
        · exact h.isDigits.2 c hc
        · exact (List.eq_of_mem_replicate hc) ▸ rfl
      noLeadingZero := by
        rintro ⟨hlong, hhead⟩
        rw [List.head?_append_of_ne_nil _ h.isDigits.1] at hhead
        obtain ⟨hone, hzero⟩ := h.of_head?_zero hhead
        rw [List.length_append, List.length_replicate] at hlong
        omega
      isDigits_fraction := by
        rintro f ⟨⟩
        decide }
  have hzero : Text.addDigits? 10 (n * 10 ^ k) ['0'] = some (n * 10 ^ k * 10) := by
    simpa using Text.addDigits?_zeros (n * 10 ^ k) 1
  obtain ⟨y, hy⟩ := NumberText.exists_value?_of_fraction (t := t) hwhole rfl hzero rfl hn hle'
    (by simp)
  refine ⟨t, y, ?_, hy⟩
  have hzeros : ((k : ℤ) + d.length).toNat - d.length = k := by omega
  rw [t.text_eq_signed rfl, Binary64.positional, if_neg (by omega)]
  dsimp only
  rw [if_pos (by omega), hzeros]
  simp [t, NumberText.magnitude, fractionText, exponentText]

/-- A number that is written positionally. -/
theorem exists_numberText_positional (h : x.IsSignificant d power)
    (hpoint : power + d.length ≤ 16) :
    ∃ (t : NumberText) (y : Binary64),
      t.text = x.signed (Binary64.positional d (power + d.length)) ∧ t.value? = some (.float y) := by
  rcases le_or_gt (power + d.length) 0 with hsmall | hlarge
  · exact exists_numberText_small h hsmall
  rcases le_or_gt 0 power with hwhole | hmixed
  · exact exists_numberText_whole h hwhole hpoint
  -- the point stands between the digits
  obtain ⟨n, hread, hn, hle⟩ := h.exists_value
  obtain ⟨k, hk⟩ : ∃ k : ℕ, power + d.length = k := ⟨(power + d.length).toNat, by omega⟩
  obtain ⟨w, hw⟩ := Text.exists_addDigits?
    (fun c hc => h.isDigits.2 c (List.mem_of_mem_take hc) : ∀ c ∈ d.take k, c.isDigit = true) 0
  have hfraction : Text.addDigits? 10 w (d.drop k) = some n := by
    rwa [← List.take_append_drop k d, Text.addDigits?_append, hw, Option.bind_some] at hread
  have hlength : -((d.drop k).length : ℤ) = power := by
    rw [List.length_drop]
    omega
  let t : NumberText :=
    { negative := x.negative
      whole := d.take k
      fraction := some (d.drop k)
      exponent := none
      isDigits_whole := by
        refine ⟨fun hnil => ?_, fun c hc => h.isDigits.2 c (List.mem_of_mem_take hc)⟩
        rcases List.take_eq_nil_iff.1 hnil with hzero | hzero
        · omega
        · exact h.isDigits.1 hzero
      noLeadingZero := by
        rintro ⟨_, hhead⟩
        rw [List.head?_take, if_neg (by omega)] at hhead
        have := h.of_head?_zero hhead
        omega
      isDigits_fraction := by
        rintro f ⟨⟩
        refine ⟨fun hnil => ?_, fun c hc => h.isDigits.2 c (List.mem_of_mem_drop hc)⟩
        have := List.drop_eq_nil_iff.1 hnil
        omega }
  obtain ⟨y, hy⟩ := NumberText.exists_value?_of_fraction (t := t) hw rfl hfraction rfl hn
    (by rwa [hlength]) (by rw [hlength]; have := h.power_ge; omega)
  refine ⟨t, y, ?_, hy⟩
  rw [t.text_eq_signed rfl, Binary64.positional, if_neg (by omega)]
  dsimp only
  rw [if_neg (by omega)]
  simp [t, hk, NumberText.magnitude, fractionText, exponentText]

/-- A number that is written with an exponent. -/
theorem exists_numberText_scientific (h : x.IsSignificant d power) :
    ∃ (t : NumberText) (y : Binary64),
      t.text = x.signed (Binary64.scientific d (power + d.length - 1)) ∧
        t.value? = some (.float y) := by
  obtain ⟨n, hread, hn, hle⟩ := h.exists_value
  have hge := h.power_ge
  have hpower := h.power_le
  have hlong := h.length_le
  obtain ⟨c, f, rfl⟩ := List.exists_cons_of_ne_nil h.isDigits.1
  have hexponent : power + (c :: f).length - 1 = power + f.length := by
    rw [List.length_cons]
    push_cast
    omega
  rw [hexponent]
  have hlength : power + f.length - f.length = power := by omega
  obtain ⟨w, hw⟩ := Text.exists_addDigits?
    (fun b hb => h.isDigits.2 b (by simp_all) : ∀ b ∈ [c], b.isDigit = true) 0
  have hfraction : Text.addDigits? 10 w f = some n := by
    rwa [← List.singleton_append, Text.addDigits?_append, hw, Option.bind_some] at hread
  let t : NumberText :=
    { negative := x.negative
      whole := [c]
      fraction := if f = [] then none else some f
      exponent := some (.ofInt (power + f.length))
      isDigits_whole := ⟨by simp, fun b hb => h.isDigits.2 b (by simp_all)⟩
      noLeadingZero := by simp
      isDigits_fraction := by
        intro digits hdigits
        split at hdigits
        · simp at hdigits
        · next hne =>
          obtain rfl := Option.some.inj hdigits
          exact ⟨hne, fun b hb => h.isDigits.2 b (List.mem_cons_of_mem c hb)⟩ }
  have hlimit : (power + f.length).natAbs < exponentLimit := by
    rw [exponentLimit]
    rw [List.length_cons] at hlong
    omega
  obtain ⟨y, hy⟩ := NumberText.exists_value?_of_exponent (t := t) hw rfl hfraction rfl hlimit hn
    (by rwa [hlength]) (by omega)
  refine ⟨t, y, ?_, hy⟩
  rw [t.text_eq_signed rfl, NumberText.magnitude]
  congr 1
  show [c] ++ (fractionText (if f = [] then none else some f) ++
    exponentText (some (.ofInt (power + f.length)))) = _
  rw [exponentText, ExponentText.text_ofInt]
  cases f with
  | nil => rfl
  | cons b f => rfl

/-- The text of a number in range is a number in range. -/
theorem exists_numberText_text (hx : x.Valid) :
    ∃ (t : NumberText) (y : Binary64), t.text = x.text ∧ t.value? = some (.float y) := by
  obtain ⟨d, power, h⟩ := Binary64.exists_isSignificant hx
  rw [Binary64.text, h.significant_eq]
  dsimp only
  split
  · next hrange =>
    rw [sub_add_cancel]
    exact exists_numberText_positional h (by omega)
  · exact exists_numberText_scientific h

end Json

end PluginDataset
