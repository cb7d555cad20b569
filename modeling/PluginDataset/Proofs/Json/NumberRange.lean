import PluginDataset.Proofs.Json.NumberText
import PluginDataset.Proofs.Number.Shortest

/-!
# Decimals in range

The reader rounds the digits of a number, a power of ten, and then their product or quotient, and
gives up when the result overflows. All of these steps keep the order of numbers, so that for each
power of ten the largest digits decide. With digits and power of the largest binary64 number, as it
is printed, nothing overflows, and so it does for no decimal below.

## Main results

* `Json.Decimal.exists_toBinary64?`: decimals up to that of the largest number are read.
* `Json.NumberText.exists_value?_of_fraction`, `Json.NumberText.exists_value?_of_exponent`: texts
  that write such a decimal have a value.
-/

namespace PluginDataset.Json

open Binary64 (decimal largestDecimal)

/-! ## Scaling -/

/-- Whole numbers below one that is rounded within range are rounded within range. -/
theorem exists_ofRatio?_one_le {m n : ℕ} (hmn : m ≤ n) {y : Binary64}
    (hy : Binary64.ofRatio? false n 1 = some y) :
    ∃ x, Binary64.ofRatio? false m 1 = some x ∧ x.magnitude ≤ y.magnitude := by
  refine Binary64.exists_ofRatio?_le false one_pos one_pos ?_ hy
  have : (m : ℚ) ≤ n := Nat.cast_le.2 hmn
  gcongr

/-- Natural numbers decide whether a decimal without places after the point is in range. -/
theorem decimal_le_largestDecimal_iff (n k : ℕ) :
    decimal n k ≤ largestDecimal ↔ n * 10 ^ k ≤ 17976931348623157 * 10 ^ 292 := by
  have h : ∀ j : ℕ, decimal n k ≤ decimal 17976931348623157 j ↔
      n * 10 ^ k ≤ 17976931348623157 * 10 ^ j := by
    intro j
    unfold decimal
    rw [zpow_natCast, zpow_natCast]
    exact_mod_cast Iff.rfl
  exact h 292

/-- Beyond the largest power of ten only zero is in range. -/
theorem le_largestPower_of_decimal_le {n k : ℕ} (hn : n ≠ 0) (h : decimal n k ≤ largestDecimal) :
    k ≤ largestPower := by
  by_contra hlt
  have hk : 309 ≤ k := Nat.lt_of_not_le hlt
  have hpow : ∀ j ≤ k, 10 ^ j ≤ 10 ^ k := fun j hj => Nat.pow_le_pow_right (by decide) hj
  have htop : 17976931348623157 * 10 ^ 292 < 10 ^ 309 := by decide +kernel
  have hmul := Nat.le_mul_of_pos_left (10 ^ k) (Nat.pos_of_ne_zero hn)
  exact (htop.trans_le ((hpow 309 hk).trans hmul)).not_ge ((decimal_le_largestDecimal_iff n k).1 h)

theorem powerOfTen?_eq {k : ℕ} (hk : k ≤ largestPower) :
    powerOfTen? k = Binary64.ofRatio? false (10 ^ k) 1 := by
  have hk' : k ≤ 308 := hk
  rw [powerOfTen?, Binary64.ofDecimal?, if_neg one_ne_zero]
  dsimp only
  rw [if_neg (by omega), if_neg (by omega), if_pos (by omega), Int.toNat_natCast, Nat.one_mul]
  rfl

/-- Larger powers of ten are not rounded to smaller numbers. -/
theorem exists_powerOfTen?_le {j k : ℕ} (hjk : j ≤ k) (hk : k ≤ largestPower) {power : Binary64}
    (hpower : powerOfTen? k = some power) :
    ∃ power', powerOfTen? j = some power' ∧ power'.magnitude ≤ power.magnitude := by
  rw [powerOfTen?_eq hk] at hpower
  rw [powerOfTen?_eq (hjk.trans hk)]
  exact exists_ofRatio?_one_le (Nat.pow_le_pow_right (by decide) hjk) hpower

/-- Powers of ten are rounded to no less than one. -/
theorem exists_powerOfTen? {k : ℕ} (hk : k ≤ largestPower) :
    ∃ power, powerOfTen? k = some power ∧ 1 ≤ power.magnitude := by
  have hlargest : (powerOfTen? largestPower).isSome = true := by decide +kernel
  obtain ⟨largest, hlargest⟩ := Option.isSome_iff_exists.1 hlargest
  obtain ⟨power, hpower, _⟩ := exists_powerOfTen?_le hk le_rfl hlargest
  have hone : powerOfTen? 0 = some ⟨false, 2 ^ 52, -52⟩ := by decide +kernel
  obtain ⟨one, hone', hle⟩ := exists_powerOfTen?_le (Nat.zero_le k) hk hpower
  obtain rfl := Option.some.inj (hone.symm.trans hone')
  refine ⟨power, hpower, le_of_eq_of_le ?_ hle⟩
  simp [Binary64.magnitude]
  norm_num

/-- The digits of the largest decimal in range with a power of ten. There are at most eighteen of
them, since the digits are rounded as well where there are more. -/
def mostDigits (k : ℕ) : ℕ :=
  min (10 ^ 18) (17976931348623157 * 10 ^ 292 / 10 ^ k)

theorem le_mostDigits {n k : ℕ} (hn : n < 10 ^ 18)
    (hle : decimal n k ≤ largestDecimal) : n ≤ mostDigits k := by
  refine Nat.le_min.2 ⟨hn.le, (Nat.le_div_iff_mul_le (Nat.pow_pos (by decide))).2 ?_⟩
  exact (decimal_le_largestDecimal_iff n k).1 hle

/-- Nothing overflows with the most digits. -/
theorem exists_mul?_mostDigits {k : ℕ} (hk : k ≤ largestPower) :
    ∃ x power z, Binary64.ofRatio? false (mostDigits k) 1 = some x ∧
      powerOfTen? k = some power ∧ x.mul? power = some z := by
  have htable : ∀ i < 29, (((Binary64.ofRatio? false (mostDigits (280 + i)) 1).bind fun x =>
      (powerOfTen? (280 + i)).bind fun power => x.mul? power).isSome) = true := by decide +kernel
  have hlarge : ∀ j : ℕ, 280 ≤ j → j ≤ largestPower →
      ∃ x power z, Binary64.ofRatio? false (mostDigits j) 1 = some x ∧
        powerOfTen? j = some power ∧ x.mul? power = some z := by
    intro j hj hj'
    obtain ⟨i, rfl⟩ := Nat.exists_eq_add_of_le hj
    have hi : 280 + i ≤ 308 := hj'
    obtain ⟨z, hz⟩ := Option.isSome_iff_exists.1 (htable i (by omega))
    obtain ⟨x, hx, hz⟩ := Option.bind_eq_some_iff.1 hz
    obtain ⟨power, hpower, hz⟩ := Option.bind_eq_some_iff.1 hz
    exact ⟨x, power, z, hx, hpower, hz⟩
  rcases le_or_gt 280 k with h | h
  · exact hlarge k h hk
  · -- with a small power the digits are as many as they can be
    have hmost : mostDigits k = mostDigits 280 := by
      have htop : 10 ^ 18 ≤ 17976931348623157 * 10 ^ 292 / 10 ^ 280 := by decide +kernel
      have hdiv : ∀ j, k ≤ j → 17976931348623157 * 10 ^ 292 / 10 ^ j ≤
          17976931348623157 * 10 ^ 292 / 10 ^ k := fun j hj =>
        Nat.div_le_div_left (Nat.pow_le_pow_right (by decide) hj) (Nat.pow_pos (by decide))
      have hall := htop.trans (hdiv 280 h.le)
      rw [mostDigits, mostDigits, Nat.min_eq_left htop, Nat.min_eq_left hall]
    obtain ⟨x, power, z, hx, hpower, hz⟩ := hlarge 280 le_rfl (by decide)
    obtain ⟨power', hpower', hle⟩ := exists_powerOfTen?_le h.le (by decide) hpower
    have hproduct : x.magnitude * power'.magnitude ≤ x.magnitude * power.magnitude :=
      mul_le_mul_of_nonneg_left hle x.magnitude_nonneg
    obtain ⟨z', hz', _⟩ := Binary64.exists_mul?_le hproduct hz
    exact ⟨x, power', z', hmost ▸ hx, hpower', hz'⟩

/-- The power of two that bounds the digits is not rounded. -/
theorem exists_ofRatio?_two_pow_64 :
    ∃ y, Binary64.ofRatio? false (2 ^ 64) 1 = some y ∧ y.magnitude = 2 ^ 64 := by
  refine ⟨⟨false, 2 ^ 52, 12⟩, by decide +kernel, ?_⟩
  simp [Binary64.magnitude]
  norm_num

/-- A number of 64 bits, divided by a power of ten, has no more than 64 bits. -/
theorem exists_div?_powerOfTen? {x : Binary64} (hx : x.magnitude ≤ 2 ^ 64) {k : ℕ}
    (hk : k ≤ largestPower) :
    ∃ power y, powerOfTen? k = some power ∧ x.div? power = some y ∧ y.magnitude ≤ 2 ^ 64 := by
  obtain ⟨power, hpower, hone⟩ := exists_powerOfTen? hk
  obtain ⟨limit, hlimit, hmagnitude⟩ := exists_ofRatio?_two_pow_64
  have hle : x.magnitude / power.magnitude ≤ (2 ^ 64 : ℕ) / (1 : ℕ) := by
    refine (div_le_self x.magnitude_nonneg hone).trans (hx.trans ?_)
    norm_num
  obtain ⟨y, hy, hbound⟩ := Binary64.exists_div?_le (by linarith) one_pos hle hlimit
  exact ⟨power, y, hpower, hy, hbound.trans_eq hmagnitude⟩

/-- A number of 64 bits is in range however far it is scaled down. -/
theorem exists_scaled?_of_neg {fuel : ℕ} {x : Binary64} {scale : ℤ}
    (hx : x.magnitude ≤ 2 ^ 64) (hneg : scale < 0) (hfuel : -(largestPower * fuel : ℕ) ≤ scale) :
    ∃ y, scaled? fuel x scale = some y := by
  induction fuel generalizing x scale with
  | zero => simp at hfuel; omega
  | succ fuel ih =>
    rw [scaled?]
    split
    · next hk =>
      obtain ⟨power, y, hpower, hy, _⟩ := exists_div?_powerOfTen? hx hk
      exact ⟨y, by simp [hpower, hy, not_le.2 hneg]⟩
    · next hk =>
      split
      · exact ⟨x, rfl⟩
      · rw [if_neg (by omega)]
        obtain ⟨power, y, hpower, hy, hbound⟩ := exists_div?_powerOfTen? hx le_rfl
        have hstep : ∃ z, scaled? fuel y (scale + largestPower) = some z :=
          ih hbound (by omega) (by push_cast at hfuel ⊢; linarith)
        simpa [hpower, hy] using hstep

/-- Decimals up to that of the largest number are read, unless they are scaled down too far. -/
theorem Decimal.exists_toBinary64? {d : Decimal} (negative : Bool)
    (hdigits : d.digits < 10 ^ 18) (hle : decimal d.digits d.scale ≤ largestDecimal)
    (hge : -2000 ≤ d.scale) : ∃ x, d.toBinary64? negative = some x := by
  obtain ⟨digits, scale⟩ := d
  dsimp only at hdigits hle hge
  suffices ∃ x y, Binary64.ofRatio? false digits 1 = some x ∧ scaled? 8 x scale = some y by
    obtain ⟨x, y, hx, hy⟩ := this
    exact ⟨y.withSign negative, by simp [toBinary64?, hx, hy]⟩
  rcases lt_or_ge scale 0 with hneg | hnonneg
  · obtain ⟨limit, hlimit, hmagnitude⟩ := exists_ofRatio?_two_pow_64
    obtain ⟨x, hx, hbound⟩ :=
      exists_ofRatio?_one_le (by omega : digits ≤ 2 ^ 64) hlimit
    have hfuel : -((largestPower * 8 : ℕ) : ℤ) ≤ scale := by
      have : largestPower = 308 := rfl
      omega
    obtain ⟨y, hy⟩ := exists_scaled?_of_neg (hbound.trans_eq hmagnitude) hneg hfuel
    exact ⟨x, y, hx, hy⟩
  · obtain ⟨k, rfl⟩ := Int.eq_ofNat_of_zero_le hnonneg
    by_cases hk : k ≤ largestPower
    · obtain ⟨most, power, z, hmost, hpower, hz⟩ := exists_mul?_mostDigits hk
      obtain ⟨x, hx, hbound⟩ := exists_ofRatio?_one_le (le_mostDigits hdigits hle) hmost
      have hproduct : x.magnitude * power.magnitude ≤ most.magnitude * power.magnitude :=
        mul_le_mul_of_nonneg_right hbound power.magnitude_nonneg
      obtain ⟨y, hy, _⟩ := Binary64.exists_mul?_le hproduct hz
      exact ⟨x, y, hx, by simp [scaled?, hk, hpower, hy]⟩
    · obtain rfl : digits = 0 := by
        by_contra hne
        exact hk (le_largestPower_of_decimal_le hne hle)
      exact ⟨.zero false, .zero false, rfl, by simp [scaled?, hk, Binary64.zero]⟩

/-! ## Texts -/

/-- Digits after the point are all taken up if the number they end has 64 bits. -/
theorem pushFraction_of_addDigits? {acc n : ℕ} {scale : ℤ} {digits : List Char}
    (h : Text.addDigits? 10 acc digits = some n) (hn : n < 0x10000000000000000) :
    pushFraction ⟨acc, scale⟩ digits = ⟨n, scale - digits.length⟩ := by
  induction digits generalizing acc scale with
  | nil =>
    obtain rfl : acc = n := Option.some.inj h
    simp [pushFraction]
  | cons c cs ih =>
    obtain ⟨d, hd, hrest⟩ := Text.addDigits?_cons h
    have hle := Text.le_of_addDigits? hrest
    have hpush : pushDigit? acc c = some (acc * 10 + d) := by
      rw [(Text.digitValue?_ten hd).2] at hle ⊢
      exact pushDigit?_of_lt (Nat.lt_of_le_of_lt hle hn)
    rw [pushFraction, hpush]
    dsimp only
    rw [ih hrest, List.length_cons]
    congr 1
    push_cast
    omega

/-- The exponent `n`, with its sign in any case. -/
def ExponentText.ofInt (n : ℤ) : ExponentText where
  upperCase := false
  sign := some (decide (n < 0))
  digits := Text.decimalDigits n.natAbs
  isDigits := ⟨Text.decimalDigits_ne_nil _, Text.isDigit_decimalDigits _⟩

theorem ExponentText.exists_value?_ofInt {d : Decimal} (negative : Bool) {n : ℤ}
    (hn : n.natAbs < exponentLimit) (hdigits : d.digits < 10 ^ 18)
    (hle : decimal d.digits (d.scale + n) ≤ largestDecimal) (hge : -2000 ≤ d.scale + n) :
    ∃ x, (ofInt n).value? d negative = some x := by
  have hscale : (if (ofInt n).minus then d.scale - n.natAbs else d.scale + n.natAbs) =
      d.scale + n := by
    rcases lt_or_ge n 0 with h | h
    · have hminus : (ofInt n).minus = true := by simp [ofInt, minus, h]
      rw [if_pos hminus]
      omega
    · have hminus : ¬(ofInt n).minus = true := by simp [ofInt, minus, h]
      rw [if_neg hminus]
      omega
  obtain ⟨x, hx⟩ := Decimal.exists_toBinary64? (d := ⟨d.digits, d.scale + n⟩) negative hdigits
    hle hge
  refine ⟨x, ?_⟩
  have hread : Text.natOfDigits? 10 (ofInt n).digits = some n.natAbs :=
    Text.natOfDigits?_decimalDigits n.natAbs
  rw [value?, hread, Option.bind_eq_bind, Option.bind_some, Decimal.withExponent?, if_pos hn,
    hscale, hx]

namespace NumberText

variable {t : NumberText} {w n : ℕ} {f : List Char}

/-- A number with a fraction and no exponent has a value if its digits are in range. -/
theorem exists_value?_of_fraction (hwhole : Text.addDigits? 10 0 t.whole = some w)
    (hfraction : t.fraction = some f) (hdigits : Text.addDigits? 10 w f = some n)
    (hexponent : t.exponent = none) (hn : n < 10 ^ 18)
    (hle : decimal n (-f.length) ≤ largestDecimal) (hge : -2000 ≤ -(f.length : ℤ)) :
    ∃ x, t.value? = some (.float x) := by
  have hn64 : n < 0x10000000000000000 := by omega
  have hw := Text.le_of_addDigits? hdigits
  obtain ⟨x, hx⟩ := Decimal.exists_toBinary64? (d := ⟨n, 0 - f.length⟩) t.negative hn
    (by rwa [zero_sub]) (by rwa [zero_sub])
  refine ⟨x, ?_⟩
  rw [value?, pushWhole_of_addDigits? hwhole (by omega)]
  dsimp only
  rw [hfraction, hexponent, valueAfter?, pushFraction_of_addDigits? hdigits hn64, scaledValue?, hx]
  rfl

/-- A number with an exponent has a value if its digits are in range. -/
theorem exists_value?_of_exponent {e : ℤ} (hwhole : Text.addDigits? 10 0 t.whole = some w)
    (hfraction : t.fraction = if f = [] then none else some f)
    (hdigits : Text.addDigits? 10 w f = some n) (hexponent : t.exponent = some (.ofInt e))
    (he : e.natAbs < exponentLimit) (hn : n < 10 ^ 18)
    (hle : decimal n (e - f.length) ≤ largestDecimal) (hge : -2000 ≤ e - f.length) :
    ∃ x, t.value? = some (.float x) := by
  have hn64 : n < 0x10000000000000000 := by omega
  have hw := Text.le_of_addDigits? hdigits
  have hscale : 0 - (f.length : ℤ) + e = e - f.length := by omega
  obtain ⟨x, hx⟩ := ExponentText.exists_value?_ofInt (d := ⟨n, 0 - f.length⟩) t.negative he hn
    (by rwa [hscale]) (by rwa [hscale])
  refine ⟨x, ?_⟩
  rw [value?, pushWhole_of_addDigits? hwhole (by omega)]
  dsimp only
  rw [hexponent, hfraction]
  split
  · next hnil =>
    subst hnil
    obtain rfl : w = n := Option.some.inj hdigits
    rw [valueAfter?, scaledValue?, show (⟨w, 0⟩ : Decimal) = ⟨w, 0 - ([] : List Char).length⟩ from rfl,
      hx]
    rfl
  · rw [valueAfter?, pushFraction_of_addDigits? hdigits hn64, scaledValue?, hx]
    rfl

end NumberText

end PluginDataset.Json
