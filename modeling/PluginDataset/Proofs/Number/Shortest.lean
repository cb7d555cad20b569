import PluginDataset.Number.Shortest
import PluginDataset.Proofs.Number.Rounding

/-!
# Bounds of the shortest decimal

The shortest decimal of a number is positive and lies below the middle between the number and the
next larger one. For the largest number this is not enough to tell that the decimal can be read, as
numbers are rounded several times while they are read; its decimal is the largest of all, and is
known.

## Main definitions

* `Binary64.decimal` is the value of a decimal.
* `Binary64.largestDecimal` is the shortest decimal of the largest number.

## Main results

* `Binary64.shortest_spec`: how large digits and scale are.
* `Binary64.shortest_le_largestDecimal`: no shortest decimal is above that of the largest number.
-/

namespace PluginDataset.Binary64

/-- The value of `n * 10 ^ power`. -/
def decimal (n : ℕ) (power : ℤ) : ℚ :=
  n * 10 ^ power

/-! ## Comparison of decimals and fractions -/

/-- Both sides of a common scale are scaled by the same factor. -/
theorem exists_commonScale (n : ℕ) (power : ℤ) (bound : ℕ) {denominator : ℕ}
    (hdenominator : 0 < denominator) :
    ∃ factor : ℚ, 0 < factor ∧
      decimal n power * factor = (commonScale n power bound denominator).1 ∧
      (bound : ℚ) / denominator * factor = (commonScale n power bound denominator).2 := by
  have hpos : (0 : ℚ) < denominator := by exact_mod_cast hdenominator
  unfold commonScale decimal
  split
  · next hpower =>
    obtain ⟨k, rfl⟩ := Int.eq_ofNat_of_zero_le hpower
    refine ⟨denominator, hpos, by simp, div_mul_cancel₀ _ hpos.ne'⟩
  · next hpower =>
    obtain ⟨k, rfl⟩ : ∃ k : ℕ, power = -k := ⟨(-power).toNat, by omega⟩
    refine ⟨denominator * 10 ^ k, by positivity, ?_, ?_⟩
    · simp
      field_simp
    · simp
      field_simp

theorem commonScale_le_iff {n : ℕ} {power : ℤ} {bound denominator : ℕ}
    (hdenominator : 0 < denominator) :
    (commonScale n power bound denominator).1 ≤ (commonScale n power bound denominator).2 ↔
      decimal n power ≤ (bound : ℚ) / denominator := by
  obtain ⟨factor, hpos, hdecimal, hbound⟩ := exists_commonScale n power bound hdenominator
  rw [← mul_le_mul_iff_of_pos_right hpos, hdecimal, hbound]
  exact_mod_cast Iff.rfl

namespace Interval

variable {i : Interval}

/-- An interval around a positive number that does not reach down to zero. -/
structure Positive (i : Interval) : Prop where
  low : 0 < i.low
  denominator : 0 < i.denominator
  value_le : i.value ≤ i.high
  high_le : i.high ≤ 2 * i.value

/-- A decimal in the interval is positive and not above its upper end. -/
theorem bounds_of_contains (hi : i.Positive) {n : ℕ} {power : ℤ} (h : i.contains n power = true) :
    0 < n ∧ decimal n power ≤ (i.high : ℚ) / i.denominator := by
  have hends : (commonScale n power i.low i.denominator).2 ≤
        (commonScale n power i.low i.denominator).1 ∧
      (commonScale n power i.high i.denominator).1 ≤
        (commonScale n power i.high i.denominator).2 := by
    unfold contains at h
    dsimp only at h
    split at h
    · simpa using h
    · simp only [Bool.and_eq_true, decide_eq_true_eq] at h
      omega
  obtain ⟨factor, hpos, hdecimal, hlow⟩ := exists_commonScale n power i.low hi.denominator
  refine ⟨Nat.pos_of_ne_zero ?_, (commonScale_le_iff hi.denominator).1 hends.2⟩
  rintro rfl
  have hzero : (commonScale 0 power i.low i.denominator).1 = 0 := by
    unfold commonScale
    split <;> simp
  have hend : (i.low : ℚ) / i.denominator * factor = 0 := by
    rw [hlow]
    exact_mod_cast Nat.le_zero.1 (hzero ▸ hends.1)
  have : (0 : ℚ) < i.low := by exact_mod_cast hi.low
  have : (0 : ℚ) < i.denominator := by exact_mod_cast hi.denominator
  have : 0 < (i.low : ℚ) / i.denominator * factor := by positivity
  linarith

theorem contains_of_onGrid? {n : ℕ} {power : ℤ} (h : i.onGrid? power = some n) :
    i.contains n power = true := by
  have hchoice : ∀ first second, (if i.contains first power then some first
      else if i.contains second power then some second else none) = some n →
      i.contains n power = true := by
    intro first second h
    split at h
    · next hfirst => exact Option.some.inj h ▸ hfirst
    · split at h
      · next hsecond => exact Option.some.inj h ▸ hsecond
      · simp at h
  unfold onGrid? at h
  exact hchoice _ _ h

/-! ## The search -/

/-- The first digit stands `count` digits above the places of a grid. -/
theorem ten_zpow_grid (leading : ℤ) (count : ℕ) :
    (10 : ℚ) ^ (leading + 1) = 10 ^ count * 10 ^ (leading + 1 - count) := by
  rw [← zpow_natCast 10 count, ← zpow_add₀ (by norm_num)]
  congr 1
  omega

/-- A grid of at most seventeen digits gives no more than eighteen. -/
theorem lt_of_decimal_le (hi : i.Positive) {leading : ℤ}
    (hfirst : (i.value : ℚ) / i.denominator < 10 ^ (leading + 1)) {count : ℕ} (hcount : count ≤ 17)
    {n : ℕ} (hle : decimal n (leading + 1 - count) ≤ (i.high : ℚ) / i.denominator) :
    n < 10 ^ 18 := by
  have hunit : (0 : ℚ) < 10 ^ (leading + 1 - count) := by positivity
  have hhigh : (i.high : ℚ) / i.denominator ≤ 2 * (i.value / i.denominator) := by
    rw [← mul_div_assoc]
    have : (i.high : ℚ) ≤ 2 * i.value := by exact_mod_cast hi.high_le
    gcongr
  have hdigits : (n : ℚ) < 2 * 10 ^ count := by
    rw [← mul_lt_mul_iff_of_pos_right hunit, mul_assoc, ← ten_zpow_grid]
    unfold decimal at hle
    linarith
  have hcount' : (10 : ℚ) ^ count ≤ 10 ^ 17 := pow_le_pow_right₀ (by norm_num) hcount
  have : (n : ℚ) < 10 ^ 18 := by linarith
  exact_mod_cast this

/-- What the last grid falls back on is the whole number of its units below the value. -/
theorem search_zero_spec (hi : i.Positive) {leading : ℤ}
    (hfirst : (i.value : ℚ) / i.denominator < 10 ^ (leading + 1))
    (hlast : (10 : ℚ) ^ (leading - 17) ≤ i.value / i.denominator) :
    0 < (i.search leading 0 18).1 ∧ (i.search leading 0 18).1 < 10 ^ 18 ∧
      decimal (i.search leading 0 18).1 (i.search leading 0 18).2 ≤
        (i.value : ℚ) / i.denominator := by
  obtain ⟨factor, hpos, hdecimal, hvalue⟩ :=
    exists_commonScale 1 (leading + 1 - (18 : ℕ)) i.value hi.denominator
  have hunit : decimal 1 (leading + 1 - (18 : ℕ)) = 10 ^ (leading - 17) := by
    rw [decimal, Nat.cast_one, one_mul]
    congr 1
    push_cast
    omega
  rw [search]
  generalize commonScale 1 (leading + 1 - (18 : ℕ)) i.value i.denominator = scale at *
  have hscale : (0 : ℚ) < scale.1 := by
    rw [← hdecimal, hunit]
    positivity
  have hle : scale.1 ≤ scale.2 := by
    rw [← hunit, ← mul_le_mul_iff_of_pos_right hpos, hdecimal, hvalue] at hlast
    exact_mod_cast hlast
  have hlt : (scale.2 : ℚ) < 10 ^ 18 * scale.1 := by
    rw [← hdecimal, ← hvalue, hunit, ← mul_assoc]
    refine mul_lt_mul_of_pos_right (lt_of_lt_of_eq hfirst ?_) hpos
    rw [ten_zpow_grid leading 18]
    congr 2
    push_cast
    omega
  refine ⟨Nat.div_pos hle (by exact_mod_cast hscale), ?_, ?_⟩
  · rw [Nat.div_lt_iff_lt_mul (by exact_mod_cast hscale)]
    exact_mod_cast hlt
  · rw [← mul_le_mul_iff_of_pos_right hpos, hvalue]
    calc decimal (scale.2 / scale.1) (leading + 1 - (18 : ℕ)) * factor
        = (scale.2 / scale.1 : ℕ) * (decimal 1 (leading + 1 - (18 : ℕ)) * factor) := by
          rw [decimal, decimal]
          push_cast
          ring
      _ = (scale.2 / scale.1 : ℕ) * scale.1 := by rw [hdecimal]
      _ ≤ scale.2 := by exact_mod_cast Nat.div_mul_le_self scale.2 scale.1

/-- The search gives a positive decimal of at most eighteen digits that is not above the interval,
if the last grid is fine enough for the value. -/
theorem search_spec (hi : i.Positive) {leading : ℤ}
    (hfirst : (i.value : ℚ) / i.denominator < 10 ^ (leading + 1)) {fuel count : ℕ}
    (hfuel : count + fuel = 18) (hlast : (10 : ℚ) ^ (leading - 17) ≤ i.value / i.denominator) :
    0 < (i.search leading fuel count).1 ∧ (i.search leading fuel count).1 < 10 ^ 18 ∧
      decimal (i.search leading fuel count).1 (i.search leading fuel count).2 ≤
        (i.high : ℚ) / i.denominator ∧
      leading - 17 ≤ (i.search leading fuel count).2 := by
  induction fuel generalizing count with
  | zero =>
    obtain rfl : count = 18 := hfuel
    have hhigh : (i.value : ℚ) / i.denominator ≤ i.high / i.denominator := by
      have : (i.value : ℚ) ≤ i.high := by exact_mod_cast hi.value_le
      gcongr
    obtain ⟨hpos, hmany, hle⟩ := search_zero_spec hi hfirst hlast
    exact ⟨hpos, hmany, hle.trans hhigh, by rw [search]; push_cast; omega⟩
  | succ fuel ih =>
    rw [search]
    split
    · next n hn =>
      obtain ⟨hpos, hle⟩ := bounds_of_contains hi (contains_of_onGrid? hn)
      exact ⟨hpos, lt_of_decimal_le hi hfirst (by omega) hle, hle, by dsimp only; omega⟩
    · exact ih (by omega)

/-! ## The first digit -/

/-- Decimal logarithms that are estimated from binary ones are not two too small, and leave room for
seventeen digits below the first one. -/
theorem ten_zpow_bounds {l : ℤ} (hge : -1100 < l) (hlt : l < 1100) :
    (10 : ℚ) ^ (l * 30103 / 100000 - 18) ≤ 2 ^ (l - 1) ∧
      (2 : ℚ) ^ (l + 1) ≤ 10 ^ (l * 30103 / 100000 + 2) := by
  rcases le_or_gt 0 l with hl | hl
  · have table : ∀ n < 1100, 2 * 10 ^ (n * 30103 / 100000) ≤ 2 ^ n * 10 ^ 18 ∧
        2 ^ (n + 1) ≤ 10 ^ (n * 30103 / 100000 + 2) := by decide +kernel
    obtain ⟨n, rfl⟩ := Int.eq_ofNat_of_zero_le hl
    obtain ⟨hlower, hupper⟩ := table n (by omega)
    have hguess : (n : ℤ) * 30103 / 100000 = (n * 30103 / 100000 : ℕ) := by omega
    rw [hguess]
    generalize n * 30103 / 100000 = guess at *
    constructor
    · rw [zpow_sub₀ (by norm_num), zpow_sub₀ two_ne_zero, zpow_natCast, zpow_natCast, zpow_one,
        div_le_div_iff₀ (by positivity) two_pos, mul_comm _ (2 : ℚ)]
      exact_mod_cast hlower
    · exact_mod_cast hupper
  · have table : ∀ n < 1100, 2 ^ (n + 1) ≤ 10 ^ ((n * 30103 + 99999) / 100000 + 18) ∧
        2 * 10 ^ ((n * 30103 + 99999) / 100000) ≤ 2 ^ n * 10 ^ 2 := by decide +kernel
    obtain ⟨n, rfl⟩ : ∃ n : ℕ, l = -n := ⟨(-l).toNat, by omega⟩
    obtain ⟨hlower, hupper⟩ := table n (by omega)
    have hguess : -(n : ℤ) * 30103 / 100000 = -((n * 30103 + 99999) / 100000 : ℕ) := by omega
    rw [hguess]
    generalize (n * 30103 + 99999) / 100000 = guess at *
    constructor
    · rw [show -(guess : ℤ) - 18 = -(guess + 18 : ℕ) by omega,
        show -(n : ℤ) - 1 = -(n + 1 : ℕ) by omega, zpow_neg, zpow_neg, zpow_natCast, zpow_natCast]
      exact inv_anti₀ (by positivity) (by exact_mod_cast hlower)
    · rw [zpow_add₀ two_ne_zero, zpow_add₀ (by norm_num), zpow_neg, zpow_neg, zpow_natCast,
        zpow_natCast, zpow_one, inv_mul_eq_div, inv_mul_eq_div,
        div_le_div_iff₀ (by positivity) (by positivity), mul_comm (10 ^ (2 : ℤ) : ℚ)]
      exact_mod_cast hupper

/-- The first digit is found at its place or one place too low, and stays in range. -/
theorem leadingPower_spec (hdenominator : 0 < i.denominator) (hvalue : i.value ≠ 0)
    (hge : -1100 < (i.value.log2 : ℤ) - i.denominator.log2)
    (hlt : (i.value.log2 : ℤ) - i.denominator.log2 < 1100) :
    (10 : ℚ) ^ (i.leadingPower - 17) ≤ i.value / i.denominator ∧
      (i.value : ℚ) / i.denominator < 10 ^ (i.leadingPower + 1) ∧ -340 ≤ i.leadingPower := by
  have hreaches : ∀ power : ℤ, decide ((commonScale 1 power i.value i.denominator).1 ≤
      (commonScale 1 power i.value i.denominator).2) = true ↔
      (10 : ℚ) ^ power ≤ i.value / i.denominator := by
    intro power
    rw [decide_eq_true_iff, commonScale_le_iff hdenominator, decimal, Nat.cast_one, one_mul]
  have hbelow : ∀ power : ℤ, (10 : ℚ) ^ power ≤ i.value / i.denominator →
      (10 : ℚ) ^ (power - 17) ≤ i.value / i.denominator := fun power h =>
    (zpow_le_zpow_right₀ (by norm_num) (by omega)).trans h
  obtain ⟨hlower, hupper⟩ := ten_zpow_bounds hge hlt
  have hlower := hlower.trans (two_zpow_log2_lt hvalue hdenominator).le
  have hupper := (lt_two_zpow_log2 i.value hdenominator).trans_le hupper
  unfold leadingPower
  dsimp only
  generalize ((i.value.log2 : ℤ) - i.denominator.log2) = l at *
  split
  · next h =>
    refine ⟨hbelow _ ((hreaches _).1 h), ?_, by omega⟩
    rwa [show l * 30103 / 100000 + 1 + 1 = l * 30103 / 100000 + 2 by omega]
  · next hfirst =>
    have hfirst := not_le.1 (mt (hreaches _).2 hfirst)
    split
    · next h => exact ⟨hbelow _ ((hreaches _).1 h), hfirst, by omega⟩
    · next hsecond =>
      have hsecond := not_le.1 (mt (hreaches _).2 hsecond)
      refine ⟨?_, ?_, by omega⟩
      · rwa [show l * 30103 / 100000 - 1 - 17 = l * 30103 / 100000 - 18 by omega]
      · rwa [show l * 30103 / 100000 - 1 + 1 = l * 30103 / 100000 by omega]

end Interval

/-! ## The shortest decimal -/

/-- The ends of the interval around a positive number. -/
theorem interval_spec {x : Binary64} (hpos : x.significand ≠ 0) :
    x.interval.Positive ∧ x.interval.value ≠ 0 ∧
      (x.interval.value : ℚ) / x.interval.denominator = x.magnitude ∧
      (x.interval.high : ℚ) / x.interval.denominator = (x.significand + 1 / 2) * 2 ^ x.exponent := by
  have hquarter : (2 : ℚ) ^ x.exponent = 4 * 2 ^ (x.exponent - 2) := by
    rw [zpow_sub₀ two_ne_zero]
    norm_num
    ring
  have hends : ∃ factor denominator below : ℕ, 0 < factor ∧ 0 < denominator ∧ below ≤ 2 ∧
      (factor : ℚ) / denominator = 2 ^ (x.exponent - 2) ∧
      x.interval = ⟨(4 * x.significand - below) * factor, 4 * x.significand * factor,
        (4 * x.significand + 2) * factor, denominator, x.significand % 2 = 0⟩ := by
    unfold interval
    dsimp only
    have hbelow : (if x.significand = Nat.pow 2 52 ∧ x.exponent > -1074 then 1 else 2) ≤ 2 := by
      split <;> omega
    generalize (if x.significand = Nat.pow 2 52 ∧ x.exponent > -1074 then 1 else 2) = below at *
    split
    · next h =>
      obtain ⟨k, hk⟩ := Int.eq_ofNat_of_zero_le h
      refine ⟨_, 1, below, Nat.pow_pos two_pos, one_pos, hbelow, ?_, rfl⟩
      simp [hk]
    · next h =>
      obtain ⟨k, hk⟩ : ∃ k : ℕ, x.exponent - 2 = -k := ⟨(-(x.exponent - 2)).toNat, by omega⟩
      refine ⟨1, _, below, one_pos, Nat.pow_pos two_pos, hbelow, ?_, rfl⟩
      simp [hk]
  obtain ⟨factor, denominator, below, hfactor, hdenominator, hbelow, hratio, heq⟩ := hends
  have hlow : 0 < 4 * x.significand - below := by omega
  rw [heq]
  dsimp only
  refine ⟨⟨Nat.mul_pos hlow hfactor, hdenominator, ?_, ?_⟩, by positivity, ?_, ?_⟩
  · exact Nat.mul_le_mul_right factor (Nat.le_add_right _ _)
  · dsimp only
    rw [← mul_assoc]
    exact Nat.mul_le_mul_right factor (by omega)
  · push_cast
    rw [mul_div_assoc, hratio, magnitude, hquarter]
    ring
  · push_cast
    rw [mul_div_assoc, hratio, hquarter]
    ring

/-- The magnitudes of positive numbers in range lie between powers of two. -/
theorem Valid.magnitude_bounds {x : Binary64} (hx : x.Valid) (hpos : x.significand ≠ 0) :
    (2 : ℚ) ^ (-1074 : ℤ) ≤ x.magnitude ∧ x.magnitude < 2 ^ (1024 : ℤ) := by
  have hone : (1 : ℚ) ≤ x.significand := by exact_mod_cast Nat.pos_of_ne_zero hpos
  have hmany : (x.significand : ℚ) < 2 ^ 53 := by exact_mod_cast hx.significand_lt
  unfold magnitude
  constructor
  · calc (2 : ℚ) ^ (-1074 : ℤ) ≤ 2 ^ x.exponent := zpow_le_zpow_right₀ one_le_two hx.exponent_ge
      _ ≤ x.significand * 2 ^ x.exponent := le_mul_of_one_le_left (by positivity) hone
  · calc (x.significand : ℚ) * 2 ^ x.exponent < 2 ^ 53 * 2 ^ x.exponent := by gcongr
      _ ≤ 2 ^ 53 * 2 ^ (971 : ℤ) := by
        have : (2 : ℚ) ^ x.exponent ≤ 2 ^ (971 : ℤ) :=
          zpow_le_zpow_right₀ one_le_two hx.exponent_le
        gcongr
      _ = 2 ^ (1024 : ℤ) := by
        rw [← zpow_natCast 2 53, ← zpow_add₀ two_ne_zero]
        rfl

/-- The shortest decimal of a positive number is positive, has at most eighteen digits, lies below
the middle to the next larger number, and has a scale in range. -/
theorem shortest_spec {x : Binary64} (hx : x.Valid) (hpos : x.significand ≠ 0) :
    0 < x.shortest.1 ∧ x.shortest.1 < 10 ^ 18 ∧
      decimal x.shortest.1 x.shortest.2 ≤ (x.significand + 1 / 2) * 2 ^ x.exponent ∧
      -400 ≤ x.shortest.2 := by
  obtain ⟨hpositive, hvalue, hmagnitude, hhigh⟩ := interval_spec hpos
  obtain ⟨hge, hlt⟩ := hx.magnitude_bounds hpos
  rw [← hmagnitude] at hge hlt
  have hlower := hge.trans_lt (lt_two_zpow_log2 x.interval.value hpositive.denominator)
  have hupper := (two_zpow_log2_lt hvalue hpositive.denominator).trans hlt
  rw [zpow_lt_zpow_iff_right₀ one_lt_two] at hlower hupper
  obtain ⟨hlast, hfirst, hleading⟩ :=
    Interval.leadingPower_spec hpositive.denominator hvalue (by omega) (by omega)
  rw [shortest, if_neg hpos, ← hhigh]
  obtain ⟨hdigits, hmany, hbound, hscale⟩ :=
    Interval.search_spec hpositive hfirst (rfl : 1 + 17 = 18) hlast
  exact ⟨hdigits, hmany, hbound, le_trans (by omega) hscale⟩

/-- The shortest decimal of the largest number. -/
def largestDecimal : ℚ :=
  decimal 17976931348623157 292

/-- No shortest decimal is above that of the largest number. -/
theorem shortest_le_largestDecimal {x : Binary64} (hx : x.Valid) :
    decimal x.shortest.1 x.shortest.2 ≤ largestDecimal := by
  by_cases hpos : x.significand = 0
  · rw [shortest, if_pos hpos, decimal, largestDecimal, decimal]
    norm_num
  by_cases hlargest : x.significand = 2 ^ 53 - 1 ∧ x.exponent = 971
  · have heq : x.shortest = (17976931348623157, 292) := by
      obtain ⟨negative, m, e⟩ := x
      obtain ⟨rfl, rfl⟩ := hlargest
      cases negative <;> decide +kernel
    rw [heq, largestDecimal]
  · refine (shortest_spec hx hpos).2.2.1.trans ?_
    have hlt := hx.significand_lt
    -- the middle above any other number is below the decimal of the largest one
    have hdouble : (2 : ℚ) ^ (971 : ℤ) = 2 * 2 ^ (970 : ℤ) := by
      rw [show (971 : ℤ) = 1 + 970 from rfl, zpow_add₀ two_ne_zero, zpow_one]
    have hbound : ((x.significand : ℚ) + 1 / 2) * 2 ^ x.exponent ≤ (2 ^ 54 - 3) * 2 ^ (970 : ℤ) := by
      rcases hx.exponent_le.lt_or_eq with he | he
      · have hm : (x.significand : ℚ) + 1 ≤ 2 ^ 53 := by exact_mod_cast hlt
        have hpow : (2 : ℚ) ^ x.exponent ≤ 2 ^ (970 : ℤ) :=
          zpow_le_zpow_right₀ one_le_two (by omega)
        have hm' : (x.significand : ℚ) + 1 / 2 ≤ 2 ^ 54 - 3 := by
          linarith only [hm]
        exact mul_le_mul hm' hpow (zpow_nonneg two_pos.le _) (by norm_num)
      · have hm : (x.significand : ℚ) + 2 ≤ 2 ^ 53 := by
          have := not_and.1 hlargest
          exact_mod_cast (by omega : x.significand + 2 ≤ 2 ^ 53)
        have hm' : ((x.significand : ℚ) + 1 / 2) * 2 ≤ 2 ^ 54 - 3 := by linarith only [hm]
        rw [he, hdouble, ← mul_assoc]
        exact mul_le_mul_of_nonneg_right hm' (zpow_nonneg two_pos.le _)
    refine hbound.trans ?_
    -- powers small enough to be computed with
    have htwo : (2 : ℚ) ^ (970 : ℤ) = (2 ^ 97) ^ 10 := by
      rw [show (970 : ℤ) = (97 * 10 : ℕ) from rfl, zpow_natCast, pow_mul]
    have hten : (10 : ℚ) ^ (292 : ℤ) = (10 ^ 146) ^ 2 := by
      rw [show (292 : ℤ) = (146 * 2 : ℕ) from rfl, zpow_natCast, pow_mul]
    rw [largestDecimal, decimal, htwo, hten]
    norm_num

end PluginDataset.Binary64
