import Mathlib.Algebra.Order.Field.Power
import Mathlib.Algebra.Order.Field.Rat
import Mathlib.Tactic.FieldSimp
import Mathlib.Tactic.Linarith
import Mathlib.Tactic.Positivity
import Mathlib.Tactic.Ring
import PluginDataset.Number.Binary64

/-!
# Rounding to binary64 numbers

A quotient is rounded in two steps: its scale is the exponent that leaves it 53 bits, or the least
exponent, and the nearest whole number of units of that scale is taken, the even one of two. Both
steps keep the order of quotients, so that smaller quotients have smaller results and overflow later.

## Main definitions

* `Binary64.magnitude` is the exact value of a number without its sign.
* `Binary64.Valid` says that significand and exponent are in range.
* `Binary64.NearestEven` says that a whole number is nearest to a rational number.
* `Binary64.IsScale` says that an exponent is the scale of a rational number.

## Main results

* `Binary64.exists_ofRatio?_le`: a quotient below one that is in range is in range, and its result is
  no larger.
* `Binary64.valid_of_ofRatio?`: what a quotient is rounded to is in range.
-/

namespace PluginDataset.Binary64

/-- The exact value without the sign. -/
def magnitude (x : Binary64) : ℚ :=
  x.significand * 2 ^ x.exponent

/-- The significand has at most 53 bits, and the exponent is one of those of finite numbers. -/
structure Valid (x : Binary64) : Prop where
  significand_lt : x.significand < 2 ^ 53
  exponent_ge : -1074 ≤ x.exponent
  exponent_le : x.exponent ≤ 971

theorem magnitude_nonneg (x : Binary64) : 0 ≤ x.magnitude := by
  unfold magnitude
  positivity

@[simp] theorem magnitude_zero (negative : Bool) : (zero negative).magnitude = 0 := by
  simp [magnitude, zero]

theorem valid_zero (negative : Bool) : (zero negative).Valid :=
  ⟨by simp [zero], by simp [zero], by simp [zero]⟩

/-! ## The nearest whole number -/

/-- A whole number is no more than half away from a rational number, and even if it is half away. -/
structure NearestEven (r : ℚ) (n : ℕ) : Prop where
  le_add : (n : ℚ) ≤ r + 1 / 2
  ge_sub : r ≤ n + 1 / 2
  even : r = n + 1 / 2 ∨ (n : ℚ) = r + 1 / 2 → n % 2 = 0

/-- Rounding keeps the order. -/
theorem NearestEven.mono {r r' : ℚ} {n n' : ℕ} (h : NearestEven r n) (h' : NearestEven r' n')
    (hle : r ≤ r') : n ≤ n' := by
  by_contra hlt
  have hstep : (n' : ℚ) + 1 ≤ n := by exact_mod_cast Nat.lt_of_not_le hlt
  have hupper := h'.ge_sub
  have hlower := h.le_add
  -- both numbers are half away from the same rational number, and next to each other
  have heven := h.even (.inr (by linarith))
  have heven' := h'.even (.inl (by linarith))
  have hnext : n = n' + 1 := by exact_mod_cast (by linarith : (n : ℚ) = n' + 1)
  omega

theorem nearestEven_roundQuotient (num : ℕ) {den : ℕ} (hden : 0 < den) :
    NearestEven ((num : ℚ) / den) (roundQuotient num den) := by
  have hpos : (0 : ℚ) < den := by exact_mod_cast hden
  have hsplit : (num : ℚ) / den = (num / den : ℕ) + (num % den : ℕ) / den := by
    rw [div_eq_iff hpos.ne', add_mul, div_mul_cancel₀ _ hpos.ne']
    exact_mod_cast (Nat.div_add_mod' num den).symm
  have hrest : ((num % den : ℕ) : ℚ) / den < 1 := by
    rw [div_lt_one hpos]
    exact_mod_cast Nat.mod_lt num hden
  have hnonneg : (0 : ℚ) ≤ ((num % den : ℕ) : ℚ) / den := by positivity
  -- the three ways in which twice the rest compares with the divisor
  have hlt : 2 * (num % den) < den ↔ ((num % den : ℕ) : ℚ) / den < 1 / 2 := by
    rw [div_lt_div_iff₀ hpos two_pos, one_mul, mul_comm]
    exact_mod_cast Iff.rfl
  have hgt : den < 2 * (num % den) ↔ 1 / 2 < ((num % den : ℕ) : ℚ) / den := by
    rw [div_lt_div_iff₀ two_pos hpos, one_mul, mul_comm ((num % den : ℕ) : ℚ)]
    exact_mod_cast Iff.rfl
  rw [hsplit]
  generalize ((num % den : ℕ) : ℚ) / den = rest at *
  unfold roundQuotient
  dsimp only
  split
  · next h =>
    have := hlt.1 h
    exact ⟨by linarith, by linarith, by rintro (h | h) <;> linarith⟩
  · next hge =>
    have hge' : 1 / 2 ≤ rest := not_lt.1 (mt hlt.2 hge)
    split
    · next h =>
      have := hgt.1 h
      constructor <;> push_cast
      · linarith
      · linarith
      · rintro (h | h) <;> linarith
    · next hle =>
      have hle' : rest ≤ 1 / 2 := not_lt.1 (mt hgt.2 hle)
      split
      · next heven => exact ⟨by linarith, by linarith, fun _ => heven⟩
      · next hodd =>
        constructor <;> push_cast
        · linarith
        · linarith
        · exact fun _ => by omega

/-! ## The scale -/

/-- The exponent in whose units a rational number is below `2 ^ 53`, and at least `2 ^ 52` unless it
is the least exponent. -/
structure IsScale (r : ℚ) (e : ℤ) : Prop where
  least : -1074 ≤ e
  lt : r < 2 ^ 53 * 2 ^ e
  ge : e = -1074 ∨ 2 ^ 52 * 2 ^ e ≤ r

theorem IsScale.mono {r r' : ℚ} {e e' : ℤ} (h : IsScale r e) (h' : IsScale r' e') (hle : r ≤ r') :
    e ≤ e' := by
  by_contra hlt
  have hge : 2 ^ 52 * 2 ^ e ≤ r := h.ge.resolve_left (by have := h'.least; omega)
  have hpow : (2 : ℚ) ^ (e' + 1) ≤ 2 ^ e := zpow_le_zpow_right₀ one_le_two (by omega)
  have hdouble : (2 : ℚ) ^ 53 * 2 ^ e' = 2 ^ 52 * 2 ^ (e' + 1) := by
    rw [zpow_add₀ two_ne_zero]
    ring
  have hlt' := h'.lt
  rw [hdouble] at hlt'
  linarith

theorem inUnits_spec (num : ℕ) {den : ℕ} (hden : 0 < den) (e : ℤ) :
    0 < (inUnits num den e).2 ∧
      ((inUnits num den e).1 : ℚ) / (inUnits num den e).2 = (num : ℚ) / den / 2 ^ e := by
  unfold inUnits
  split
  · next he =>
    obtain ⟨n, rfl⟩ := Int.eq_ofNat_of_zero_le he
    refine ⟨Nat.mul_pos hden (Nat.pow_pos two_pos), ?_⟩
    simp [div_div]
  · next he =>
    obtain ⟨n, rfl⟩ : ∃ n : ℕ, e = -n := ⟨(-e).toNat, by omega⟩
    refine ⟨hden, ?_⟩
    simp [mul_div_right_comm]

/-- The scale of a quotient as it is computed. -/
def scaleOf (num den : ℕ) : ℤ :=
  let low : ℤ := (num.log2 : ℤ) - (den.log2 : ℤ) - 53
  let fits (e : ℤ) : Bool := (inUnits num den e).1 / (inUnits num den e).2 < Nat.pow 2 53
  max (if fits low then low else low + 1) (-1074)

/-- A quotient is more than half of what the logarithms say. -/
theorem two_zpow_log2_lt {num den : ℕ} (hnum : num ≠ 0) (hden : 0 < den) :
    (2 : ℚ) ^ ((num.log2 : ℤ) - den.log2 - 1) < num / den := by
  have hnum' : ((2 ^ num.log2 : ℕ) : ℚ) ≤ num := by exact_mod_cast Nat.log2_self_le hnum
  have hden' : (den : ℚ) < ((2 ^ (den.log2 + 1) : ℕ) : ℚ) := by exact_mod_cast Nat.lt_log2_self
  have hpos : (0 : ℚ) < den := by exact_mod_cast hden
  rw [lt_div_iff₀ hpos]
  calc (2 : ℚ) ^ ((num.log2 : ℤ) - den.log2 - 1) * den
      < 2 ^ ((num.log2 : ℤ) - den.log2 - 1) * ((2 ^ (den.log2 + 1) : ℕ) : ℚ) := by gcongr
    _ = ((2 ^ num.log2 : ℕ) : ℚ) := by
      push_cast
      rw [← zpow_natCast 2 (den.log2 + 1), ← zpow_natCast 2 num.log2, ← zpow_add₀ two_ne_zero]
      congr 1
      push_cast
      omega
    _ ≤ num := hnum'

/-- A quotient is less than twice what the logarithms say. -/
theorem lt_two_zpow_log2 (num : ℕ) {den : ℕ} (hden : 0 < den) :
    (num : ℚ) / den < 2 ^ ((num.log2 : ℤ) - den.log2 + 1) := by
  have hnum' : (num : ℚ) < ((2 ^ (num.log2 + 1) : ℕ) : ℚ) := by exact_mod_cast Nat.lt_log2_self
  have hden' : ((2 ^ den.log2 : ℕ) : ℚ) ≤ den := by exact_mod_cast Nat.log2_self_le hden.ne'
  have hpos : (0 : ℚ) < den := by exact_mod_cast hden
  rw [div_lt_iff₀ hpos]
  calc (num : ℚ) < ((2 ^ (num.log2 + 1) : ℕ) : ℚ) := hnum'
    _ = 2 ^ ((num.log2 : ℤ) - den.log2 + 1) * ((2 ^ den.log2 : ℕ) : ℚ) := by
      push_cast
      rw [← zpow_natCast 2 den.log2, ← zpow_natCast 2 (num.log2 + 1), ← zpow_add₀ two_ne_zero]
      congr 1
      push_cast
      omega
    _ ≤ 2 ^ ((num.log2 : ℤ) - den.log2 + 1) * den := by gcongr

theorem isScale_scaleOf {num den : ℕ} (hnum : num ≠ 0) (hden : 0 < den) :
    IsScale ((num : ℚ) / den) (scaleOf num den) := by
  set low : ℤ := (num.log2 : ℤ) - (den.log2 : ℤ) - 53 with hlow
  have hfits : (inUnits num den low).1 / (inUnits num den low).2 < Nat.pow 2 53 ↔
      (num : ℚ) / den < 2 ^ 53 * 2 ^ low := by
    obtain ⟨hunit, hvalue⟩ := inUnits_spec num hden low
    have hunit' : (0 : ℚ) < (inUnits num den low).2 := by exact_mod_cast hunit
    rw [← div_lt_iff₀ (by positivity), ← hvalue, div_lt_iff₀ hunit', Nat.div_lt_iff_lt_mul hunit]
    exact_mod_cast Iff.rfl
  -- the logarithms leave two candidates
  have hlower : 2 ^ 52 * 2 ^ low < (num : ℚ) / den := by
    refine lt_of_eq_of_lt ?_ (two_zpow_log2_lt hnum hden)
    rw [← zpow_natCast 2 52, ← zpow_add₀ two_ne_zero]
    congr 1
    push_cast
    omega
  have hupper : (num : ℚ) / den < 2 ^ 53 * 2 ^ (low + 1) := by
    refine lt_of_lt_of_eq (lt_two_zpow_log2 num hden) ?_
    rw [← zpow_natCast 2 53, ← zpow_add₀ two_ne_zero]
    congr 1
    push_cast
    omega
  have hscale : ∀ e : ℤ, (num : ℚ) / den < 2 ^ 53 * 2 ^ e → 2 ^ 52 * 2 ^ e ≤ (num : ℚ) / den →
      IsScale ((num : ℚ) / den) (max e (-1074)) := by
    intro e hlt hge
    rcases max_choice e (-1074) with h | h
    · exact ⟨le_max_right _ _, by rwa [h], .inr (by rwa [h])⟩
    · refine ⟨le_max_right _ _, lt_of_lt_of_le hlt ?_, .inl h⟩
      have : (2 : ℚ) ^ e ≤ 2 ^ max e (-1074) := zpow_le_zpow_right₀ one_le_two (le_max_left _ _)
      linarith
  unfold scaleOf
  rw [← hlow]
  dsimp only
  split
  · next h => exact hscale low (hfits.1 (of_decide_eq_true h)) hlower.le
  · next h =>
    have hge : 2 ^ 53 * 2 ^ low ≤ (num : ℚ) / den :=
      not_lt.1 fun hlt => h (decide_eq_true (hfits.2 hlt))
    refine hscale (low + 1) hupper (le_of_eq_of_le ?_ hge)
    rw [zpow_add₀ two_ne_zero]
    ring

/-! ## Rounded quotients -/

/-- So many units of a scale, as a number in range. -/
def ofUnits? (negative : Bool) (n : ℕ) (e : ℤ) : Option Binary64 :=
  let (significand, exponent) := if n = Nat.pow 2 53 then (Nat.pow 2 52, e + 1) else (n, e)
  if exponent > 971 then none else some ⟨negative, significand, exponent⟩

theorem exists_ofUnits? (negative : Bool) {n : ℕ} {e : ℤ}
    (h : e < 971 ∨ e = 971 ∧ n ≠ 2 ^ 53) : ∃ x, ofUnits? negative n e = some x := by
  unfold ofUnits?
  split
  · next heq =>
    split at heq
    · next hn =>
      have he : ¬e + 1 > 971 := by
        rcases h with h | h
        · omega
        · exact absurd hn h.2
      obtain ⟨rfl, rfl⟩ := Prod.mk.inj heq
      exact ⟨_, if_neg he⟩
    · obtain ⟨rfl, rfl⟩ := Prod.mk.inj heq
      exact ⟨_, if_neg (by omega)⟩

theorem ofUnits?_spec {negative : Bool} {n : ℕ} {e : ℤ} {x : Binary64} (hn : n ≤ 2 ^ 53)
    (he : -1074 ≤ e) (h : ofUnits? negative n e = some x) :
    x.Valid ∧ x.magnitude = n * 2 ^ e ∧ (e < 971 ∨ e = 971 ∧ n ≠ 2 ^ 53) := by
  unfold ofUnits? at h
  by_cases hcarry : n = Nat.pow 2 53
  · rw [if_pos hcarry] at h
    dsimp only at h
    split at h
    · simp at h
    · next hle =>
      obtain rfl := Option.some.inj h
      have hlt : Nat.pow 2 52 < 2 ^ 53 := by decide
      refine ⟨⟨hlt, by dsimp only; omega, by dsimp only; omega⟩, ?_, .inl (by omega)⟩
      rw [magnitude, hcarry, zpow_add₀ two_ne_zero]
      norm_num
      ring
  · have hcarry' : n ≠ 2 ^ 53 := hcarry
    rw [if_neg hcarry] at h
    dsimp only at h
    split at h
    · simp at h
    · next hle =>
      obtain rfl := Option.some.inj h
      exact ⟨⟨by dsimp only; omega, he, by dsimp only; omega⟩, rfl, by omega⟩

/-- A quotient that is not zero is rounded to the nearest number of units of its scale. -/
theorem exists_ofRatio?_eq (negative : Bool) {num den : ℕ} (hnum : num ≠ 0) (hden : 0 < den) :
    ∃ n e, IsScale ((num : ℚ) / den) e ∧ NearestEven ((num : ℚ) / den / 2 ^ e) n ∧
      ofRatio? negative num den = ofUnits? negative n e := by
  obtain ⟨hunit, hvalue⟩ := inUnits_spec num hden (scaleOf num den)
  refine ⟨_, scaleOf num den, isScale_scaleOf hnum hden,
    hvalue ▸ nearestEven_roundQuotient _ hunit, ?_⟩
  rw [ofRatio?, if_neg hnum]
  rfl

theorem IsScale.units_le {r : ℚ} {e : ℤ} {n : ℕ} (h : IsScale r e)
    (hn : NearestEven (r / 2 ^ e) n) : n ≤ 2 ^ 53 := by
  have hlt : r / 2 ^ e < 2 ^ 53 := by
    rw [div_lt_iff₀ (by positivity)]
    exact h.lt
  have hhalf : (n : ℚ) < (2 ^ 53 + 1 : ℕ) := by
    have := hn.le_add
    push_cast
    linarith
  exact Nat.le_of_lt_succ (by exact_mod_cast hhalf)

/-- What a quotient is rounded to is in range. -/
theorem valid_of_ofRatio? {negative : Bool} {num den : ℕ} (hden : 0 < den) {x : Binary64}
    (h : ofRatio? negative num den = some x) : x.Valid := by
  by_cases hnum : num = 0
  · rw [ofRatio?, if_pos hnum] at h
    obtain rfl := Option.some.inj h
    exact valid_zero negative
  · obtain ⟨n, e, hscale, hn, heq⟩ := exists_ofRatio?_eq negative hnum hden
    exact (ofUnits?_spec (hscale.units_le hn) hscale.least (heq ▸ h)).1

/-- A quotient below one that is in range is in range, and its result is no larger. -/
theorem exists_ofRatio?_le (negative : Bool) {negative' : Bool} {num den num' den' : ℕ}
    (hden : 0 < den) (hden' : 0 < den') (hle : (num : ℚ) / den ≤ num' / den') {y : Binary64}
    (h : ofRatio? negative' num' den' = some y) :
    ∃ x, ofRatio? negative num den = some x ∧ x.magnitude ≤ y.magnitude := by
  by_cases hnum : num = 0
  · exact ⟨zero negative, if_pos hnum, (magnitude_zero negative).trans_le y.magnitude_nonneg⟩
  have hpos : (0 : ℚ) < num / den := by
    have := Nat.pos_of_ne_zero hnum
    positivity
  have hnum' : num' ≠ 0 := by
    rintro rfl
    simp only [Nat.cast_zero, zero_div] at hle
    linarith
  obtain ⟨n, e, hscale, hn, heq⟩ := exists_ofRatio?_eq negative hnum hden
  obtain ⟨n', e', hscale', hn', heq'⟩ := exists_ofRatio?_eq negative' hnum' hden'
  obtain ⟨_, hvalue', hrange⟩ :=
    ofUnits?_spec (hscale'.units_le hn') hscale'.least (heq' ▸ h)
  have hbounded := hscale.units_le hn
  rw [heq, hvalue']
  rcases (hscale.mono hscale' hle).lt_or_eq with hlt | rfl
  · obtain ⟨x, hx⟩ := exists_ofUnits? negative (n := n) (e := e) (.inl (by omega))
    refine ⟨x, hx, ?_⟩
    rw [(ofUnits?_spec hbounded hscale.least hx).2.1]
    -- a number of the next scale has at least as many of its units as one of this scale can have
    have hge : 2 ^ 52 ≤ (num' : ℚ) / den' / 2 ^ e' := by
      rw [le_div_iff₀ (by positivity)]
      exact hscale'.ge.resolve_left (by have := hscale.least; omega)
    have hfull : NearestEven (2 ^ 52) (2 ^ 52) :=
      ⟨by norm_num, by norm_num, fun _ => by decide⟩
    have hn52 : ((2 ^ 52 : ℕ) : ℚ) ≤ n' := by exact_mod_cast hfull.mono hn' hge
    have hn53 : (n : ℚ) ≤ (2 ^ 53 : ℕ) := by exact_mod_cast hbounded
    calc (n : ℚ) * 2 ^ e ≤ (2 ^ 53 : ℕ) * 2 ^ e := by gcongr
      _ = (2 ^ 52 : ℕ) * 2 ^ (e + 1) := by
        rw [zpow_add₀ two_ne_zero]
        norm_num
        ring
      _ ≤ n' * 2 ^ e' := by
        have : (2 : ℚ) ^ (e + 1) ≤ 2 ^ e' := zpow_le_zpow_right₀ one_le_two (by omega)
        gcongr
  · have hmono : n ≤ n' := hn.mono hn' (by gcongr)
    have hbounded' := hscale'.units_le hn'
    obtain ⟨x, hx⟩ := exists_ofUnits? negative (n := n) (e := e)
      (hrange.imp_right fun ⟨he, hne⟩ => ⟨he, by omega⟩)
    refine ⟨x, hx, ?_⟩
    rw [(ofUnits?_spec hbounded hscale.least hx).2.1]
    gcongr

/-! ## Decimals and operations -/

/-- What a decimal is rounded to is in range. -/
theorem valid_of_ofDecimal? {negative : Bool} {digits : ℕ} {exponent : ℤ} {x : Binary64}
    (h : ofDecimal? negative digits exponent = some x) : x.Valid := by
  unfold ofDecimal? at h
  split at h
  · obtain rfl := Option.some.inj h
    exact valid_zero negative
  · dsimp only at h
    split at h
    · simp at h
    · split at h
      · obtain rfl := Option.some.inj h
        exact valid_zero negative
      · split at h
        · exact valid_of_ofRatio? one_pos h
        · exact valid_of_ofRatio? (Nat.pow_pos (by decide)) h

theorem toRatio_spec (x : Binary64) :
    0 < x.toRatio.2 ∧ (x.toRatio.1 : ℚ) / x.toRatio.2 = x.magnitude := by
  unfold toRatio magnitude
  split
  · next he =>
    obtain ⟨n, hn⟩ := Int.eq_ofNat_of_zero_le he
    simp [hn]
  · next he =>
    obtain ⟨n, hn⟩ : ∃ n : ℕ, x.exponent = -n := ⟨(-x.exponent).toNat, by omega⟩
    refine ⟨Nat.pow_pos two_pos, ?_⟩
    simp [hn, div_eq_mul_inv]

theorem mul?_eq (x y : Binary64) :
    x.mul? y = ofRatio? (x.negative != y.negative) (x.toRatio.1 * y.toRatio.1)
      (x.toRatio.2 * y.toRatio.2) := rfl

/-- A product below one that is in range is in range. -/
theorem exists_mul?_le {x y x' y' z' : Binary64}
    (hle : x.magnitude * y.magnitude ≤ x'.magnitude * y'.magnitude) (h : x'.mul? y' = some z') :
    ∃ z, x.mul? y = some z ∧ z.magnitude ≤ z'.magnitude := by
  obtain ⟨hx, hvx⟩ := x.toRatio_spec
  obtain ⟨hy, hvy⟩ := y.toRatio_spec
  obtain ⟨hx', hvx'⟩ := x'.toRatio_spec
  obtain ⟨hy', hvy'⟩ := y'.toRatio_spec
  rw [mul?_eq] at h ⊢
  refine exists_ofRatio?_le _ (Nat.mul_pos hx hy) (Nat.mul_pos hx' hy') ?_ h
  push_cast
  rwa [← div_mul_div_comm, ← div_mul_div_comm, hvx, hvy, hvx', hvy']

/-- A quotient of numbers, by one that is not zero, is in range if a fraction is that is not
smaller. -/
theorem exists_div?_le {x y z' : Binary64} {negative : Bool} {num den : ℕ}
    (hy : y.magnitude ≠ 0) (hden : 0 < den) (hle : x.magnitude / y.magnitude ≤ num / den)
    (h : ofRatio? negative num den = some z') :
    ∃ z, x.div? y = some z ∧ z.magnitude ≤ z'.magnitude := by
  obtain ⟨hx, hvx⟩ := x.toRatio_spec
  obtain ⟨hy', hvy⟩ := y.toRatio_spec
  have hnum : y.toRatio.1 ≠ 0 := by
    intro hzero
    rw [hzero, Nat.cast_zero, zero_div] at hvy
    exact hy hvy.symm
  rw [div?]
  dsimp only
  rw [if_neg hnum]
  refine exists_ofRatio?_le _ (Nat.mul_pos hx (Nat.pos_of_ne_zero hnum)) hden ?_ h
  push_cast
  rwa [← div_div_div_eq, hvx, hvy]

end PluginDataset.Binary64
