/-!
# Finite binary64 numbers

Sign and magnitude of a finite number of 64 bits, with rounding of exact quotients to the nearest
one. All arithmetic is on natural numbers and integers.

## Main definitions

* `Binary64` is a sign and a magnitude `significand * 2 ^ exponent`.
* `Binary64.ofRatio?` rounds a quotient to nearest, ties to even; `none` is an overflow.
* `Binary64.ofDecimal?` rounds `digits * 10 ^ exponent`.
* `Binary64.mul?` and `Binary64.div?` are the rounded operations.
-/

namespace PluginDataset

/-- A finite binary64 number. The significand is below `2 ^ 53`; it is at least `2 ^ 52` unless the
exponent is the least one, `-1074`. -/
structure Binary64 where
  negative : Bool
  significand : Nat
  exponent : Int
deriving DecidableEq, Repr

namespace Binary64

def zero (negative : Bool) : Binary64 :=
  ⟨negative, 0, -1074⟩

/-- `num / den` rounded to the nearest integer, ties to even. -/
def roundQuotient (num den : Nat) : Nat :=
  let q := num / den
  let r := num % den
  if 2 * r < den then q
  else if 2 * r > den then q + 1
  else if q % 2 = 0 then q else q + 1

/-- The quotient `num / den` in units of `2 ^ exponent`, as a fraction. -/
def inUnits (num den : Nat) (exponent : Int) : Nat × Nat :=
  if exponent ≥ 0 then (num, den * Nat.pow 2 exponent.toNat)
  else (num * Nat.pow 2 (-exponent).toNat, den)

/-- The number nearest to `num / den`, ties to even; `none` when it is beyond the largest one. -/
def ofRatio? (negative : Bool) (num den : Nat) : Option Binary64 :=
  if num = 0 then some (zero negative)
  else
    let low : Int := (num.log2 : Int) - (den.log2 : Int) - 53
    let fits (e : Int) : Bool :=
      let (n, d) := inUnits num den e
      n / d < Nat.pow 2 53
    let e := max (if fits low then low else low + 1) (-1074)
    let (n, d) := inUnits num den e
    let rounded := roundQuotient n d
    let (significand, exponent) :=
      if rounded = Nat.pow 2 53 then (Nat.pow 2 52, e + 1) else (rounded, e)
    if exponent > 971 then none else some ⟨negative, significand, exponent⟩

def toRatio (x : Binary64) : Nat × Nat :=
  if x.exponent ≥ 0 then (x.significand * Nat.pow 2 x.exponent.toNat, 1)
  else (x.significand, Nat.pow 2 (-x.exponent).toNat)

/-- The number nearest to `digits * 10 ^ exponent`, ties to even. Exponents far outside the range
are settled by the number of digits, without computing the power. -/
def ofDecimal? (negative : Bool) (digits : Nat) (exponent : Int) : Option Binary64 :=
  if digits = 0 then some (zero negative)
  else
    let magnitude := exponent + (digits.log2 : Int) * 3 / 10
    if exponent > 400 then none
    else if magnitude < -400 then some (zero negative)
    else if exponent ≥ 0 then ofRatio? negative (digits * Nat.pow 10 exponent.toNat) 1
    else ofRatio? negative digits (Nat.pow 10 (-exponent).toNat)

def mul? (x y : Binary64) : Option Binary64 :=
  let (a, b) := x.toRatio
  let (c, d) := y.toRatio
  ofRatio? (x.negative != y.negative) (a * c) (b * d)

/-- The rounded quotient; `none` also when the divisor is zero. -/
def div? (x y : Binary64) : Option Binary64 :=
  let (a, b) := x.toRatio
  let (c, d) := y.toRatio
  if c = 0 then none else ofRatio? (x.negative != y.negative) (a * d) (b * c)

def withSign (x : Binary64) (negative : Bool) : Binary64 :=
  { x with negative }

def sameValue (x y : Binary64) : Bool :=
  x == y || (x.significand == 0 && y.significand == 0)

example : ofDecimal? false 1 (-1) = some ⟨false, 7205759403792794, -56⟩ := by decide +kernel
example : ofDecimal? false 5 (-324) = some ⟨false, 1, -1074⟩ := by decide +kernel
example : ofDecimal? false 17976931348623159 292 = none := by decide +kernel

end Binary64

end PluginDataset
