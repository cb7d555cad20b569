import PluginDataset.Number.Binary64
import PluginDataset.Text.Digits

/-!
# Shortest decimal text of a binary64 number

The shortest text is the one with the fewest significant digits among the decimals that round to
the number, and of those the nearest one. A decimal rounds to the number if it lies in the interval
around it that reaches half way to its neighbours; the ends belong to it when the significand is
even.

## Main definitions

* `Binary64.shortest` gives the digits as a natural number and the power of ten of the first one.
* `Binary64.text` writes them: positional from `1e-5` up to below `1e16`, else with an exponent.
-/

namespace PluginDataset.Binary64

/-- The interval of reals that round to a number, in the unit `scale / denominator`: all three
bounds are numerators over one denominator. -/
structure Interval where
  low : Nat
  value : Nat
  high : Nat
  denominator : Nat
  closed : Bool

/-- The interval of reals that round to the magnitude of `x`. Below a power of two the gap is half
as wide. -/
def interval (x : Binary64) : Interval :=
  let m := x.significand
  let below := if m = Nat.pow 2 52 ∧ x.exponent > -1074 then 1 else 2
  let quarter := x.exponent - 2
  let (factor, denominator) :=
    if quarter ≥ 0 then (Nat.pow 2 quarter.toNat, 1) else (1, Nat.pow 2 (-quarter).toNat)
  { low := (4 * m - below) * factor
    value := 4 * m * factor
    high := (4 * m + 2) * factor
    denominator
    closed := m % 2 = 0 }

/-- `n * 10 ^ power` and `bound / denominator` over a common denominator. -/
def commonScale (n : Nat) (power : Int) (bound denominator : Nat) : Nat × Nat :=
  if power ≥ 0 then (n * Nat.pow 10 power.toNat * denominator, bound)
  else (n * denominator, bound * Nat.pow 10 (-power).toNat)

/-- Whether `n * 10 ^ power` lies in the interval. -/
def Interval.contains (i : Interval) (n : Nat) (power : Int) : Bool :=
  let (a, low) := commonScale n power i.low i.denominator
  let (b, high) := commonScale n power i.high i.denominator
  if i.closed then low ≤ a && b ≤ high else low < a && b < high

/-- The power of ten of the first digit of `value / denominator`, which is positive. -/
def Interval.leadingPower (i : Interval) : Int :=
  let reaches (power : Int) : Bool :=
    let (a, v) := commonScale 1 power i.value i.denominator
    a ≤ v
  let guess : Int := ((i.value.log2 : Int) - (i.denominator.log2 : Int)) * 30103 / 100000
  if reaches (guess + 1) then guess + 1 else if reaches guess then guess else guess - 1

/-- The nearer of the two neighbours of the value on the grid of multiples of `10 ^ power`, among
those in the interval. Of two equally near ones the even one is taken. -/
def Interval.onGrid? (i : Interval) (power : Int) : Option Nat :=
  let (unit, v) := commonScale 1 power i.value i.denominator
  let floor := v / unit
  let rest := v % unit
  let floorFirst : Bool := if 2 * rest = unit then floor % 2 = 0 else 2 * rest < unit
  let (first, second) := if floorFirst then (floor, floor + 1) else (floor + 1, floor)
  if i.contains first power then some first
  else if i.contains second power then some second
  else none

/-- The first grid that has a decimal in the interval, from `count` digits to more. -/
def Interval.search (i : Interval) (leading : Int) : (fuel count : Nat) → Nat × Int
  | 0, count =>
    let power := leading + 1 - count
    let (unit, v) := commonScale 1 power i.value i.denominator
    (v / unit, power)
  | fuel + 1, count =>
    let power := leading + 1 - count
    match i.onGrid? power with
    | some n => (n, power)
    | none => i.search leading fuel (count + 1)

/-- The digits and the scale of the shortest decimal that reads back as the magnitude of `x`: the
decimal is `digits * 10 ^ scale`. -/
def shortest (x : Binary64) : Nat × Int :=
  if x.significand = 0 then (0, 0)
  else
    let i := x.interval
    i.search i.leadingPower 17 1

def dropTrailingZeros (digits : List Char) : List Char :=
  match digits.reverse.dropWhile (· == '0') with
  | [] => ['0']
  | kept => kept.reverse

/-- The text of the digits `d` with the decimal point after `point` of them, positional. -/
def positional (d : List Char) (point : Int) : List Char :=
  if point ≤ 0 then ['0', '.'] ++ List.replicate (-point).toNat '0' ++ d
  else
    let n := point.toNat
    if d.length ≤ n then d ++ List.replicate (n - d.length) '0' ++ ['.', '0']
    else d.take n ++ '.' :: d.drop n

/-- The text of the digits `d` with one of them before the decimal point and an exponent. -/
def scientific (d : List Char) (exponent : Int) : List Char :=
  let mantissa := match d with
    | [] => ['0']
    | [c] => [c]
    | c :: cs => c :: '.' :: cs
  let sign := if exponent < 0 then '-' else '+'
  mantissa ++ 'e' :: sign :: Text.decimalDigits exponent.natAbs

/-- The significant digits of the shortest decimal, and the power of ten of the first one. -/
def significant (x : Binary64) : List Char × Int :=
  let (digits, scale) := x.shortest
  let all := Text.decimalDigits digits
  (dropTrailingZeros all, scale + all.length - 1)

def signed (x : Binary64) (magnitude : List Char) : List Char :=
  if x.negative then '-' :: magnitude else magnitude

/-- The shortest text that reads back as `x`. Numbers from `1e-5` up to below `1e16` are written
positionally, with at least one digit on either side of the point. -/
def text (x : Binary64) : List Char :=
  let (d, exponent) := x.significant
  x.signed <|
    if -5 ≤ exponent ∧ exponent < 16 then positional d (exponent + 1) else scientific d exponent

end PluginDataset.Binary64
