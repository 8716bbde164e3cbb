import ShiftReduce.Decimal.Binary64

/-!
# Shortest decimals

The decimal with the fewest digits that lies in the interval of reals that round to a double; of
several such the nearest to the double, and of two equally near the even one.
-/

namespace ShiftReduce

/-- The value `digits · 10 ^ exponent`. -/
structure Decimal where
  digits : Nat
  exponent : Int
deriving DecidableEq

namespace Binary64

/-- `quarters` quarters of the spacing of doubles at `x`, as a fraction. -/
def quartersRatio (x : Binary64) (quarters : Nat) : Nat × Nat :=
  toRatio ⟨quarters, x.exponent - 2⟩

/-- The distance to the lower end of the rounding interval, in quarters of the spacing. -/
def lowerGap (x : Binary64) : Nat :=
  if x.mantissa = 1 <<< 52 ∧ x.exponent > minExponent then 1 else 2

/-- The order of `digits · 10 ^ exponent` and a fraction. -/
def compareToRatio (d : Decimal) (ratio : Nat × Nat) : Ordering :=
  if d.exponent ≥ 0 then compare (d.digits * powerOfTen d.exponent.toNat * ratio.2) ratio.1
  else compare (d.digits * ratio.2) (ratio.1 * powerOfTen (-d.exponent).toNat)

/-- Whether a decimal is read back as `x`. The ends of the interval belong to even mantissas. -/
def readsBack (x : Binary64) (d : Decimal) : Bool :=
  let low := compareToRatio d (x.quartersRatio (4 * x.mantissa - x.lowerGap))
  let high := compareToRatio d (x.quartersRatio (4 * x.mantissa + 2))
  if x.mantissa % 2 = 0 then low.isGE && high.isLE else low.isGT && high.isLT

/-- The place of the leading decimal digit of a fraction:
`10 ^ place ≤ num / den < 10 ^ (place + 1)`. -/
def leadingPlace (num den : Nat) : Int :=
  if num ≥ den then ((Nat.toDigits 10 (num / den)).length : Int) - 1
  else
    let quotient := den / num
    let length := (Nat.toDigits 10 quotient).length
    if num * powerOfTen (length - 1) ≥ den then 1 - (length : Int) else -(length : Int)

/-- The whole number of steps of size `10 ^ exponent` in a fraction. -/
def stepsBelow (ratio : Nat × Nat) (exponent : Int) : Nat :=
  if exponent ≥ 0 then ratio.1 / (ratio.2 * powerOfTen exponent.toNat)
  else ratio.1 * powerOfTen (-exponent).toNat / ratio.2

/-- The better of the two neighbours of `x` among the decimals with a given exponent. -/
def onGrid? (x : Binary64) (exponent : Int) : Option Decimal :=
  let steps := stepsBelow x.toRatio exponent
  let below : Decimal := ⟨steps, exponent⟩
  let above : Decimal := ⟨steps + 1, exponent⟩
  if x.readsBack below then
    if x.readsBack above then
      let (num, den) := x.toRatio
      match compareToRatio ⟨(2 * steps + 1) * 5, exponent - 1⟩ (num, den) with
      | .gt => some below
      | .lt => some above
      | .eq => if steps % 2 = 0 then some below else some above
    else some below
  else if x.readsBack above then some above
  else none

/--
The shortest decimal that is read back as `x`, which is not zero. The search starts one place above
the leading digit, where the power of ten above `x` lies, and ends with seventeen digits.
-/
def shortest (x : Binary64) : Decimal :=
  let (num, den) := x.toRatio
  let place := leadingPlace num den
  let exponents := (List.range 18).map fun (n : Nat) => place + 1 - (n : Int)
  (exponents.findSome? x.onGrid?).getD ⟨stepsBelow x.toRatio (place - 16), place - 16⟩

end Binary64

end ShiftReduce
