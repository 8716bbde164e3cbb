/-!
# Doubles

Finite doubles without a sign, as an integer times a power of two. Every operation rounds the exact
result to the nearest double, a tie going to the even integer, and answers `none` when the result
is too large for a double.
-/

namespace ShiftReduce

def powerOfTen (exponent : Nat) : Nat :=
  Nat.pow 10 exponent

structure Binary64 where
  mantissa : Nat
  exponent : Int
deriving DecidableEq

namespace Binary64

/-- The exponent of the smallest doubles. -/
def minExponent : Int := -1074

/-- The exponent of the largest doubles. -/
def maxExponent : Int := 971

def zero : Binary64 := ⟨0, minExponent⟩

/-- The quotient rounded to an integer, a half going to the even one. -/
def roundDiv (num den : Nat) : Nat :=
  let quotient := num / den
  let twice := 2 * (num % den)
  if twice > den || (twice == den && quotient % 2 == 1) then quotient + 1 else quotient

/-- The fraction `num / den` divided by a power of two, as a fraction. -/
def scale (num den : Nat) (exponent : Int) : Nat × Nat :=
  if exponent ≥ 0 then (num, den <<< exponent.toNat) else (num <<< (-exponent).toNat, den)

/-- The exponent that leaves 53 binary digits of `num / den`, or fewer for the smallest doubles. -/
def exponentOf (num den : Nat) : Int :=
  let guess : Int := (num.log2 : Int) - den.log2 - 52
  let (n, d) := scale num den guess
  max minExponent (if n < d <<< 52 then guess - 1 else guess)

/-- The double nearest to `num / den`. -/
def ofRatio (num den : Nat) : Option Binary64 :=
  if num = 0 then some zero
  else
    let exponent := exponentOf num den
    let (n, d) := scale num den exponent
    let mantissa := roundDiv n d
    let rounded : Binary64 :=
      if mantissa = 1 <<< 53 then ⟨1 <<< 52, exponent + 1⟩ else ⟨mantissa, exponent⟩
    if rounded.exponent > maxExponent then none else some rounded

def ofNat (n : Nat) : Option Binary64 :=
  ofRatio n 1

/-- The value as a fraction. -/
def toRatio (x : Binary64) : Nat × Nat :=
  if x.exponent ≥ 0 then (x.mantissa <<< x.exponent.toNat, 1)
  else (x.mantissa, 1 <<< (-x.exponent).toNat)

def mul (x y : Binary64) : Option Binary64 :=
  let (a, b) := x.toRatio
  let (c, d) := y.toRatio
  ofRatio (a * c) (b * d)

def div (x y : Binary64) : Option Binary64 :=
  let (a, b) := x.toRatio
  let (c, d) := y.toRatio
  ofRatio (a * d) (b * c)

/-- Divides by a power of ten, in steps of at most 308 digits, each of which rounds. -/
def divPowerOfTen (x : Binary64) (digits : Nat) : Option Binary64 :=
  if h : digits ≤ 308 then do x.div (← ofNat (powerOfTen digits))
  else if x.mantissa = 0 then some x
  else do
    let next ← x.div (← ofNat (powerOfTen 308))
    next.divPowerOfTen (digits - 308)
termination_by digits
decreasing_by omega

/--
The double that `significand · 10 ^ exponent` is read as: the significand is rounded first, and
then its product or quotient with the power of ten.
-/
def ofDecimal (significand : Nat) (exponent : Int) : Option Binary64 := do
  let x ← ofNat significand
  if exponent < 0 then x.divPowerOfTen (-exponent).toNat
  else if exponent ≤ 308 then x.mul (← ofNat (powerOfTen exponent.toNat))
  else if x.mantissa = 0 then some x
  else none

end Binary64

end ShiftReduce
