import ShiftReduce.Decimal.Shortest

/-!
# Written decimals

How a decimal is written: positionally while its digits stand near the point, and with an exponent
otherwise. A whole number keeps one decimal place, and an exponent has a sign in any case.
-/

namespace ShiftReduce

structure DecimalLayout where
  /-- The most digits that a positional number has before its point. -/
  wholeDigits : Nat
  /-- The most zeros that a positional number has right behind its point. -/
  zerosAfterPoint : Nat

namespace DecimalLayout

def digitsOf (n : Nat) : List Char :=
  Nat.toDigits 10 n

/-- The digits with a point behind the first and the power of ten that this leaves. -/
def withExponent (digits : List Char) (power : Int) : List Char :=
  let mantissa := match digits with
    | first :: second :: rest => first :: '.' :: second :: rest
    | digits => digits
  let sign := if power < 0 then '-' else '+'
  mantissa ++ ['e', sign] ++ digitsOf power.natAbs

def write (layout : DecimalLayout) (d : Decimal) : List Char :=
  let digits := digitsOf d.digits
  let point : Int := digits.length + d.exponent
  if 0 ≤ d.exponent ∧ point ≤ layout.wholeDigits then
    digits ++ List.replicate d.exponent.toNat '0' ++ ['.', '0']
  else if 0 < point ∧ point ≤ layout.wholeDigits then
    digits.take point.toNat ++ ['.'] ++ digits.drop point.toNat
  else if -(layout.zerosAfterPoint : Int) ≤ point ∧ point ≤ 0 then
    ['0', '.'] ++ List.replicate (-point).toNat '0' ++ digits
  else withExponent digits (point - 1)

end DecimalLayout

end ShiftReduce
