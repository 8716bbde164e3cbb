import ShiftReduce.Json.Reader

/-!
# Reading numbers

A number is read as its digits first and valued afterwards. Whole numbers of 64 bits are exact; any
other number is a double, whose significand takes digits only as long as they fit into 64 bits.
-/

namespace ShiftReduce.Json

structure NumberText where
  negative : Bool
  whole : List Char
  /-- The digits behind the point, if there is one. -/
  fraction : Option (List Char)
  /-- Whether the exponent is negative, and its digits. -/
  exponent : Option (Bool × List Char)
deriving DecidableEq

namespace Reader

/-- At least one digit; `atEnd` is what is wrong if the text ends instead. -/
def digits (atEnd : DecodeError) : Reader (List Char) := do
  let run ← takeWhile Char.isDigit
  if run.isEmpty then
    match ← peek with
    | none => fail atEnd
    | some _ => fail .malformed
  else Pure.pure run

/-- The digits before the point. A leading zero stands alone. -/
def wholeDigits (atEnd : DecodeError) : Reader (List Char) := do
  let run ← digits atEnd
  if run.head? = some '0' ∧ run.length > 1 then fail .malformed else Pure.pure run

def fractionDigits (atEnd : DecodeError) : Reader (Option (List Char)) := do
  if (← peek) = some '.' then
    skip
    return some (← digits atEnd)
  else return none

def isExponentMark (c : Char) : Bool :=
  c == 'e' || c == 'E'

def exponentDigits (atEnd : DecodeError) : Reader (Option (Bool × List Char)) := do
  if (← peek).any isExponentMark then
    skip
    let sign ← peek
    if sign = some '+' ∨ sign = some '-' then skip
    return some (sign = some '-', ← digits atEnd)
  else return none

def numberText (atEnd : DecodeError) : Reader NumberText := do
  let negative := (← peek) = some '-'
  if negative then skip
  let whole ← wholeDigits atEnd
  let fraction ← fractionDigits atEnd
  let exponent ← exponentDigits atEnd
  return ⟨negative, whole, fraction, exponent⟩

end Reader

namespace NumberText

/-- The largest integer of 64 bits without a sign. -/
def significandLimit : Nat := 18446744073709551615

/-- The largest integer of 32 bits with a sign. -/
def exponentLimit : Nat := 2147483647

/-- Appends digits to a number while it stays within `limit`; also how many are left over. -/
def takeDigits (limit : Nat) : Nat → List Char → Nat × Nat
  | value, [] => (value, 0)
  | value, c :: rest =>
    let next := 10 * value + (c.toNat - '0'.toNat)
    if next ≤ limit then takeDigits limit next rest else (value, rest.length + 1)

/-- The value of a number without point and exponent that fits into 64 bits. -/
def integerFound (negative : Bool) (magnitude : Nat) : Option Found :=
  if !negative then some (.integer magnitude)
  else if 0 < magnitude ∧ magnitude ≤ 9223372036854775808 then some (.integer (-(magnitude : Int)))
  else (Binary64.ofNat magnitude).map (.fraction true)

/-- What the number is, unless its magnitude is out of range. -/
def found? (n : NumberText) : Option Found :=
  let (significand, left) := takeDigits significandLimit 0 n.whole
  match n.fraction, n.exponent with
  | none, none =>
    if left = 0 then integerFound n.negative significand
    else (Binary64.ofDecimal significand left).map (.fraction n.negative)
  | fraction, exponent =>
    let fraction := fraction.getD []
    let (significand, unread) := takeDigits significandLimit significand fraction
    let shift : Int := (left : Int) - (fraction.length - unread : Nat)
    match exponent with
    | none => (Binary64.ofDecimal significand shift).map (.fraction n.negative)
    | some (below, digits) =>
      let (power, unread) := takeDigits exponentLimit 0 digits
      if unread > 0 then
        if significand ≠ 0 ∧ !below then none else some (.fraction n.negative .zero)
      else
        let exponent := if below then shift - power else shift + power
        (Binary64.ofDecimal significand exponent).map (.fraction n.negative)

end NumberText

/-- A number and what it is. -/
def Reader.number : Reader Found := do
  match (← numberText .truncated).found? with
  | some found => Pure.pure found
  | none => fail .malformed

end ShiftReduce.Json
