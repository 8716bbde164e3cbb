import ShiftReduce.Decimal.Layout
import ShiftReduce.Text.Quoted

/-!
# What can be wrong with a JSON text

A text can end too early, be malformed, or hold something else than is wanted. Only the last kind
says what was found and what was wanted.
-/

namespace ShiftReduce.Json

/-- What a text holds where something else is wanted. -/
inductive Found where
  | null
  | boolean (value : Bool)
  | integer (value : Int)
  | fraction (negative : Bool) (magnitude : Binary64)
  | string (value : String)
  | sequence
  | map
deriving DecidableEq

inductive Wanted where
  | string
  | boolean
  | sequence
  | map
  /-- A record, which is written as a map or as the sequence of its `fields` fields. -/
  | record (name : String) (fields : Nat)
deriving DecidableEq

inductive Mismatch where
  | wrongType (found : Found) (wanted : Wanted)
  | duplicateField (name : String)
  | missingField (name : String)
  /-- A record was written as a sequence that ends before a required field. -/
  | tooShort (length : Nat) (name : String) (fields : Nat)
deriving DecidableEq

inductive DecodeError where
  | truncated
  | malformed
  | mismatch (cause : Mismatch)
deriving DecidableEq

/-- Positional up to sixteen digits before the point and four zeros behind it. -/
def fractionLayout : DecimalLayout := ⟨16, 4⟩

def fractionText (negative : Bool) (magnitude : Binary64) : String :=
  let digits :=
    if magnitude.mantissa = 0 then ['0', '.', '0'] else fractionLayout.write magnitude.shortest
  String.ofList (if negative then '-' :: digits else digits)

def integerText (value : Int) : String :=
  if value < 0 then "-" ++ value.natAbs.repr else value.natAbs.repr

namespace Found

def text : Found → String
  | null => "null"
  | boolean true => "boolean `true`"
  | boolean false => "boolean `false`"
  | integer value => "integer `" ++ integerText value ++ "`"
  | fraction negative magnitude => "floating point `" ++ fractionText negative magnitude ++ "`"
  | string value => "string " ++ Text.quoted value
  | sequence => "sequence"
  | map => "map"

end Found

namespace Wanted

def text : Wanted → String
  | string => "a string"
  | boolean => "a boolean"
  | sequence => "a sequence"
  | map => "a map"
  | record name _ => "struct " ++ name

end Wanted

namespace Mismatch

def message : Mismatch → String
  | wrongType found wanted => "invalid type: " ++ found.text ++ ", expected " ++ wanted.text
  | duplicateField name => "duplicate field `" ++ name ++ "`"
  | missingField name => "missing field `" ++ name ++ "`"
  | tooShort length name fields =>
    "invalid length " ++ length.repr ++ ", expected struct " ++ name ++ " with " ++ fields.repr ++
      " elements"

end Mismatch

namespace DecodeError

def message : DecodeError → String
  | truncated => "the text ends too early"
  | malformed => "the text is malformed"
  | mismatch cause => cause.message

end DecodeError

end ShiftReduce.Json
