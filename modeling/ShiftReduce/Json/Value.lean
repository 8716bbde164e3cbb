/-!
# JSON values

The values that reports are made of. The only numbers are natural, and an object lists its members
in the order in which they are written.
-/

namespace ShiftReduce

inductive Json where
  | null
  | boolean (value : Bool)
  | number (value : Nat)
  | string (value : String)
  | array (elements : List Json)
  | object (members : List (String × Json))
deriving Inhabited

namespace Json

def strings (values : List String) : Json :=
  array (values.map string)

def optional (value : Option String) : Json :=
  match value with
  | none => null
  | some text => string text

end Json

end ShiftReduce
