import Mathlib.Data.List.Forall2
import ShiftReduce.Proofs.Collection.LastValue
import ShiftReduce.Proofs.Json.Tree

/-!
# What JSON values mean

The values of the wanted types that a tree stands for. Strings and keys must be those of characters,
maps keep the last value of a repeated key, and a record is written as an object of its fields or as
the array of the first of them.
-/

namespace ShiftReduce.Json

variable {α : Type}

def MeansString (v : Tree) (s : String) : Prop :=
  v = .string (codeUnits s)

def MeansBoolean (v : Tree) (b : Bool) : Prop :=
  v = .boolean b

/-- An array means the list of what its elements mean. -/
def MeansList (Means : Tree → α → Prop) (v : Tree) (as : List α) : Prop :=
  ∃ vs, v = .array vs ∧ List.Forall₂ Means vs as

/-- A member whose key is the string. -/
def memberOf (entry : String × Tree) : List Nat × Tree :=
  (codeUnits entry.1, entry.2)

/-- An object all of whose keys are strings of characters. -/
def objectOf (entries : List (String × Tree)) : Tree :=
  .object (entries.map memberOf)

def MeansEntry (Means : Tree → α → Prop) (entry : String × Tree) (pair : String × α) : Prop :=
  entry.1 = pair.1 ∧ Means entry.2 pair.2

/-- An object means its entries in the order of its keys, each key with its last value. -/
def MeansMap (Means : Tree → α → Prop) (v : Tree) (pairs : List (String × α)) : Prop :=
  ∃ entries all, v = objectOf entries ∧ List.Forall₂ (MeansEntry Means) entries all ∧
    pairs = lastValues all

/-! ## Records -/

/-- A field of a record: its name, what its value must mean, and its default if it has one. -/
structure RecordField (α : Type) where
  name : String
  {Value : Type}
  Means : Tree → Value → Prop
  default : Option Value
  get : α → Value

/-- A value that is given means this one, and one that is left out has it as its default. -/
def MeansOr {β : Type} (Means : Tree → β → Prop) (default : Option β) : Option Tree → β → Prop
  | some v, value => Means v value
  | none, value => default = some value

/-- What is given for the field, if anything, is its value in the record. -/
def RecordField.Holds (f : RecordField α) (a : α) (given : Option Tree) : Prop :=
  MeansOr f.Means f.default given (f.get a)

/-- The trees given for named fields: by an object that has each name once at most among its keys,
whatever other keys it has, or by an array of values for the first of the fields. -/
inductive Gives (names : List String) : Tree → List (String × Tree) → Prop
  | object {entries : List (String × Tree)}
      (hnodup : ((entries.map Prod.fst).filter (· ∈ names)).Nodup) :
      Gives names (objectOf entries) entries
  | array {elements : List Tree} (hlength : elements.length ≤ names.length) :
      Gives names (.array elements) (names.zip elements)

/-- A tree means a record if it gives every field what the record has. -/
def MeansRecord (fields : List (RecordField α)) (v : Tree) (a : α) : Prop :=
  ∃ given, Gives (fields.map (·.name)) v given ∧ ∀ f ∈ fields, f.Holds a (given.lookup f.name)

end ShiftReduce.Json
