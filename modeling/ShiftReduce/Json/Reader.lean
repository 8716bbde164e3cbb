import ShiftReduce.Json.DecodeError

/-!
# Readers

A reader takes something from the front of a text and leaves the rest, or says what is wrong. No
reader leaves more than it was given, which is what ends the loops over elements and members.
-/

namespace ShiftReduce.Json

structure Reader (α : Type) where
  read : List Char → Except DecodeError (α × List Char)
  length_le : ∀ {text : List Char} {value : α} {rest : List Char},
    read text = .ok (value, rest) → rest.length ≤ text.length

namespace Reader

variable {α β : Type}

def pure (value : α) : Reader α where
  read text := .ok (value, text)
  length_le h := by cases h; exact Nat.le_refl _

def fail (error : DecodeError) : Reader α where
  read _ := .error error
  length_le h := by cases h

def bind (reader : Reader α) (next : α → Reader β) : Reader β where
  read text :=
    match reader.read text with
    | .error error => .error error
    | .ok (value, rest) => (next value).read rest
  length_le := by
    intro text value rest h
    split at h
    next => cases h
    next first between hfirst =>
      exact Nat.le_trans ((next first).length_le h) (reader.length_le hfirst)

instance : Monad Reader where
  pure := pure
  bind := bind

theorem read_pure (value : α) (text : List Char) :
    (Pure.pure value : Reader α).read text = .ok (value, text) := rfl

theorem read_bind (reader : Reader α) (next : α → Reader β) (text : List Char) :
    (reader >>= next).read text =
      match reader.read text with
      | .error error => .error error
      | .ok (value, rest) => (next value).read rest := rfl

/-- Blanks between the parts of a text. -/
def isBlank (c : Char) : Bool :=
  c == ' ' || c == '\t' || c == '\n' || c == '\r'

def skipBlanks : Reader Unit where
  read text := .ok ((), text.dropWhile isBlank)
  length_le h := by
    cases h
    exact (List.dropWhile_suffix _).length_le

/-- The first character, left where it is. -/
def peek : Reader (Option Char) where
  read text := .ok (text.head?, text)
  length_le h := by cases h; exact Nat.le_refl _

/-- Drops the first character. -/
def skip : Reader Unit where
  read text := .ok ((), text.tail)
  length_le h := by
    cases h
    simp

/-- Takes the first character. -/
def next : Reader Char where
  read
    | [] => .error .truncated
    | c :: rest => .ok (c, rest)
  length_le := by
    intro text value rest h
    cases text with
    | nil => cases h
    | cons c text => cases h; simp

/-- Takes one given character. -/
def expect (c : Char) : Reader Unit := do
  if (← next) ≠ c then fail .malformed

/-- Takes the given characters one after the other. -/
def expectAll : List Char → Reader Unit
  | [] => pure ()
  | c :: rest => do
    expect c
    expectAll rest

/-- Takes the longest run of characters of a class. -/
def takeWhile (p : Char → Bool) : Reader (List Char) where
  read text := .ok (text.takeWhile p, text.dropWhile p)
  length_le h := by
    cases h
    exact (List.dropWhile_suffix _).length_le

/-- The reader that reads a whole text. -/
def run (reader : Reader α) (text : List Char) : Except DecodeError α :=
  match reader.read text with
  | .error error => .error error
  | .ok (value, rest) => if rest.all isBlank then .ok value else .error .malformed

end Reader

end ShiftReduce.Json
