import ShiftReduce.Collection.OrderedMap
import ShiftReduce.Json.Skip

/-!
# Reading values of a wanted type

A scalar is read in full before its type is looked at, a sequence or map only up to its opening
bracket. Reading goes on from left to right, so the first problem in the text is the one reported.
-/

namespace ShiftReduce.Json.Reader

variable {α σ : Type}

def mismatch (cause : Mismatch) : Reader α :=
  fail (.mismatch cause)

/-- What stands in front. The bracket of a sequence or map is left where it is. -/
def found : Reader Found := do
  match ← peek with
  | none => fail .truncated
  | some c =>
    if c = 'n' then expectAll nullLiteral; return .null
    else if c = 't' then expectAll trueLiteral; return .boolean true
    else if c = 'f' then expectAll falseLiteral; return .boolean false
    else if c = '"' then return .string (← quotedString unicodeEscape)
    else if c = '[' then return .sequence
    else if c = '\x7b' then return .map
    else if startsNumber c then number
    else fail .malformed

def string : Reader String := do
  skipBlanks
  match ← found with
  | .string value => return value
  | other => mismatch (.wrongType other .string)

def boolean : Reader Bool := do
  skipBlanks
  match ← found with
  | .boolean value => return value
  | other => mismatch (.wrongType other .boolean)

/-! ## Sequences -/

/-- The element behind a comma. -/
def elementAfterComma (element : Reader α) : Reader α := do
  skipBlanks
  if (← peek) = some ']' then fail .malformed else element

/-- The elements behind those in `before`, up to the closing bracket. -/
def readElements (element : Reader α) (before : Array α) (text : List Char) :
    Except DecodeError (List α × List Char) :=
  match _h : text.dropWhile isBlank with
  | [] => .error .truncated
  | c :: rest =>
    if c = ']' then .ok (before.toList, rest)
    else if c = ',' then
      match _helement : (elementAfterComma element).read rest with
      | .error error => .error error
      | .ok (value, rest') => readElements element (before.push value) rest'
    else .error .malformed
termination_by text.length
decreasing_by
  have h := length_lt_of_dropWhile _h
  have helement := (elementAfterComma element).length_le _helement
  omega

theorem length_readElements_le {element : Reader α} {before : Array α} {text rest : List Char}
    {values : List α} (h : readElements element before text = .ok (values, rest)) :
    rest.length ≤ text.length := by
  fun_induction readElements element before text with
  | case1 | case3 | case5 => cases h
  | case2 before text tail hclose =>
    cases h
    exact Nat.le_of_lt (length_lt_of_dropWhile hclose)
  | case4 before text tail value rest' helement hcomma _ ih =>
    have hfirst := length_lt_of_dropWhile hcomma
    have hread := (elementAfterComma element).length_le helement
    have hlater := ih h
    omega

def moreElements (element : Reader α) (first : α) : Reader (List α) where
  read := readElements element #[first]
  length_le := length_readElements_le

/-- A sequence whose elements are all of one type. -/
def sequenceOf (element : Reader α) : Reader (List α) := do
  skipBlanks
  match ← found with
  | .sequence =>
    skip
    skipBlanks
    if (← peek) = some ']' then
      skip
      return []
    else moreElements element (← element)
  | other => mismatch (.wrongType other .sequence)

/-- Whether the sequence goes on with another element; its end is left where it is. -/
def hasElement (first : Bool) : Reader Bool := do
  skipBlanks
  match ← peek with
  | none => fail .truncated
  | some c =>
    if c = ']' then return false
    else if first then return true
    else
      expect ','
      skipBlanks
      match ← peek with
      | none => fail .truncated
      | some d => if d = ']' then fail .malformed else return true

/-! ## Maps -/

def colon : Reader Unit := do
  skipBlanks
  expect ':'

/-- A key, and what `member` makes of it and of the text behind it. -/
def memberWith (member : σ → String → Reader σ) (state : σ) : Reader σ := do
  skipBlanks
  member state (← quotedString unicodeEscape)

/-- The members that are left of a map, each changing the state, up to the closing bracket. -/
def readMembers (member : σ → String → Reader σ) (state : σ) (text : List Char) :
    Except DecodeError (σ × List Char) :=
  match _h : text.dropWhile isBlank with
  | [] => .error .truncated
  | c :: rest =>
    if c = '\x7d' then .ok (state, rest)
    else if c = ',' then
      match _hmember : (memberWith member state).read rest with
      | .error error => .error error
      | .ok (state', rest') => readMembers member state' rest'
    else .error .malformed
termination_by text.length
decreasing_by
  have h := length_lt_of_dropWhile _h
  have hmember := (memberWith member state).length_le _hmember
  omega

theorem length_readMembers_le {member : σ → String → Reader σ} {state final : σ}
    {text rest : List Char} (h : readMembers member state text = .ok (final, rest)) :
    rest.length ≤ text.length := by
  fun_induction readMembers member state text with
  | case1 | case3 | case5 => cases h
  | case2 state text tail hclose =>
    cases h
    exact Nat.le_of_lt (length_lt_of_dropWhile hclose)
  | case4 state text tail state' rest' hmember hcomma _ ih =>
    have hfirst := length_lt_of_dropWhile hcomma
    have hread := (memberWith member state).length_le hmember
    have hlater := ih h
    omega

def moreMembers (member : σ → String → Reader σ) (state : σ) : Reader σ where
  read := readMembers member state
  length_le := length_readMembers_le

/-- The members of a map, from behind its opening bracket. -/
def members (member : σ → String → Reader σ) (start : σ) : Reader σ := do
  skipBlanks
  if (← peek) = some '\x7d' then
    skip
    return start
  else moreMembers member (← memberWith member start)

/-- A map whose values are all of one type. A repeated key takes its last value at its first
place. -/
def mapOf (value : Reader α) : Reader (OrderedMap String α) := do
  skipBlanks
  match ← found with
  | .map =>
    skip
    members (fun entries key => do
      colon
      return entries.insert key (← value)) ∅
  | other => mismatch (.wrongType other .map)

/-! ## Records -/

/-- How a record is read: as a sequence of its fields or as a map from their names. -/
structure RecordReader (α σ : Type) where
  name : String
  fields : Nat
  /-- Reads all fields of a sequence, from behind its opening bracket. -/
  ofSequence : Reader α
  start : σ
  member : σ → String → Reader σ
  /-- Makes a record of what the members have set. -/
  finish : σ → Reader α

def record (r : RecordReader α σ) : Reader α := do
  skipBlanks
  match ← found with
  | .sequence =>
    skip
    let value ← r.ofSequence
    skipBlanks
    expect ']'
    return value
  | .map =>
    skip
    r.finish (← members r.member r.start)
  | other => mismatch (.wrongType other (.record r.name r.fields))

/-- The field of a sequence at a place, which must be there. -/
def requiredElement (name : String) (fields place : Nat) (value : Reader α) : Reader α := do
  if ← hasElement (place == 0) then value else mismatch (.tooShort place name fields)

/-- The next field of a sequence, or its default behind the last one. -/
def optionalElement (default : α) (value : Reader α) : Reader α := do
  if ← hasElement false then value else return default

/-- The value of a member whose key has just been read for the field `name`. -/
def field (name : String) (earlier : Option α) (value : Reader α) : Reader (Option α) := do
  if earlier.isSome then mismatch (.duplicateField name)
  else
    colon
    return some (← value)

def required (name : String) : Option α → Reader α
  | none => mismatch (.missingField name)
  | some value => return value

/-- A member that belongs to no field. -/
def unknownMember (state : σ) : Reader σ := do
  colon
  skipValue
  return state

end ShiftReduce.Json.Reader
