import ShiftReduce.Json.Reader

/-!
# Reading strings

The body of a string, from behind its opening quote to its closing one. A decoded string must denote
characters, so its surrogate escapes come in pairs; a skipped one only has to be well-formed.
-/

namespace ShiftReduce.Json.Reader

def hexDigit? (c : Char) : Option Nat :=
  if '0' ≤ c ∧ c ≤ '9' then some (c.toNat - '0'.toNat)
  else if 'a' ≤ c ∧ c ≤ 'f' then some (c.toNat - 'a'.toNat + 10)
  else if 'A' ≤ c ∧ c ≤ 'F' then some (c.toNat - 'A'.toNat + 10)
  else none

def hexNumber? (digits : List Char) : Option Nat :=
  digits.foldlM (fun value c => (hexDigit? c).map (16 * value + ·)) 0

/-- Four hexadecimal digits. The text ends too early if it has not four bytes left. -/
def codeUnit : Reader Nat where
  read text :=
    if (text.take 4).foldl (fun size c => size + c.utf8Size) 0 < 4 then .error .truncated
    else if text.length < 4 then .error .malformed
    else match hexNumber? (text.take 4) with
      | none => .error .malformed
      | some value => .ok (value, text.drop 4)
  length_le := by
    intro text value rest h
    split at h
    · cases h
    · split at h
      · cases h
      · split at h
        · cases h
        · cases h
          simp

def isHighSurrogate (unit : Nat) : Bool :=
  0xD800 ≤ unit && unit ≤ 0xDBFF

def isLowSurrogate (unit : Nat) : Bool :=
  0xDC00 ≤ unit && unit ≤ 0xDFFF

def pairValue (high low : Nat) : Nat :=
  0x10000 + (high - 0xD800) * 0x400 + (low - 0xDC00)

/-- What follows `\u`: a code unit, or a pair of surrogates. -/
def unicodeEscape : Reader Char := do
  let unit ← codeUnit
  if isLowSurrogate unit then fail .malformed
  else if isHighSurrogate unit then
    expect '\\'
    expect 'u'
    let low ← codeUnit
    if isLowSurrogate low then Pure.pure (Char.ofNat (pairValue unit low)) else fail .malformed
  else Pure.pure (Char.ofNat unit)

/-- What follows `\u` in a skipped string: any code unit. -/
def looseUnicodeEscape : Reader Char := do
  return Char.ofNat (← codeUnit)

/-- The character that a letter behind a backslash stands for. -/
def simpleEscape? : Char → Option Char
  | '"' => some '"'
  | '\\' => some '\\'
  | '/' => some '/'
  | 'b' => some '\x08'
  | 'f' => some '\x0c'
  | 'n' => some '\n'
  | 'r' => some '\r'
  | 't' => some '\t'
  | _ => none

/-- What follows a backslash. -/
def escape (unicode : Reader Char) : Reader Char := do
  let c ← next
  if c = 'u' then unicode
  else match simpleEscape? c with
    | some value => Pure.pure value
    | none => fail .malformed

/-- The characters up to the closing quote, behind those in `before`, which are in reverse. -/
def readCharacters (unicode : Reader Char) (before : List Char) (text : List Char) :
    Except DecodeError (String × List Char) :=
  match text with
  | [] => .error .truncated
  | c :: rest =>
    if c = '"' then .ok (String.ofList before.reverse, rest)
    else if c = '\\' then
      match _h : (escape unicode).read rest with
      | .error error => .error error
      | .ok (value, rest') => readCharacters unicode (value :: before) rest'
    else if c < ' ' then .error .malformed
    else readCharacters unicode (c :: before) rest
termination_by text.length
decreasing_by
  · have := (escape unicode).length_le _h
    simp only [List.length_cons]
    omega
  · simp

theorem length_readCharacters_le {unicode : Reader Char} {before text rest : List Char}
    {value : String} (h : readCharacters unicode before text = .ok (value, rest)) :
    rest.length ≤ text.length := by
  fun_induction readCharacters unicode before text with
  | case1 => cases h
  | case2 =>
    cases h
    simp
  | case3 => cases h
  | case4 before tail first tail' hread hquote ih =>
    have hfirst := (escape unicode).length_le hread
    have hlater := ih h
    simp only [List.length_cons]
    omega
  | case5 => cases h
  | case6 before c tail hquote hescape hcontrol ih =>
    have hlater := ih h
    simp only [List.length_cons]
    omega

/-- The body of a string whose `\u` escapes are read by `unicode`. -/
def stringBody (unicode : Reader Char) : Reader String where
  read := readCharacters unicode []
  length_le := length_readCharacters_le

end ShiftReduce.Json.Reader
