import ShiftReduce.Json.StringReader
import ShiftReduce.Json.NumberReader

/-!
# Skipping values

A value that nobody wants is passed over, however deeply it is nested. Only the brackets that are
still open are remembered; numbers are not valued and strings are not decoded.
-/

namespace ShiftReduce.Json

inductive Bracket where
  | array
  | object
deriving DecidableEq

def Bracket.closing : Bracket → Char
  | array => ']'
  | object => '\x7d'

/-- What stands next while a value is passed over. -/
inductive SkipPhase where
  | value
  /-- What follows a value: a comma or a closing bracket, or nothing if no bracket is open. -/
  | afterValue
deriving DecidableEq

def SkipPhase.weight : SkipPhase → Nat
  | value => 1
  | afterValue => 0

namespace Reader

def nullLiteral : List Char := ['n', 'u', 'l', 'l']

def trueLiteral : List Char := ['t', 'r', 'u', 'e']

def falseLiteral : List Char := ['f', 'a', 'l', 's', 'e']

/-- Whether a character can begin a number. -/
def startsNumber (c : Char) : Bool :=
  c == '-' || c.isDigit

/-- The opening quote, the body and the closing quote of a string. -/
def quotedString (unicode : Reader Char) : Reader String := do
  expect '"'
  stringBody unicode

def skipScalar : Reader Unit := do
  match ← peek with
  | none => fail .truncated
  | some c =>
    if c = 'n' then expectAll nullLiteral
    else if c = 't' then expectAll trueLiteral
    else if c = 'f' then expectAll falseLiteral
    else if c = '"' then discard (quotedString looseUnicodeEscape)
    else if startsNumber c then discard (numberText .malformed)
    else fail .malformed

/-- A key and the colon behind it. -/
def skipKey : Reader Unit := do
  skipBlanks
  discard (quotedString looseUnicodeEscape)
  skipBlanks
  expect ':'

theorem length_dropWhile_le (p : Char → Bool) (text : List Char) :
    (text.dropWhile p).length ≤ text.length :=
  (List.dropWhile_suffix p).length_le

theorem length_lt_of_dropWhile {p : Char → Bool} {text rest : List Char} {c : Char}
    (h : text.dropWhile p = c :: rest) : rest.length < text.length := by
  have hle := length_dropWhile_le p text
  rw [h, List.length_cons] at hle
  omega

/-- Passes over the values, commas and brackets that are left of a value with open brackets. -/
def skipFrom (phase : SkipPhase) (opened : List Bracket) (text : List Char) :
    Except DecodeError (List Char) :=
  match phase with
  | .value =>
    match _h : text.dropWhile isBlank with
    | [] => .error .truncated
    | c :: rest =>
      if c = '[' then
        match _hinner : rest.dropWhile isBlank with
        | [] => .error .truncated
        | d :: rest' =>
          if d = ']' then skipFrom .afterValue opened rest'
          else skipFrom .value (.array :: opened) rest
      else if c = '\x7b' then
        match _hinner : rest.dropWhile isBlank with
        | [] => .error .truncated
        | d :: rest' =>
          if d = '\x7d' then skipFrom .afterValue opened rest'
          else match _hkey : skipKey.read rest with
            | .error error => .error error
            | .ok (_, rest'') => skipFrom .value (.object :: opened) rest''
      else match _hscalar : skipScalar.read (c :: rest) with
        | .error error => .error error
        | .ok (_, rest') => skipFrom .afterValue opened rest'
  | .afterValue =>
    match opened with
    | [] => .ok text
    | bracket :: outer =>
      match _h : text.dropWhile isBlank with
      | [] => .error .truncated
      | c :: rest =>
        if c = bracket.closing then skipFrom .afterValue outer rest
        else if c = ',' then
          match bracket with
          | .array => skipFrom .value opened rest
          | .object =>
            match _hkey : skipKey.read rest with
            | .error error => .error error
            | .ok (_, rest') => skipFrom .value opened rest'
        else .error .malformed
termination_by (text.length, phase.weight)
decreasing_by
  · have h := length_lt_of_dropWhile _h
    have hinner := length_lt_of_dropWhile _hinner
    exact Prod.Lex.left _ _ (by omega)
  · exact Prod.Lex.left _ _ (length_lt_of_dropWhile _h)
  · have h := length_lt_of_dropWhile _h
    have hinner := length_lt_of_dropWhile _hinner
    exact Prod.Lex.left _ _ (by omega)
  · have h := length_lt_of_dropWhile _h
    have hkey := skipKey.length_le _hkey
    exact Prod.Lex.left _ _ (by omega)
  · have h := length_lt_of_dropWhile _h
    have hscalar := skipScalar.length_le _hscalar
    rw [List.length_cons] at hscalar
    rcases Nat.lt_or_ge rest'.length text.length with hlt | hge
    · exact Prod.Lex.left _ _ hlt
    · have heq : rest'.length = text.length := by omega
      rw [heq]
      exact Prod.Lex.right _ (by decide)
  · exact Prod.Lex.left _ _ (length_lt_of_dropWhile _h)
  · exact Prod.Lex.left _ _ (length_lt_of_dropWhile _h)
  · have h := length_lt_of_dropWhile _h
    have hkey := skipKey.length_le _hkey
    exact Prod.Lex.left _ _ (by omega)

theorem length_skipFrom_le {phase : SkipPhase} {opened : List Bracket} {text rest : List Char}
    (h : skipFrom phase opened text = .ok rest) : rest.length ≤ text.length := by
  fun_induction skipFrom phase opened text with
  | case1 | case2 | case5 | case7 | case9 | case12 | case15 | case17 => cases h
  | case3 opened text tail later hopen hclose ih | case6 opened text tail later hopen _ hclose ih =>
    have hfirst := length_lt_of_dropWhile hopen
    have hsecond := length_lt_of_dropWhile hclose
    have hlater := ih h
    omega
  | case4 opened text tail d later hinner _ hopen ih =>
    have hfirst := length_lt_of_dropWhile hopen
    have hlater := ih h
    omega
  | case8 opened text tail d later hinner _ _ rest' hkey hopen _ ih =>
    have hfirst := length_lt_of_dropWhile hopen
    have hread := skipKey.length_le hkey
    have hlater := ih h
    omega
  | case10 opened text c tail hfront _ _ _ rest' hscalar ih =>
    have hfirst := length_lt_of_dropWhile hfront
    have hread := skipScalar.length_le hscalar
    rw [List.length_cons] at hread
    have hlater := ih h
    omega
  | case11 =>
    cases h
    exact Nat.le_refl _
  | case13 text bracket outer tail hclose ih =>
    have hfirst := length_lt_of_dropWhile hclose
    have hlater := ih h
    omega
  | case14 text outer tail hcomma _ ih =>
    have hfirst := length_lt_of_dropWhile hcomma
    have hlater := ih h
    omega
  | case16 text outer tail _ rest' hkey hcomma _ ih =>
    have hfirst := length_lt_of_dropWhile hcomma
    have hread := skipKey.length_le hkey
    have hlater := ih h
    omega

/-- Passes over one value. -/
def skipValue : Reader Unit where
  read text :=
    match skipFrom .value [] text with
    | .error error => .error error
    | .ok rest => .ok ((), rest)
  length_le := by
    intro text value rest h
    split at h
    next => cases h
    next rest' hskip =>
      cases h
      exact length_skipFrom_le hskip

end Reader

end ShiftReduce.Json
