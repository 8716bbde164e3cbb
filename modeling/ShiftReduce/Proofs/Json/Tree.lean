/-!
# The grammar of JSON texts

What a JSON text says, as a tree, and which texts say it. A string is known by its UTF-16 code
units, which is all that its escapes determine: a surrogate may lack its partner, and then the
string denotes no characters. A number is known by its text.
-/

namespace ShiftReduce.Json

inductive Tree where
  | null
  | boolean (value : Bool)
  | number (text : List Char)
  | string (units : List Nat)
  | array (elements : List Tree)
  | object (members : List (List Nat × Tree))

/-- Induction on trees, through the elements of an array and the values of an object. -/
@[elab_as_elim]
theorem Tree.induction {motive : Tree → Prop} (null : motive .null)
    (boolean : ∀ b, motive (.boolean b)) (number : ∀ digits, motive (.number digits))
    (string : ∀ units, motive (.string units))
    (array : ∀ elements, (∀ v ∈ elements, motive v) → motive (.array elements))
    (object : ∀ members, (∀ m ∈ members, motive m.2) → motive (.object members))
    (v : Tree) : motive v := by
  match v with
  | .null => exact null
  | .boolean b => exact boolean b
  | .number digits => exact number digits
  | .string units => exact string units
  | .array elements =>
    exact array elements fun v hv => induction null boolean number string array object v
  | .object members =>
    exact object members fun m hm => induction null boolean number string array object m.2
termination_by sizeOf v
decreasing_by
  · have hlt := List.sizeOf_lt_of_mem hv
    rw [Tree.array.sizeOf_spec]
    omega
  · have hlt := List.sizeOf_lt_of_mem hm
    have hmember : sizeOf m.2 < sizeOf m := by
      cases m
      rw [Prod.mk.sizeOf_spec]
      exact Nat.lt_add_of_pos_left (by omega)
    rw [Tree.object.sizeOf_spec]
    omega

/-- The UTF-16 code units of a character, two surrogates if it takes more than 16 bits. -/
def unitsOf (c : Char) : List Nat :=
  if c.toNat < 0x10000 then [c.toNat]
  else [0xD800 + (c.toNat - 0x10000) / 0x400, 0xDC00 + (c.toNat - 0x10000) % 0x400]

def codeUnits (s : String) : List Nat :=
  s.toList.flatMap unitsOf

def Blanks (text : List Char) : Prop :=
  ∀ c ∈ text, c = ' ' ∨ c = '\t' ∨ c = '\n' ∨ c = '\r'

/-- A letter behind a backslash, and the character that the two stand for. -/
inductive SimpleEscape : Char → Char → Prop
  | quote : SimpleEscape '"' '"'
  | backslash : SimpleEscape '\\' '\\'
  | slash : SimpleEscape '/' '/'
  | backspace : SimpleEscape 'b' '\x08'
  | formFeed : SimpleEscape 'f' '\x0c'
  | lineFeed : SimpleEscape 'n' '\n'
  | carriageReturn : SimpleEscape 'r' '\r'
  | tab : SimpleEscape 't' '\t'

def HexDigit (c : Char) (digit : Nat) : Prop :=
  "0123456789abcdef".toList[digit]? = some c ∨ "0123456789ABCDEF".toList[digit]? = some c

/-- Four hexadecimal digits and their value. -/
inductive HexNumber : List Char → Nat → Prop
  | mk {a b c d : Char} {i j k l : Nat} (ha : HexDigit a i) (hb : HexDigit b j)
      (hc : HexDigit c k) (hd : HexDigit d l) :
      HexNumber [a, b, c, d] (16 * (16 * (16 * i + j) + k) + l)

/-- The text between the quotes of a string with the given code units. -/
inductive Spells : List Nat → List Char → Prop
  | nil : Spells [] []
  | plain {c : Char} {units : List Nat} {text : List Char} (hcontrol : ' ' ≤ c) (hquote : c ≠ '"')
      (hescape : c ≠ '\\') (hrest : Spells units text) : Spells (unitsOf c ++ units) (c :: text)
  | simple {letter c : Char} {units : List Nat} {text : List Char}
      (hletter : SimpleEscape letter c) (hrest : Spells units text) :
      Spells (unitsOf c ++ units) ('\\' :: letter :: text)
  | unicode {digits : List Char} {unit : Nat} {units : List Nat} {text : List Char}
      (hdigits : HexNumber digits unit) (hrest : Spells units text) :
      Spells (unit :: units) ('\\' :: 'u' :: (digits ++ text))

structure Digits (text : List Char) : Prop where
  ne_nil : text ≠ []
  isDigit : ∀ c ∈ text, c.isDigit = true

inductive Fraction : List Char → Prop
  | absent : Fraction []
  | present {digits : List Char} (hdigits : Digits digits) : Fraction ('.' :: digits)

inductive Exponent : List Char → Prop
  | absent : Exponent []
  | present {mark : Char} {sign digits : List Char} (hmark : mark = 'e' ∨ mark = 'E')
      (hsign : sign = [] ∨ sign = ['+'] ∨ sign = ['-']) (hdigits : Digits digits) :
      Exponent (mark :: (sign ++ digits))

/-- The text of a number. Only a zero alone begins with a zero before the point. -/
inductive Number : List Char → Prop
  | mk {sign whole fraction exponent : List Char} (hsign : sign = [] ∨ sign = ['-'])
      (hwhole : Digits whole) (hzero : whole.head? = some '0' → whole = ['0'])
      (hfraction : Fraction fraction) (hexponent : Exponent exponent) :
      Number (sign ++ (whole ++ (fraction ++ exponent)))

section Lists

universe u

variable {α : Type u}

/-- What stands behind an item up to the closing bracket: blanks, and further items behind
commas. -/
inductive More (Item : α → List Char → Prop) : List α → List Char → Prop
  | nil {blanks : List Char} (hblanks : Blanks blanks) : More Item [] blanks
  | cons {x : α} {xs : List α} {blanks text rest : List Char} (hblanks : Blanks blanks)
      (hitem : Item x text) (hmore : More Item xs rest) :
      More Item (x :: xs) (blanks ++ ',' :: (text ++ rest))

/-- What stands between two brackets: blanks only, or items with commas between them. -/
inductive Listed (Item : α → List Char → Prop) : List α → List Char → Prop
  | nil {blanks : List Char} (hblanks : Blanks blanks) : Listed Item [] blanks
  | cons {x : α} {xs : List α} {text rest : List Char} (hitem : Item x text)
      (hmore : More Item xs rest) : Listed Item (x :: xs) (text ++ rest)

end Lists

/-- A value behind blanks. -/
inductive Element (Writes : Tree → List Char → Prop) : Tree → List Char → Prop
  | mk {blanks text : List Char} {v : Tree} (hblanks : Blanks blanks) (hvalue : Writes v text) :
      Element Writes v (blanks ++ text)

/-- A key in quotes behind blanks, and a value behind a colon. -/
inductive Member (Writes : Tree → List Char → Prop) : List Nat × Tree → List Char → Prop
  | mk {units : List Nat} {v : Tree} {blanks key between text : List Char} (hblanks : Blanks blanks)
      (hkey : Spells units key) (hbetween : Blanks between) (hvalue : Element Writes v text) :
      Member Writes (units, v) (blanks ++ '"' :: (key ++ '"' :: (between ++ ':' :: text)))

/-- The text writes the value, without blanks around it. -/
inductive Writes : Tree → List Char → Prop
  | null : Writes .null ['n', 'u', 'l', 'l']
  | true : Writes (.boolean true) ['t', 'r', 'u', 'e']
  | false : Writes (.boolean false) ['f', 'a', 'l', 's', 'e']
  | number {text : List Char} (hnumber : Number text) : Writes (.number text) text
  | string {units : List Nat} {body : List Char} (hbody : Spells units body) :
      Writes (.string units) ('"' :: (body ++ ['"']))
  | array {elements : List Tree} {text : List Char}
      (helements : Listed (Element Writes) elements text) :
      Writes (.array elements) ('[' :: (text ++ [']']))
  | object {members : List (List Nat × Tree)} {text : List Char}
      (hmembers : Listed (Member Writes) members text) :
      Writes (.object members) ('\x7b' :: (text ++ ['\x7d']))

/-- The whole text is one value, with blanks around it. -/
def IsTextOf (text : List Char) (v : Tree) : Prop :=
  ∃ before body after, text = before ++ (body ++ after) ∧ Blanks before ∧ Writes v body ∧
    Blanks after

end ShiftReduce.Json
