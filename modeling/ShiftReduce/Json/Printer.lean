import ShiftReduce.Json.Value

/-!
# Written JSON

The two layouts of a value: compact, without any blanks, and pretty, with every element and member
on a line of its own, indented by two blanks for each open bracket. Strings escape only quotes,
backslashes and the characters below the blank.
-/

namespace ShiftReduce.Json

def hexDigit (n : Nat) : Char :=
  Nat.digitChar (n % 16)

/-- One character of a written string. -/
def escapeChar (c : Char) : List Char :=
  if c = '"' then ['\\', '"']
  else if c = '\\' then ['\\', '\\']
  else if c = '\x08' then ['\\', 'b']
  else if c = '\x0c' then ['\\', 'f']
  else if c = '\n' then ['\\', 'n']
  else if c = '\r' then ['\\', 'r']
  else if c = '\t' then ['\\', 't']
  else if c < ' ' then ['\\', 'u', '0', '0', hexDigit (c.toNat / 16), hexDigit c.toNat]
  else [c]

def writeString (s : String) : List Char :=
  '"' :: s.toList.flatMap escapeChar ++ ['"']

/-- The parts with a separator between neighbours. -/
def separated (separator : List Char) : List (List Char) → List Char
  | [] => []
  | [part] => part
  | part :: rest => part ++ separator ++ separated separator rest

/-- How brackets, separators and colons are written at a depth of open brackets. -/
structure Layout where
  /-- What stands behind an opening bracket, and before a closing one at the depth outside. -/
  lineBreak : Nat → List Char
  colon : List Char

def Layout.compact : Layout where
  lineBreak _ := []
  colon := [':']

def Layout.pretty : Layout where
  lineBreak depth := '\n' :: List.replicate (2 * depth) ' '
  colon := [':', ' ']

/-- Parts between brackets; without parts the brackets stand side by side. -/
def Layout.bracketed (layout : Layout) (depth : Nat) (opening closing : Char)
    (parts : List (List Char)) : List Char :=
  match parts with
  | [] => [opening, closing]
  | parts =>
    let inner := layout.lineBreak (depth + 1)
    opening :: inner ++ separated (',' :: inner) parts ++ layout.lineBreak depth ++ [closing]

mutual

def write (layout : Layout) (depth : Nat) : Json → List Char
  | null => "null".toList
  | boolean true => "true".toList
  | boolean false => "false".toList
  | number n => Nat.toDigits 10 n
  | string s => writeString s
  | array elements => layout.bracketed depth '[' ']' (writeElements layout (depth + 1) elements)
  | object members => layout.bracketed depth '\x7b' '\x7d' (writeMembers layout (depth + 1) members)

def writeElements (layout : Layout) (depth : Nat) : List Json → List (List Char)
  | [] => []
  | element :: rest => write layout depth element :: writeElements layout depth rest

def writeMembers (layout : Layout) (depth : Nat) : List (String × Json) → List (List Char)
  | [] => []
  | (key, value) :: rest =>
    (writeString key ++ layout.colon ++ write layout depth value) ::
      writeMembers layout depth rest

end

def toText (layout : Layout) (value : Json) : String :=
  String.ofList (write layout 0 value)

end ShiftReduce.Json
