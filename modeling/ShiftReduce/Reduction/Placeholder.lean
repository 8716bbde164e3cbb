/-!
# Placeholders in semantic actions

In an action `$$` stands for the result and `$n` for the value of the n-th symbol. They are replaced
by argument names in one pass from the left, so a `$` left over from a pair begins an argument.
-/

namespace ShiftReduce

/-- Whether `part` stands somewhere in the text. -/
def occursIn (part : List Char) : List Char → Bool
  | [] => part.isEmpty
  | c :: rest => part.isPrefixOf (c :: rest) || occursIn part rest

namespace Placeholder

def argumentName : List Char := "_parserArg".toList

def resultName : List Char := "_parserArg0".toList

def expandChars : List Char → List Char
  | '$' :: '$' :: rest => resultName ++ expandChars rest
  | '$' :: rest => argumentName ++ expandChars rest
  | c :: rest => c :: expandChars rest
  | [] => []

/-- The action with its placeholders replaced. -/
def expand (action : String) : String :=
  String.ofList (expandChars action.toList)

/-- The name of an argument; arguments count from one. -/
def argument (index : Nat) : String :=
  String.ofList (argumentName ++ Nat.toDigits 10 index)

/-- Whether an expanded action mentions the argument with an index, be it as the beginning of a
longer name. -/
def mentions (body : String) (index : Nat) : Bool :=
  occursIn (argument index).toList body.toList

end Placeholder

end ShiftReduce
