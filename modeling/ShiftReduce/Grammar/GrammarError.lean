/-!
# What can be wrong with a grammar
-/

namespace ShiftReduce

inductive GrammarError where
  /-- The name of the goal was declared as a nonterminal or as the start symbol. -/
  | reservedName (name : String)
  | missingStartRules (name : String)
  | missingStartType (name : String)
  /-- No start symbol was given and no nonterminal declared that could stand in. -/
  | noNonterminals
  | tooManyNonterminals
  | tooManyTerminals
  | tooManyProductions
  | tooManySymbols (left : String) (count : Nat)
deriving DecidableEq

/-- The wording of an error. -/
def GrammarError.message : GrammarError → String
  | reservedName name => "the nonterminal name `" ++ name ++ "' is reserved"
  | missingStartRules name => "the start symbol `" ++ name ++ "' has no productions"
  | missingStartType name => "no type associated with the start symbol `" ++ name ++ "'"
  | noNonterminals => "Other error: empty nonterminal symbols"
  | tooManyNonterminals => "Other error: too many nonterminals in the grammar"
  | tooManyTerminals => "Other error: too many terminals in the grammar"
  | tooManyProductions => "Other error: too many productions in the grammar"
  | tooManySymbols left count =>
    "Other error: a production of `" ++ left ++ "' has too many symbols (" ++ count.repr ++ ")"

end ShiftReduce
