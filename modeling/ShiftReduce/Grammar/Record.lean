import ShiftReduce.Grammar.Build

/-!
# Grammar records

The description of a grammar as one record. Its declarations are those of the nonterminals with
their rules, then the start symbol, the priorities, the result types, and the settings.
-/

namespace ShiftReduce

structure GrammarRecord where
  /-- The nonterminals, each with its rules. -/
  rules : List (String × List Rule)
  start : String
  priorities : List String := []
  resultTypes : List (String × String) := []
  headerExtras : List String := []
  verbose : Bool := false
  parserName : String := ""
deriving DecidableEq, Inhabited

namespace GrammarRecord

def ruleDeclarations (entry : String × List Rule) : List Declaration :=
  .nonterminal entry.1 :: entry.2.map fun rule => .rule entry.1 rule.right rule.action

def declarations (r : GrammarRecord) : List Declaration :=
  r.rules.flatMap ruleDeclarations ++
  [.start r.start] ++
  r.priorities.map .priority ++
  r.resultTypes.map (fun (nonterminal, type) => .resultType nonterminal type) ++
  r.headerExtras.map .headerExtra ++
  [.verbose r.verbose, .parserName r.parserName]

def toGrammar (r : GrammarRecord) : Except GrammarError Grammar :=
  Grammar.ofDeclarations r.declarations

end GrammarRecord

end ShiftReduce
