import Std.Data.TreeSet
import ShiftReduce.Collection.Roster
import ShiftReduce.Grammar.Symbol

/-!
# Vocabularies

The names of a grammar's symbols by number. Nonterminals are the goal and the declared names in
order of declaration; terminals are the end of input and, in ascending order, every other name that
right-hand sides mention.
-/

namespace ShiftReduce

structure Vocabulary where
  nonterminals : Roster String
  terminals : Roster String

namespace Vocabulary

def nonterminalsOf (declared : List String) : Roster String :=
  Roster.ofList (goalName :: declared)

/-- Names compare by code point, so ascending order is that of their encoded bytes too. -/
def terminalsOf (nonterminals : Roster String) (mentioned : List String) : Roster String :=
  Roster.ofList (endOfInputName ::
    (Std.TreeSet.ofList (mentioned.filter fun name => !nonterminals.contains name)).toList)

/-- The symbol that a right-hand side means by a name. -/
def resolve (v : Vocabulary) (name : String) : Symbol :=
  match v.nonterminals.idx? name with
  | some i => .nonterminal ⟨i⟩
  | none => .terminal ⟨(v.terminals.idx? name).getD 0⟩

end Vocabulary

end ShiftReduce
