import ShiftReduce.Collection.Roster
import ShiftReduce.Grammar.Basic
import ShiftReduce.Loop

/-!
# Nullable nonterminals

A nonterminal is nullable when one of its productions has nullable symbols only on its right-hand
side. Starting from any nonterminals, the productions are gone through in order until no pass adds a
nonterminal; additions go to the end of the roster.
-/

namespace ShiftReduce

def Symbol.isIn (nulls : Roster NonterminalId) : Symbol → Bool
  | .terminal _ => false
  | .nonterminal n => nulls.contains n

namespace Grammar

variable (g : Grammar)

/-- Adds the left-hand side of a production whose right-hand side is made of members. -/
def addNullable (nulls : Roster NonterminalId) (p : Production) : Roster NonterminalId :=
  if p.right.toList.all (·.isIn nulls) then nulls.add p.left else nulls

def nullablePass (nulls : Roster NonterminalId) : Roster NonterminalId :=
  g.productions.toList.foldl addNullable nulls

def nullableStep (nulls : Roster NonterminalId) : Loop.Step (Roster NonterminalId) :=
  let next := g.nullablePass nulls
  if next.size = nulls.size then .last nulls else .next next

/-- Every pass but the last adds the left-hand side of some production. -/
def nullableBound : Nat :=
  g.productions.size + 1

/-- The seed followed by all that becomes nullable when its members are taken as nullable. -/
def nullableClosure (seed : Roster NonterminalId) : Roster NonterminalId :=
  Loop.run g.nullableStep g.nullableBound seed

/-- Whether some production makes a nonterminal nullable that the seed does not have. -/
def hasNewNullable (seed : Roster NonterminalId) : Bool :=
  (g.nullablePass seed).size ≠ seed.size

def nullables : Roster NonterminalId :=
  g.nullableClosure ∅

end Grammar

end ShiftReduce
