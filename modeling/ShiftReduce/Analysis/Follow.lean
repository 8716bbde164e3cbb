import ShiftReduce.Analysis.First

/-!
# FOLLOW sets

FOLLOW of a nonterminal holds the terminals that can stand right behind it: the end of input behind
the goal, whatever can begin the symbols behind an occurrence, and where these may vanish, FOLLOW
of the left-hand side as well.
-/

namespace ShiftReduce

/-- Adds what the occurrences of nonterminals among the last symbols of a production contribute. -/
def addFollows (nulls : Roster NonterminalId) (firsts : TerminalFamily) (left : NonterminalId) :
    TerminalFamily → List Symbol → TerminalFamily
  | follows, [] => follows
  | follows, .terminal _ :: rest => addFollows nulls firsts left follows rest
  | follows, .nonterminal n :: rest =>
    let behind := firstOfSymbols nulls firsts rest
    let more := if rest.all (·.isIn nulls) then behind ∪ follows.get left else behind
    addFollows nulls firsts left (follows.add n more) rest

namespace Grammar

variable (g : Grammar) (nulls : Roster NonterminalId) (firsts : TerminalFamily)

def followPass (follows : TerminalFamily) : TerminalFamily :=
  g.productions.toList.foldl (fun f p => addFollows nulls firsts p.left f p.right.toList) follows

def followStep (follows : TerminalFamily) : Loop.Step TerminalFamily :=
  let next := g.followPass nulls firsts follows
  if next = follows then .last follows else .next next

/-- Every pass but the last adds a terminal, of the grammar or of some FIRST set, to some set. -/
def followBound : Nat :=
  g.nonterminals.size * (g.terminals.size + firsts.total) + 1

/-- Only the end of input behind the goal. -/
def followStart : TerminalFamily :=
  (TerminalFamily.empty g.nonterminals.size).add .goal (.singleton .endOfInput)

/-- FOLLOW of every nonterminal, given what is taken as nullable and as FIRST. -/
def followsWith : TerminalFamily :=
  Loop.run (g.followStep nulls firsts) (g.followBound firsts) g.followStart

end Grammar

end ShiftReduce
