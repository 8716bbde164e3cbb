import ShiftReduce.Analysis.Nullable
import ShiftReduce.Analysis.TerminalFamily

/-!
# FIRST sets

FIRST of a nonterminal holds the terminals that can begin what it derives. A right-hand side is
scanned from the left, past nullable nonterminals, up to the first symbol that is none.
-/

namespace ShiftReduce

/-- The terminals that can begin what the symbols derive, given FIRST of the nonterminals. -/
def firstOfSymbols (nulls : Roster NonterminalId) (firsts : TerminalFamily) :
    List Symbol → TerminalSet
  | [] => ∅
  | .terminal t :: _ => .singleton t
  | .nonterminal n :: rest =>
    if nulls.contains n then firsts.get n ∪ firstOfSymbols nulls firsts rest else firsts.get n

namespace Grammar

variable (g : Grammar) (nulls : Roster NonterminalId)

def firstPass (firsts : TerminalFamily) : TerminalFamily :=
  g.productions.toList.foldl
    (fun f p => f.add p.left (firstOfSymbols nulls f p.right.toList)) firsts

def firstStep (firsts : TerminalFamily) : Loop.Step TerminalFamily :=
  let next := g.firstPass nulls firsts
  if next = firsts then .last firsts else .next next

/-- Every pass but the last adds a terminal to the set of some nonterminal. -/
def firstBound : Nat :=
  g.nonterminals.size * g.terminals.size + 1

/-- FIRST of every nonterminal when those in `nulls` are taken as the nullable ones. -/
def firstsWith : TerminalFamily :=
  Loop.run (g.firstStep nulls) g.firstBound (.empty g.nonterminals.size)

end Grammar

end ShiftReduce
