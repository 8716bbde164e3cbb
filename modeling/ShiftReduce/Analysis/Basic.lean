import ShiftReduce.Analysis.Follow

/-!
# The sets of a grammar
-/

namespace ShiftReduce

structure Analysis where
  /-- The nullable nonterminals in the order in which they were found. -/
  nullables : Roster NonterminalId
  firsts : TerminalFamily
  follows : TerminalFamily

def Grammar.analysis (g : Grammar) : Analysis :=
  let nullables := g.nullables
  let firsts := g.firstsWith nullables
  { nullables, firsts, follows := g.followsWith nullables firsts }

end ShiftReduce
