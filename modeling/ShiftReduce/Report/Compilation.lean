import ShiftReduce.Artifact.Json
import ShiftReduce.Report.Diagnostics
import ShiftReduce.Table.Printer

/-!
# Everything computed from a grammar
-/

namespace ShiftReduce

structure Compilation where
  automaton : Automaton
  table : ParseTable
  artifact : Artifact
  diagnostics : Diagnostics

def Grammar.compile (g : Grammar) : Compilation :=
  let analysis := g.analysis
  let automaton := g.automaton
  let tabulation := g.tabulate automaton analysis
  let plans := g.plans automaton
  { automaton
    table := tabulation.table
    artifact := g.artifact tabulation.table plans
    diagnostics := g.diagnostics analysis automaton tabulation.conflicts }

/-- Grammar, diagnostics, automaton and table, with an empty line between them. -/
def Compilation.report (result : Compilation) (g : Grammar) : String :=
  "\n".intercalate
    [g.text, result.diagnostics.text, result.automaton.text g, result.table.text g]

end ShiftReduce
