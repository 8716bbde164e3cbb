import ShiftReduce.Automaton.Printer
import ShiftReduce.Grammar.Printer
import ShiftReduce.Table.Action

/-!
# The text of a table
-/

namespace ShiftReduce

def Action.text (g : Grammar) : Action → String
  | shift target => "shift(" ++ stateText target ++ ")"
  | reduce p => "reduce(" ++ g.productionText p ++ ")"
  | accept => "accept"

def Row.text (g : Grammar) (row : Row) : String :=
  unlines (row.actions.map fun (x, action) => "- " ++ g.symbolName x ++ " => " ++ action.text g)

/-- The rows by state, with an empty line between them. -/
def ParseTable.text (g : Grammar) (table : ParseTable) : String :=
  "\n".intercalate (table.rows.toList.mapIdx fun id row => stateHeading id ++ row.text g)

end ShiftReduce
