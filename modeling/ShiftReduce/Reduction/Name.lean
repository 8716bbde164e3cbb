import ShiftReduce.Collection.Grouping
import ShiftReduce.Grammar.Basic

/-!
# Names of handlers and thunks

The plain name of a production joins the names of its symbols by underscores. Productions that
share a plain name are told apart by their place among all productions but the goal's.
-/

namespace ShiftReduce

namespace Grammar

variable (g : Grammar)

/-- `reduce_E_from_E_+_T` -/
def plainName (p : ProductionId) : String :=
  "reduce_" ++ (g.nonterminal (g.production p).left).name ++ "_from" ++
    String.join ((g.production p).right.toList.map fun x => "_" ++ g.symbolName x)

/-- The productions but the goal's. -/
def declaredIds : List ProductionId :=
  g.productionIds.tail

/-- The handler names of the productions but the goal's. -/
def handlerNames : Array String :=
  let plain := g.declaredIds.map g.plainName
  let counts := tally plain
  (plain.mapIdx fun i name =>
    if tallyOf counts name > 1 then name ++ "_" ++ i.repr else name).toArray

end Grammar

/-- The name of a production among names that leave out the goal's. -/
def nameIn (names : Array String) (p : ProductionId) : String :=
  names.getD (p.index - 1) ""

def thunkName (handler : String) : String :=
  handler ++ "__thunk"

end ShiftReduce
