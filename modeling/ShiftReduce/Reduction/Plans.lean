import ShiftReduce.Automaton.Basic
import ShiftReduce.Reduction.Handler
import ShiftReduce.Reduction.Thunk

/-!
# Reduction plans

The handlers and thunks of all productions that are complete in some state, by name.
-/

namespace ShiftReduce

structure Plans where
  /-- The handler name of every production but the goal's. -/
  names : Array String
  handlers : List Handler
  thunks : List Thunk

namespace Plans

def handlerName (plans : Plans) (p : ProductionId) : String :=
  nameIn plans.names p

/-- The name of the thunk that reduces by a production. -/
def thunkName (plans : Plans) (p : ProductionId) : String :=
  ShiftReduce.thunkName (plans.handlerName p)

end Plans

/-- The productions but the goal's that some state can reduce, in the order in which they are
met. -/
def Automaton.reductions (g : Grammar) (a : Automaton) : List ProductionId :=
  let items := a.states.toList.flatMap State.items
  let complete := items.filter fun item => item.production ≠ .goal && item.isComplete g
  distinct (complete.map Item.production)

def Grammar.plans (g : Grammar) (a : Automaton) : Plans :=
  let names := g.handlerNames
  let named := (a.reductions g).map fun p => (p, nameIn names p)
  { names
    handlers := sortByName Handler.name (named.filterMap fun (p, name) => g.handler? p name)
    thunks := sortByName Thunk.name (named.map fun (p, name) => g.thunk p name) }

end ShiftReduce
