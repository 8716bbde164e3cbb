import ShiftReduce.Automaton.Basic

/-!
# Actions and rows

What the parser does in a state on the symbol that comes next. A row has at most one slot for each
symbol, in the order in which the slots were first filled; a symbol without a slot is an error.
-/

namespace ShiftReduce

inductive Action where
  /-- Go to a state: over a terminal by reading it, over a nonterminal after reducing to it. -/
  | shift (target : StateId)
  | reduce (p : ProductionId)
  | accept
deriving DecidableEq, Inhabited

/-- An action with the production on whose behalf it was installed. -/
structure Slot where
  action : Action
  owner : ProductionId
deriving DecidableEq, Inhabited

/-- Two productions that can be reduced in a state on the same terminal; the current one stays. -/
structure Conflict where
  state : StateId
  symbol : Symbol
  current : ProductionId
  other : ProductionId
deriving DecidableEq

structure Row where
  actions : List (Symbol × Action)
deriving DecidableEq, Inhabited

def Row.action? (row : Row) (x : Symbol) : Option Action :=
  row.actions.lookup x

structure ParseTable where
  rows : Array Row

def ParseTable.row (table : ParseTable) (id : StateId) : Row :=
  table.rows.getD id default

def ParseTable.action? (table : ParseTable) (id : StateId) (x : Symbol) : Option Action :=
  (table.row id).action? x

end ShiftReduce
