import ShiftReduce.Reduction.Name

/-!
# Thunks

The thunk of a production takes the cells that a reduction pops and hands their contents to the
handler. It names the cells that the call reads; without a type for the left-hand side there is no
call and no named cell.
-/

namespace ShiftReduce

inductive ThunkArgument where
  /-- The typed value in the cell of a nonterminal. -/
  | field (cell : Nat) (field : String)
  /-- A default value in place of a nonterminal without a type. -/
  | default
  /-- The text in the cell of a terminal. -/
  | token (cell : Nat)
deriving DecidableEq

structure HandlerCall where
  /-- The field of the resulting cell that takes the handler's value. -/
  field : String
  handler : String
  arguments : List ThunkArgument
deriving DecidableEq

structure Thunk where
  production : ProductionId
  name : String
  nonterminal : String
  parameters : List (Option String)
  call : Option HandlerCall
deriving DecidableEq

namespace Grammar

variable (g : Grammar)

/-- Whether the cell of a symbol holds something to read. -/
def carriesValue : Symbol → Bool
  | .terminal _ => true
  | .nonterminal n => (g.nonterminal n).resultType.isSome

def cellName (cell : Nat) : String :=
  "a" ++ cell.repr

def thunkArgument (cell : Nat) : Symbol → ThunkArgument
  | .terminal _ => .token cell
  | .nonterminal n =>
    match g.field? n with
    | some field => .field cell field
    | none => .default

def thunk (p : ProductionId) (handler : String) : Thunk :=
  let production := g.production p
  let left := g.nonterminal production.left
  { production := p
    name := thunkName handler
    nonterminal := left.name
    parameters := production.right.toList.mapIdx fun cell x =>
      if left.resultType.isSome && g.carriesValue x then some (cellName cell) else none
    call := (g.field? production.left).map fun field =>
      { field, handler, arguments := production.right.toList.mapIdx g.thunkArgument } }

end Grammar

end ShiftReduce
