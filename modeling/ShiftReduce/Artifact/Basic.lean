import ShiftReduce.Reduction.Plans
import ShiftReduce.Table.Fill

/-!
# Artifacts

All that a renderer needs to write a parser, with names in place of numbers. The entries of a row
are sorted by the names of their symbols.
-/

namespace ShiftReduce

inductive EntryAction where
  | shift (target : StateId)
  /-- Pop `arity` cells, call the thunk, and go on from the nonterminal. -/
  | reduce (nonterminal : String) (arity : Nat) (thunk : String)
  | accept
deriving DecidableEq

structure TableEntry where
  symbol : String
  terminal : Bool
  action : EntryAction
deriving DecidableEq

structure Artifact where
  parserName : String
  verbose : Bool
  headerExtras : List String
  returnType : String
  /-- The field of the cell that holds the overall result. -/
  returnField : String
  nonterminals : List String
  fields : List (String × String)
  /-- The rows by state. -/
  actionTable : List (List TableEntry)
  handlers : List Handler
  thunks : List Thunk

namespace Artifact

def entryAction (g : Grammar) (plans : Plans) : Action → EntryAction
  | .shift target => .shift target
  | .reduce p =>
    let production := g.production p
    .reduce (g.nonterminal production.left).name production.right.size (plans.thunkName p)
  | .accept => .accept

def entry (g : Grammar) (plans : Plans) (slot : Symbol × Action) : TableEntry where
  symbol := g.symbolName slot.1
  terminal := slot.1.isTerminal
  action := entryAction g plans slot.2

def row (g : Grammar) (plans : Plans) (row : Row) : List TableEntry :=
  sortByName TableEntry.symbol (row.actions.map (entry g plans))

end Artifact

def Grammar.artifact (g : Grammar) (table : ParseTable) (plans : Plans) : Artifact where
  parserName := g.settings.parserName
  verbose := g.settings.verbose
  headerExtras := g.settings.headerExtras
  returnType := g.returnType
  returnField := (g.field? .goal).getD ""
  nonterminals := g.nonterminals.toList.map Nonterminal.name
  fields := g.fields
  actionTable := table.rows.toList.map (Artifact.row g plans)
  handlers := plans.handlers
  thunks := plans.thunks

end ShiftReduce
