import ShiftReduce.Grammar.Printer
import ShiftReduce.Json.Printer
import ShiftReduce.Table.Fill

/-!
# Diagnostics

The intermediate results in readable form: the sets of every nonterminal, the items of every state,
the conflicts, and the nonterminals that have no productions.
-/

namespace ShiftReduce

structure NamedConflict where
  state : StateId
  symbol : String
  current : String
  other : String
deriving DecidableEq

structure Diagnostics where
  /-- The nullable nonterminals in order of declaration. -/
  nullables : List String
  firstSets : List (String × List String)
  followSets : List (String × List String)
  /-- The items of each state. -/
  states : List (List String)
  conflicts : List NamedConflict
  emptyNonterminals : List String
deriving DecidableEq

namespace Diagnostics

variable (g : Grammar)

/-- The names of the members of a set, sorted. -/
def sortedNames (s : TerminalSet) : List String :=
  sortByName id (s.toList.map fun t => (g.terminal t).name)

def namedSets (family : TerminalFamily) : List (String × List String) :=
  g.nonterminalIds.map fun n => ((g.nonterminal n).name, sortedNames g (family.get n))

def namedConflict (c : Conflict) : NamedConflict where
  state := c.state
  symbol := g.symbolName c.symbol
  current := g.productionText c.current
  other := g.productionText c.other

end Diagnostics

open Diagnostics in
def Grammar.diagnostics (g : Grammar) (analysis : Analysis) (a : Automaton)
    (conflicts : List Conflict) : Diagnostics where
  nullables :=
    (g.nonterminalIds.filter analysis.nullables.contains).map fun n => (g.nonterminal n).name
  firstSets := namedSets g analysis.firsts
  followSets := namedSets g analysis.follows
  states := a.states.toList.map fun s => s.items.map (Item.text g)
  conflicts := conflicts.map (namedConflict g)
  emptyNonterminals :=
    (g.nonterminals.toList.filter (·.productions.isEmpty)).map Nonterminal.name

namespace NamedConflict

def text (c : NamedConflict) : String :=
  "Reduce/reduce conflict in state " ++ c.state.repr ++ " on " ++ c.symbol ++
  "\nCurrent reduce action: " ++ c.current ++
  "\nOther reduce action:   " ++ c.other

def toJson (c : NamedConflict) : Json :=
  .object [
    ("state", .number c.state),
    ("symbol", .string c.symbol),
    ("current", .string c.current),
    ("other", .string c.other)]

end NamedConflict

namespace Diagnostics

/-- One line for a set: `FIRST(E) = { id num }`. -/
def setText (label : String) (entry : String × List String) : String :=
  label ++ "(" ++ entry.1 ++ ") = \x7b " ++ " ".intercalate entry.2 ++ " \x7d"

def stateText (id : StateId) (items : List String) : String :=
  "\nState (" ++ id.repr ++ ")\n" ++ unlines (items.map ("  " ++ ·))

def text (d : Diagnostics) : String :=
  "Nullables:" ++ spaced d.nullables ++ "\n" ++
  unlines (d.firstSets.map (setText "FIRST")) ++
  unlines (d.followSets.map (setText "FOLLOW")) ++
  String.join (d.states.mapIdx stateText) ++
  String.join (d.conflicts.map fun c => "\n" ++ c.text ++ "\n")

def setsToJson (sets : List (String × List String)) : Json :=
  .object (sets.map fun (name, terminals) => (name, .strings terminals))

def toJson (d : Diagnostics) : Json :=
  .object [
    ("nullables", .strings d.nullables),
    ("first_sets", setsToJson d.firstSets),
    ("follow_sets", setsToJson d.followSets),
    ("states", .array (d.states.map Json.strings)),
    ("conflicts", .array (d.conflicts.map NamedConflict.toJson)),
    ("empty_nonterminals", .strings d.emptyNonterminals)]

end Diagnostics

end ShiftReduce
