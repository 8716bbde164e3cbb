import ShiftReduce.Automaton.Item
import ShiftReduce.Collection.Grouping
import ShiftReduce.Collection.Sort
import ShiftReduce.Loop

/-!
# Closed item sets

The closure of some items adds, for every nonterminal that stands behind a marker, the start items
of its productions. Item sets are listed in the order of items without repetition, so equal sets
are equal lists. `successors_eq` says that the successors of a set are what `goto` reaches over each
symbol.
-/

namespace ShiftReduce

/-- The items in order and without repetition. -/
def sortItems (g : Grammar) (items : List Item) : List Item :=
  sortBy (fun a b => (a.compare g b).isLE) (distinct items)

/-- The nonterminals whose productions belong to a closure, as far as they are known. -/
structure Opening where
  opened : Roster NonterminalId
  pending : List NonterminalId

namespace Opening

variable (g : Grammar)

/-- The nonterminals that stand in front of the productions of `n`. -/
def leading (n : NonterminalId) : List NonterminalId :=
  (g.nonterminal n).productions.filterMap fun p => (Item.start p).expected? g

/-- Opens all pending nonterminals but those for which that has been done. -/
def step (o : Opening) : Loop.Step Opening :=
  match distinct (o.pending.filter fun n => !o.opened.contains n) with
  | [] => .last o
  | fresh => .next { opened := o.opened.addAll fresh, pending := fresh.flatMap (leading g) }

/-- Every step but the last opens a nonterminal of the grammar. -/
def bound : Nat :=
  g.nonterminals.size + 2

/-- All nonterminals that are opened by items. -/
def ofItems (items : List Item) : List NonterminalId :=
  let o : Opening := { opened := ∅, pending := items.filterMap (·.expected? g) }
  (Loop.run (step g) (bound g) o).opened.toList

end Opening

variable (g : Grammar)

def startItems (n : NonterminalId) : List Item :=
  (g.nonterminal n).productions.map Item.start

/-- The least set of items that has the given ones and the start items of what they expect. -/
def closure (kernel : List Item) : List Item :=
  sortItems g (kernel ++ (Opening.ofItems g kernel).flatMap (startItems g))

/-- The closed set reached from some items by moving over a symbol. -/
def goto (items : List Item) (x : Symbol) : List Item :=
  closure g ((items.filter fun item => item.next? g == some x).map Item.advance)

/-- The symbols behind the markers of some items, in the order of their names. -/
def nextSymbols (items : List Item) : List Symbol :=
  sortByName g.symbolName (distinct (items.filterMap (·.next? g)))

/-- All nonempty sets reached from some items, with the symbols that lead to them. -/
def successors (items : List Item) : List (Symbol × List Item) :=
  let groups := group (·.next? g) items
  (nextSymbols g items).map fun x => (x, closure g ((groupOf groups x).map Item.advance))

theorem successors_eq (items : List Item) :
    successors g items = (nextSymbols g items).map fun x => (x, goto g items x) := by
  simp only [successors, groupOf_group, goto]

def initialItems : List Item :=
  closure g [Item.start .goal]

end ShiftReduce
