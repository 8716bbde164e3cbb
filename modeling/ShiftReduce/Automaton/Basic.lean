import ShiftReduce.Automaton.ItemSet

/-!
# The item automaton

The states are the closed item sets that are reached from the initial one. They are found depth
first, the last successor of a state before the others, and numbered in the order in which they are
found.
-/

namespace ShiftReduce

/-- The number of a state, in the order in which they are found. It stands for a number of 32 bits,
into which that place is truncated: the two agree below `2 ^ 32` states. -/
abbrev StateId := Nat

structure State where
  items : List Item
  /-- The symbols over which the state is left, in the order of their names. -/
  transitions : OrderedMap Symbol StateId
deriving Inhabited

structure Automaton where
  states : Array State

/-- A depth-first search for item sets. -/
structure Search where
  /-- The item sets found so far, by number, with their successors. -/
  found : OrderedMap (List Item) (List (Symbol × List Item))
  pending : List (List Item)

namespace Search

variable (g : Grammar)

def start : Search where
  found := ∅
  pending := [initialItems g]

/-- Takes the next pending item set and, if it is new, puts its successors before the others. -/
def step (s : Search) : Loop.Step Search :=
  match s.pending with
  | [] => .last s
  | items :: rest =>
    if s.found.contains items then .next { s with pending := rest }
    else
      let next := successors g items
      .next {
        found := s.found.insert items next
        pending := next.reverse.map Prod.snd ++ rest
      }

/-- Each of the finitely many item sets is found once and has a successor for each item at most. -/
def bound : Nat :=
  let count := g.items.length
  (1 <<< count) * (count + 1) + 2

def run : OrderedMap (List Item) (List (Symbol × List Item)) :=
  (Loop.run (step g) (bound g) (start g)).found

end Search

namespace Automaton

def state (a : Automaton) (id : StateId) : State :=
  a.states.getD id default

end Automaton

def State.target? (s : State) (x : Symbol) : Option StateId :=
  s.transitions.get? x

/-- The state of an item set with its successors, which are numbered by their places in `known`. -/
def State.ofItems (known : Roster (List Item)) (items : List Item)
    (next : List (Symbol × List Item)) : State where
  items := items
  transitions := .ofList (next.map fun (x, target) => (x, (known.idx? target).getD 0))

def Grammar.automaton (g : Grammar) : Automaton :=
  let found := Search.run g
  { states := (found.toList.map fun (items, next) => State.ofItems found.keys items next).toArray }

end ShiftReduce
