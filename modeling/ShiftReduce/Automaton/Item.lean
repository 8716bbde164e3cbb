import ShiftReduce.Grammar.Basic
import ShiftReduce.Text.Lines

/-!
# Items

An item is a production with a marker, which stands before one of the symbols of the right-hand
side or behind the last. Items are listed by the names of their production and then by marker;
collections find them by number and marker.
-/

namespace ShiftReduce

structure Item where
  production : ProductionId
  /-- How many symbols stand before the marker. -/
  marker : Nat
deriving DecidableEq, Inhabited

instance : Ord Item := ⟨compareLex (compareOn Item.production) (compareOn Item.marker)⟩

instance : Std.TransOrd Item :=
  inferInstanceAs (Std.TransCmp (compareLex (compareOn Item.production) (compareOn Item.marker)))

instance : Std.LawfulEqOrd Item where
  compare_self := Std.ReflOrd.compare_self
  eq_of_compare {a b} heq := by
    obtain ⟨hproduction, hmarker⟩ := Ordering.then_eq_eq.mp heq
    cases a
    cases b
    simp_all [compareOn]

namespace Item

/-- The item with the marker before everything. -/
def start (p : ProductionId) : Item := ⟨p, 0⟩

def advance (item : Item) : Item :=
  { item with marker := item.marker + 1 }

variable (g : Grammar)

def right (item : Item) : Array Symbol :=
  (g.production item.production).right

/-- The symbol right behind the marker. -/
def next? (item : Item) : Option Symbol :=
  (item.right g)[item.marker]?

/-- The nonterminal right behind the marker. -/
def expected? (item : Item) : Option NonterminalId :=
  (item.next? g).bind Symbol.nonterminal?

def isComplete (item : Item) : Bool :=
  item.marker ≥ (item.right g).size

/-- The order of items by left-hand name, right-hand names and marker. -/
def compare (a b : Item) : Ordering :=
  if a.production = b.production then Ord.compare a.marker b.marker
  else
    (Ord.compare (g.productionNames a.production) (g.productionNames b.production)).then
      (Ord.compare a.marker b.marker)

/-- `E -> E . + T`; a marker beyond the end is not shown. -/
def text (item : Item) : String :=
  let names := (item.right g).toList.map g.symbolName
  let marked :=
    if item.marker ≤ names.length then names.take item.marker ++ "." :: names.drop item.marker
    else names
  (g.nonterminal (g.production item.production).left).name ++ " ->" ++ spaced marked

end Item

/-- All items of a grammar. -/
def Grammar.items (g : Grammar) : List Item :=
  g.productionIds.flatMap fun p =>
    (List.range ((g.production p).right.size + 1)).map (Item.mk p)

end ShiftReduce
