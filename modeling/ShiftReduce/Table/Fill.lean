import ShiftReduce.Analysis.Basic
import ShiftReduce.Table.Action

/-!
# Filling the table

A row first gets the reductions of the complete items, each on FOLLOW of its left-hand side and the
goal last. A second reduction on a slot is a conflict and changes nothing. Shifts come after all
reductions and take a slot unless it belongs to a production of a better rank.
-/

namespace ShiftReduce

/-- A row in the making, and the conflicts met so far. -/
structure Filling where
  slots : OrderedMap Symbol Slot := ∅
  conflicts : Array Conflict := #[]

namespace Filling

variable (g : Grammar) (state : StateId)

/-- The action that a complete item of a production calls for. -/
def completion (p : ProductionId) : Action :=
  if p = .goal then .accept else .reduce p

/-- Installs the completion of a production on one terminal. -/
def reduceOn (p : ProductionId) (f : Filling) (t : TerminalId) : Filling :=
  match f.slots.get? (.terminal t) with
  | none => { f with slots := f.slots.insert (.terminal t) ⟨completion p, p⟩ }
  | some slot => { f with conflicts := f.conflicts.push ⟨state, .terminal t, slot.owner, p⟩ }

/-- Installs the completion of a production on FOLLOW of its left-hand side. -/
def reduceBy (follows : TerminalFamily) (f : Filling) (p : ProductionId) : Filling :=
  (follows.get (g.production p).left).toList.foldl (reduceOn state p) f

/-- Whether a shift on behalf of `p` may take what a slot holds. -/
def yields (slot : Option Slot) (shift : Action) (p : ProductionId) : Bool :=
  match slot with
  | none => true
  | some slot => slot.action == shift || g.rank slot.owner ≥ g.rank p

/-- Installs the shift over the symbol behind the marker of an item. -/
def shiftBy (s : State) (f : Filling) (item : Item) : Filling :=
  match item.next? g with
  | none => f
  | some x =>
    match s.target? x with
    | none => f
    | some target =>
      let shift := Action.shift target
      if yields g (f.slots.get? x) shift item.production then
        { f with slots := f.slots.insert x ⟨shift, item.production⟩ }
      else f

/-- The productions of the complete items in order, the goal's behind all others. -/
def completions (items : List Item) : List ProductionId :=
  let complete := (items.filter (·.isComplete g)).map Item.production
  complete.filter (· ≠ .goal) ++ complete.filter (· = .goal)

/-- A state's row before it is cut down to its actions. -/
def ofState (follows : TerminalFamily) (s : State) : Filling :=
  let reductions := (completions g s.items).foldl (reduceBy g state follows) {}
  s.items.foldl (shiftBy g s) reductions

def row (f : Filling) : Row :=
  ⟨f.slots.toList.map fun (x, slot) => (x, slot.action)⟩

end Filling

/-- A parse table, and the conflicts by state in the order in which they were met. -/
structure Tabulation where
  table : ParseTable
  conflicts : List Conflict

def Grammar.tabulate (g : Grammar) (a : Automaton) (analysis : Analysis) : Tabulation :=
  let fillings := a.states.mapIdx fun id s => Filling.ofState g id analysis.follows s
  { table := ⟨fillings.map Filling.row⟩
    conflicts := fillings.toList.flatMap fun f => f.conflicts.toList }

end ShiftReduce
