import ShiftReduce.Proofs.Lookups.Analysis
import ShiftReduce.Proofs.Lookups.Automaton
import ShiftReduce.Proofs.Table.Entry

/-!
# The checked table

Actions and the productions that own them are kept in two maps here, so an occupied place may lack
an owner. It never does: both maps have the keys of the slots, and each owner is a production of the
grammar, whose rank can be read.
-/

namespace ShiftReduce

/-- A row in the making, with an action and an owner for each symbol that has a slot. -/
structure OwnedActions where
  actions : OrderedMap Symbol Action := ∅
  owners : OrderedMap Symbol ProductionId := ∅
  conflicts : Array Conflict := #[]

namespace OwnedActions

def set (o : OwnedActions) (x : Symbol) (slot : Slot) : OwnedActions :=
  { o with actions := o.actions.insert x slot.action, owners := o.owners.insert x slot.owner }

section Reading

variable (g : Grammar) (state : StateId)

def reduceOn (p : ProductionId) (o : OwnedActions) (t : TerminalId) : OwnedActions :=
  match o.owners.get? (.terminal t) with
  | none => o.set (.terminal t) ⟨Filling.completion p, p⟩
  | some current => { o with conflicts := o.conflicts.push ⟨state, .terminal t, current, p⟩ }

def readReduceBy (follows : TerminalFamily) (o : OwnedActions) (p : ProductionId) :
    Option OwnedActions := do
  let production ← g.readProduction p
  let follow ← follows.read production.left
  some (follow.toList.foldl (reduceOn state p) o)

def readYields (o : OwnedActions) (x : Symbol) (shift : Action) (p : ProductionId) :
    Option Bool :=
  match o.actions.get? x with
  | none => some true
  | some action =>
    if action = shift then some true
    else do
      let owner ← o.owners.get? x
      let ownerRank ← g.readRank owner
      let rank ← g.readRank p
      some (decide (ownerRank ≥ rank))

def readShiftBy (s : State) (o : OwnedActions) (item : Item) : Option OwnedActions := do
  match ← item.readNext g with
  | none => some o
  | some x =>
    let target ← s.transitions.get? x
    let yields ← o.readYields g x (.shift target) item.production
    some (if yields then o.set x ⟨.shift target, item.production⟩ else o)

def readCompletions (items : List Item) : Option (List ProductionId) := do
  let complete ← items.filterMapM (·.readCompleted g)
  some (complete.filter (· ≠ .goal) ++ complete.filter (· = .goal))

def readOfState (follows : TerminalFamily) (s : State) : Option OwnedActions := do
  let completions ← readCompletions g s.items
  let reductions ← completions.foldlM (readReduceBy g state follows) {}
  s.items.foldlM (readShiftBy g s) reductions

def row (o : OwnedActions) : Row :=
  ⟨o.actions.toList⟩

/-- The row of a state with the conflicts met in it. -/
def readRow (follows : TerminalFamily) (s : State) : Option (Row × List Conflict) :=
  (readOfState g state follows s).map fun o => (o.row, o.conflicts.toList)

end Reading

/-- The maps hold the parts of the slots, whose owners are productions of the grammar. -/
structure Splits (g : Grammar) (f : Filling) (o : OwnedActions) : Prop where
  actions_eq : o.actions.toList = f.slots.toList.map (Prod.map id Slot.action)
  owners_eq : o.owners.toList = f.slots.toList.map (Prod.map id Slot.owner)
  conflicts_eq : o.conflicts = f.conflicts
  owner_mem : ∀ x slot, f.slots.get? x = some slot → slot.owner ∈ g.productionIds

namespace Splits

variable {g : Grammar} {f : Filling} {o : OwnedActions}

theorem empty (g : Grammar) : Splits g {} {} where
  actions_eq := rfl
  owners_eq := rfl
  conflicts_eq := rfl
  owner_mem x slot hslot := by
    rw [OrderedMap.get?_eq_some_iff] at hslot
    exact absurd hslot List.not_mem_nil

variable (ho : Splits g f o)

include ho

theorem get?_actions (x : Symbol) : o.actions.get? x = (f.slots.get? x).map Slot.action := by
  rw [OrderedMap.get?_eq_lookup, ho.actions_eq, OrderedMap.get?_eq_lookup]
  exact lookup_map_injective Function.injective_id _ _ _

theorem get?_owners (x : Symbol) : o.owners.get? x = (f.slots.get? x).map Slot.owner := by
  rw [OrderedMap.get?_eq_lookup, ho.owners_eq, OrderedMap.get?_eq_lookup]
  exact lookup_map_injective Function.injective_id _ _ _

theorem set {slot : Slot} (hslot : slot.owner ∈ g.productionIds) (x : Symbol) :
    Splits g { f with slots := f.slots.insert x slot } (o.set x slot) where
  actions_eq := by
    rw [OwnedActions.set, OrderedMap.toList_insert, ho.actions_eq, OrderedMap.toList_insert]
    exact setEntry_map_injective Function.injective_id _ _ _ _
  owners_eq := by
    rw [OwnedActions.set, OrderedMap.toList_insert, ho.owners_eq, OrderedMap.toList_insert]
    exact setEntry_map_injective Function.injective_id _ _ _ _
  conflicts_eq := ho.conflicts_eq
  owner_mem y other hother := by
    rw [OrderedMap.get?_insert] at hother
    split at hother
    next => rwa [← Option.some.inj hother]
    next => exact ho.owner_mem y other hother

theorem reduceOn {p : ProductionId} (hp : p ∈ g.productionIds) (state : StateId) (t : TerminalId) :
    Splits g (Filling.reduceOn state p f t) (o.reduceOn state p t) := by
  rw [OwnedActions.reduceOn, ho.get?_owners, Filling.reduceOn]
  cases hslot : f.slots.get? (.terminal t) with
  | none => exact ho.set hp _
  | some slot => exact { ho with conflicts_eq := by simp [ho.conflicts_eq] }

theorem foldl_reduceOn {p : ProductionId} (hp : p ∈ g.productionIds) (state : StateId)
    (ts : List TerminalId) :
    Splits g (ts.foldl (Filling.reduceOn state p) f)
      (ts.foldl (OwnedActions.reduceOn state p) o) := by
  induction ts generalizing f o with
  | nil => exact ho
  | cons t rest ih => exact ih (ho.reduceOn hp state t)

variable (hg : g.WellFormed)

include hg

theorem exists_readReduceBy {follows : TerminalFamily} (hfollows : follows.Covers g)
    {p : ProductionId} (hp : p ∈ g.productionIds) (state : StateId) :
    ∃ next, o.readReduceBy g state follows p = some next ∧
      Splits g (Filling.reduceBy g state follows f p) next := by
  simp only [readReduceBy, Grammar.readProduction_eq hp, Option.bind_eq_bind, Option.bind_some,
    hfollows.read_eq (hg.left_mem p hp)]
  exact ⟨_, rfl, ho.foldl_reduceOn hp state _⟩

theorem readYields_eq (x : Symbol) (shift : Action) {p : ProductionId} (hp : p ∈ g.productionIds) :
    o.readYields g x shift p = some (Filling.yields g (f.slots.get? x) shift p) := by
  rw [readYields, ho.get?_actions, ho.get?_owners]
  cases hslot : f.slots.get? x with
  | none => rfl
  | some slot =>
    simp only [Option.map_some, Option.bind_eq_bind, Option.bind_some, hg.readRank_eq hp,
      hg.readRank_eq (ho.owner_mem x slot hslot), Filling.yields]
    by_cases haction : slot.action = shift <;> simp [haction]

theorem exists_readShiftBy {s : State} {item : Item} (hitem : item.production ∈ g.productionIds)
    (htarget : ∀ x, item.next? g = some x → ∃ target, s.target? x = some target) :
    ∃ next, o.readShiftBy g s item = some next ∧ Splits g (Filling.shiftBy g s f item) next := by
  rw [readShiftBy, Item.readNext_eq hitem, Filling.shiftBy]
  cases hnext : item.next? g with
  | none => exact ⟨o, rfl, ho⟩
  | some x =>
    obtain ⟨target, htarget⟩ := htarget x hnext
    have hget : s.transitions.get? x = some target := htarget
    simp only [Option.bind_eq_bind, Option.bind_some, hget, htarget,
      ho.readYields_eq hg x _ hitem]
    refine ⟨_, rfl, ?_⟩
    split
    next hyields => exact ho.set hitem x
    next hyields => exact ho

end Splits

theorem readCompletions_eq {g : Grammar} {items : List Item} (hitems : g.HasItems items) :
    readCompletions g items = some (Filling.completions g items) := by
  rw [readCompletions, readCompleted_eq hitems]
  rfl

variable {g : Grammar} (hg : g.WellFormed)

include hg

theorem exists_readOfState {follows : TerminalFamily} (hfollows : follows.Covers g) {q : StateId}
    (hq : q < g.automaton.states.size) :
    ∃ o, readOfState g q follows (g.automaton.state q) = some o ∧
      Splits g (Filling.ofState g q follows (g.automaton.state q)) o := by
  have hitems := Automaton.hasItems_items hg hq
  have hcompletions : ∀ p ∈ Filling.completions g (g.automaton.state q).items,
      p ∈ g.productionIds := by
    intro p hp
    obtain ⟨item, hitem, -, rfl⟩ := mem_completions.mp hp
    exact hitems item hitem
  have htarget : ∀ item ∈ (g.automaton.state q).items, ∀ x, item.next? g = some x →
      ∃ target, (g.automaton.state q).target? x = some target := fun item hitem x hx =>
    (Automaton.exists_target_iff hg hq).mpr ⟨item, hitem, hx⟩
  obtain ⟨reductions, hreductions, hsplits⟩ := exists_foldlM_eq_some (R := Splits g)
    (fun _ _ ho p hp => ho.exists_readReduceBy hg hfollows (hcompletions p hp) q) (.empty g)
  obtain ⟨o, ho, hsplits⟩ := exists_foldlM_eq_some (R := Splits g)
    (f := Filling.shiftBy g (g.automaton.state q))
    (fun _ _ ho item hitem => ho.exists_readShiftBy hg (hitems item hitem) (htarget item hitem))
    hsplits
  refine ⟨o, ?_, hsplits⟩
  simp only [readOfState, readCompletions_eq hitems, Option.bind_eq_bind, Option.bind_some,
    hreductions, ho]

theorem readRow_eq {follows : TerminalFamily} (hfollows : follows.Covers g) {q : StateId}
    (hq : q < g.automaton.states.size) :
    readRow g q follows (g.automaton.state q) =
      some ((Filling.ofState g q follows (g.automaton.state q)).row,
        (Filling.ofState g q follows (g.automaton.state q)).conflicts.toList) := by
  obtain ⟨o, ho, hsplits⟩ := exists_readOfState hg hfollows hq
  rw [readRow, ho, Option.map_some, row, hsplits.actions_eq, hsplits.conflicts_eq]
  rfl

end OwnedActions

namespace Grammar

def readTabulation (g : Grammar) (a : Automaton) (analysis : Analysis) : Option Tabulation := do
  let rows ← a.states.toList.zipIdx.mapM fun entry =>
    OwnedActions.readRow g entry.2 analysis.follows entry.1
  some { table := ⟨(rows.map Prod.fst).toArray⟩, conflicts := rows.flatMap Prod.snd }

/-- A row and its conflicts, as they are read. -/
def rowAndConflicts (g : Grammar) (follows : TerminalFamily) (entry : State × StateId) :
    Row × List Conflict :=
  let filling := Filling.ofState g entry.2 follows entry.1
  (filling.row, filling.conflicts.toList)

theorem tabulate_eq (g : Grammar) (a : Automaton) (analysis : Analysis) :
    g.tabulate a analysis =
      let rows := a.states.toList.zipIdx.map (g.rowAndConflicts analysis.follows)
      { table := ⟨(rows.map Prod.fst).toArray⟩, conflicts := rows.flatMap Prod.snd } := by
  simp only [tabulate, List.map_map, List.flatMap_map, Array.toList_mapIdx,
    List.mapIdx_eq_zipIdx_map]
  congr 2
  apply Array.ext'
  rw [Array.toList_map, Array.toList_mapIdx, List.mapIdx_eq_zipIdx_map, List.map_map]
  rfl

theorem readTabulation_eq {g : Grammar} (hg : g.WellFormed) :
    g.readTabulation g.automaton g.analysis = some (g.tabulate g.automaton g.analysis) := by
  have hread : ∀ entry ∈ g.automaton.states.toList.zipIdx,
      OwnedActions.readRow g entry.2 g.analysis.follows entry.1 =
        some (g.rowAndConflicts g.analysis.follows entry) := by
    rintro ⟨s, q⟩ hentry
    have hget := List.mem_zipIdx_iff_getElem?.mp hentry
    rw [Array.getElem?_toList] at hget
    dsimp only at hget
    obtain ⟨hq, hstate⟩ := Array.getElem?_eq_some_iff.mp hget
    obtain rfl : g.automaton.state q = s := (Automaton.state_eq_getElem hq).trans hstate
    simp only [rowAndConflicts, OwnedActions.readRow_eq hg (covers_follows hg) hq]
  rw [readTabulation, mapM_eq_some hread, tabulate_eq]
  rfl

end Grammar

end ShiftReduce
