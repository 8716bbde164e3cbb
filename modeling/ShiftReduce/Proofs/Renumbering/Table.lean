import ShiftReduce.Proofs.Renumbering.Automaton
import ShiftReduce.Proofs.Table.Filling

/-!
# Renumbering keeps the table

The slots of a row are filled in the same order, by reductions on the same FOLLOW sets and by shifts
that compare ranks alike. Conflicts are met in the same order too.
-/

namespace ShiftReduce

namespace Renumbering

variable (σ : Renumbering)

def action : Action → Action
  | .shift target => .shift target
  | .reduce p => .reduce (σ.production p)
  | .accept => .accept

def slot (s : Slot) : Slot where
  action := σ.action s.action
  owner := σ.production s.owner

def conflict (c : Conflict) : Conflict where
  state := c.state
  symbol := σ.symbol c.symbol
  current := σ.production c.current
  other := σ.production c.other

def MapsRow (row row' : Row) : Prop :=
  row'.actions = row.actions.map (Prod.map σ.symbol σ.action)

/-- The slots are the same in the same order, and so are the conflicts. -/
structure MapsFilling (f f' : Filling) : Prop where
  slots_eq : f'.slots.toList = f.slots.toList.map (Prod.map σ.symbol σ.slot)
  conflicts_eq : f'.conflicts.toList = f.conflicts.toList.map σ.conflict

variable {σ} {g h : Grammar}

theorem action_eq_shift_iff {action : Action} {target : StateId} :
    σ.action action = .shift target ↔ action = .shift target := by
  cases action <;> simp [Renumbering.action]

theorem MapsState.target? {s t : State} (hs : σ.MapsState s t) (x : Symbol) :
    t.target? (σ.symbol x) = s.target? x := by
  rw [State.target?, OrderedMap.get?_eq_lookup, hs.transitions_eq,
    lookup_map_injective σ.symbol_injective, Option.map_id, State.target?,
    OrderedMap.get?_eq_lookup]
  rfl

namespace MapsFilling

variable {f f' : Filling} (hf : σ.MapsFilling f f')

include hf

theorem get? (x : Symbol) : f'.slots.get? (σ.symbol x) = (f.slots.get? x).map σ.slot := by
  rw [OrderedMap.get?_eq_lookup, hf.slots_eq, OrderedMap.get?_eq_lookup,
    lookup_map_injective σ.symbol_injective]

theorem insert (x : Symbol) (s : Slot) :
    σ.MapsFilling { f with slots := f.slots.insert x s }
      { f' with slots := f'.slots.insert (σ.symbol x) (σ.slot s) } where
  slots_eq := by
    rw [OrderedMap.toList_insert, hf.slots_eq, OrderedMap.toList_insert,
      setEntry_map_injective σ.symbol_injective]
  conflicts_eq := hf.conflicts_eq

theorem row : σ.MapsRow f.row f'.row := by
  simp [MapsRow, Filling.row, hf.slots_eq, slot, Function.comp_def]

end MapsFilling

namespace Carries

variable (hσ : σ.Carries g h)

include hσ

theorem eq_goal_iff {p : ProductionId} : σ.production p = .goal ↔ p = .goal := by
  rw [← σ.production.injective.eq_iff (a := p), hσ.production_goal]

theorem completion (p : ProductionId) :
    Filling.completion (σ.production p) = σ.action (Filling.completion p) := by
  simp only [Filling.completion, hσ.eq_goal_iff]
  split <;> rfl

theorem reduceOn {id : StateId} {p : ProductionId} {f f' : Filling} (hf : σ.MapsFilling f f')
    (t : TerminalId) :
    σ.MapsFilling (Filling.reduceOn id p f t) (Filling.reduceOn id (σ.production p) f' t) := by
  have hslot := hf.get? (.terminal t)
  rw [symbol_terminal] at hslot
  unfold Filling.reduceOn
  rw [hslot]
  cases f.slots.get? (.terminal t) with
  | none =>
    have hinsert := hf.insert (.terminal t) ⟨Filling.completion p, p⟩
    rwa [Renumbering.slot, ← hσ.completion] at hinsert
  | some slot =>
    refine ⟨hf.slots_eq, ?_⟩
    simp only [Option.map_some, Array.toList_push, hf.conflicts_eq, List.map_append]
    rfl

theorem reduceBy {id : StateId} {f f' : Filling} (hf : σ.MapsFilling f f') (p : ProductionId) :
    σ.MapsFilling (Filling.reduceBy g id g.analysis.follows f p)
      (Filling.reduceBy h id h.analysis.follows f' (σ.production p)) := by
  rw [Filling.reduceBy, Filling.reduceBy, hσ.left, hσ.follows]
  exact List.foldl_rel hf fun t _ _ _ hf => hσ.reduceOn hf t

theorem yields (slot : Option Slot) (target : StateId) (p : ProductionId) :
    Filling.yields h (slot.map σ.slot) (.shift target) (σ.production p) =
      Filling.yields g slot (.shift target) p := by
  cases slot with
  | none => rfl
  | some slot =>
    simp only [Option.map_some, Filling.yields, Renumbering.slot, ge_iff_le, hσ.rank_le_iff]
    congr 1
    exact Bool.eq_iff_iff.mpr (by simp [action_eq_shift_iff])

theorem shiftBy {s t : State} (hs : σ.MapsState s t) {f f' : Filling} (hf : σ.MapsFilling f f')
    (item : Item) :
    σ.MapsFilling (Filling.shiftBy g s f item) (Filling.shiftBy h t f' (σ.item item)) := by
  unfold Filling.shiftBy
  rw [hσ.next?]
  cases item.next? g with
  | none => exact hf
  | some x =>
    simp only [Option.map_some, hs.target?]
    cases s.target? x with
    | none => exact hf
    | some target =>
      simp only [hf.get?, item_production, hσ.yields]
      split
      next => exact hf.insert x ⟨.shift target, item.production⟩
      next => exact hf

theorem completions (items : List Item) :
    Filling.completions h (σ.items items) = (Filling.completions g items).map σ.production := by
  have hfilter (items : List Item) : (σ.items items).filter (·.isComplete h) =
      σ.items (items.filter (·.isComplete g)) := by
    rw [Renumbering.items, List.filter_map]
    exact congrArg _ (List.filter_congr fun item _ => hσ.isComplete item)
  have hproductions (items : List Item) : (σ.items items).map Item.production =
      (items.map Item.production).map σ.production := by
    rw [Renumbering.items, List.map_map, List.map_map]
    rfl
  simp only [Filling.completions, hfilter, hproductions, List.filter_map, List.map_append]
  simp only [Function.comp_def, ne_eq, hσ.eq_goal_iff]

theorem ofState {s t : State} (hs : σ.MapsState s t) (id : StateId) :
    σ.MapsFilling (Filling.ofState g id g.analysis.follows s)
      (Filling.ofState h id h.analysis.follows t) := by
  unfold Filling.ofState
  rw [hs.items_eq, hσ.completions, Renumbering.items, List.foldl_map, List.foldl_map]
  refine List.foldl_rel ?_ fun item _ _ _ hf => hσ.shiftBy hs hf item
  exact List.foldl_rel ⟨rfl, rfl⟩ fun p _ _ _ hf => hσ.reduceBy hf p

end Carries

end Renumbering

end ShiftReduce
