import ShiftReduce.Proofs.Lookups.Automaton
import ShiftReduce.Proofs.Reduction.Plans

/-!
# Checked reduction plans

Each plain name is looked up among the counted names, and each production that a state reduces among
the named ones. The goal is never reduced, so it needs no name.
-/

namespace ShiftReduce

namespace Grammar

variable (g : Grammar)

def readPlainName (p : ProductionId) : Option String := do
  let production ← g.readProduction p
  let left ← g.readNonterminal production.left
  let names ← production.right.toList.mapM g.readSymbolName
  some ("reduce_" ++ left.name ++ "_from" ++ String.join (names.map ("_" ++ ·)))

def readHandlerNames : Option (Array String) := do
  let plain ← g.declaredIds.mapM g.readPlainName
  let counts := tally plain
  let names ← plain.zipIdx.mapM fun entry => (counts.get? entry.1).map fun count =>
    if count > 1 then entry.1 ++ "_" ++ entry.2.repr else entry.1
  some names.toArray

def readParameterType : Symbol → Option ParameterType
  | .terminal _ => some .token
  | .nonterminal n => (g.readNonterminal n).map fun nonterminal =>
    match nonterminal.resultType with
    | some type => .value type
    | none => .untyped

def readParameter (body : String) (entry : Symbol × Nat) : Option Parameter :=
  (g.readParameterType entry.1).map fun type =>
    { type, name := if Placeholder.mentions body (entry.2 + 1) then
        some (Placeholder.argument (entry.2 + 1)) else none }

def readHandler (p : ProductionId) (name : String) : Option (Option Handler) := do
  let production ← g.readProduction p
  let left ← g.readNonterminal production.left
  match left.resultType with
  | none => some none
  | some returnType =>
    let body := Placeholder.expand production.action
    let parameters ← production.right.toList.zipIdx.mapM (g.readParameter body)
    some (some { production := p, name, returnType, body, parameters })

def readCarriesValue : Symbol → Option Bool
  | .terminal _ => some true
  | .nonterminal n => (g.readNonterminal n).map (·.resultType.isSome)

def readThunkArgument (entry : Symbol × Nat) : Option ThunkArgument :=
  match entry.1 with
  | .terminal _ => some (.token entry.2)
  | .nonterminal n => (g.readField n).map fun field? =>
    match field? with
    | some field => .field entry.2 field
    | none => .default

def readThunk (p : ProductionId) (handler : String) : Option Thunk := do
  let production ← g.readProduction p
  let left ← g.readNonterminal production.left
  let parameters ← production.right.toList.zipIdx.mapM fun entry =>
    (g.readCarriesValue entry.1).map fun carries =>
      if left.resultType.isSome && carries then some (cellName entry.2) else none
  let field? ← g.readField production.left
  let arguments ← production.right.toList.zipIdx.mapM g.readThunkArgument
  some {
    production := p
    name := thunkName handler
    nonterminal := left.name
    parameters
    call := field?.map fun field => { field, handler, arguments } }

end Grammar

/-- The goal has no name. -/
def readNameIn (names : Array String) (p : ProductionId) : Option String :=
  if p = .goal then none else names[p.index - 1]?

def Automaton.readReductions (g : Grammar) (a : Automaton) : Option (List ProductionId) := do
  let complete ← (a.states.toList.flatMap State.items).filterMapM (·.readCompleted g)
  some (distinct (complete.filter (· ≠ .goal)))

def Grammar.readPlans (g : Grammar) (a : Automaton) : Option Plans := do
  let reductions ← a.readReductions g
  let names ← g.readHandlerNames
  let handlers ← reductions.filterMapM fun p => do
    let name ← readNameIn names p
    g.readHandler p name
  let thunks ← reductions.mapM fun p => do
    let name ← readNameIn names p
    g.readThunk p name
  some {
    names
    handlers := sortByName Handler.name handlers
    thunks := sortByName Thunk.name thunks }

/-- What has been counted is found. -/
theorem get?_tally {names : List String} {name : String} (hname : name ∈ names) :
    (tally names).get? name = some (tallyOf (tally names) name) := by
  have hpos : 0 < tallyOf (tally names) name := by
    rw [tallyOf_tally]
    exact List.count_pos_iff.mpr hname
  rw [tallyOf] at hpos ⊢
  cases hfound : (tally names).get? name with
  | none => simp [hfound] at hpos
  | some count => rfl

namespace Grammar

variable {g : Grammar} (hg : g.WellFormed) {p : ProductionId}

include hg

theorem readPlainName_eq (hp : p ∈ g.productionIds) : g.readPlainName p = some (g.plainName p) := by
  simp only [readPlainName, readProduction_eq hp, hg.readLeft_eq hp, hg.readRightNames_eq hp,
    Option.bind_eq_bind, Option.bind_some, List.map_map]
  rfl

theorem readHandlerNames_eq : g.readHandlerNames = some g.handlerNames := by
  have hplain : ∀ p ∈ g.declaredIds, g.readPlainName p = some (g.plainName p) := fun p hp =>
    readPlainName_eq hg (mem_declaredIds_iff.mp hp).1
  rw [readHandlerNames, mapM_eq_some hplain, Option.bind_eq_bind, Option.bind_some]
  dsimp only
  rw [mapM_zipIdx_eq_some (f := fun i name =>
      if tallyOf (tally (g.declaredIds.map g.plainName)) name > 1 then name ++ "_" ++ i.repr
      else name)]
  · rfl
  · intro name hname i
    rw [get?_tally hname]
    rfl

omit hg in
theorem readNameIn_eq (hp : p ∈ g.declaredIds) :
    readNameIn g.handlerNames p = some (nameIn g.handlerNames p) := by
  obtain ⟨i, hi⟩ := List.mem_iff_getElem?.mp hp
  have hname : g.handlerNames[p.index - 1]? = some (g.handlerName p) := by
    rw [(getElem?_declaredIds_iff.mp hi).2, Nat.add_sub_cancel, ← Array.getElem?_toList,
      toList_handlerNames, List.getElem?_map, hi, Option.map_some]
  rw [readNameIn, if_neg (mem_declaredIds_iff.mp hp).2, nameIn_handlerNames hp, hname]

theorem readParameter_eq (hp : p ∈ g.productionIds) (body : String) {x : Symbol}
    (hx : x ∈ (g.production p).right.toList) (place : Nat) :
    g.readParameter body (x, place) = some (g.parameter body place x) := by
  have hsymbol := hg.hasSymbol_of_mem_right hp hx
  cases x with
  | terminal t => rfl
  | nonterminal n =>
    rw [readParameter, readParameterType, readNonterminal_eq hsymbol]
    rfl

theorem readHandler_eq (hp : p ∈ g.productionIds) (name : String) :
    g.readHandler p name = some (g.handler? p name) := by
  simp only [readHandler, handler?, readProduction_eq hp, hg.readLeft_eq hp, Option.bind_eq_bind,
    Option.bind_some]
  cases (g.nonterminal (g.production p).left).resultType with
  | none => rfl
  | some type =>
    dsimp only
    rw [mapM_zipIdx_eq_some fun x hx place => readParameter_eq hg hp _ hx place]
    rfl

theorem readCarriesValue_eq (hp : p ∈ g.productionIds) {x : Symbol}
    (hx : x ∈ (g.production p).right.toList) :
    g.readCarriesValue x = some (g.carriesValue x) := by
  have hsymbol := hg.hasSymbol_of_mem_right hp hx
  cases x with
  | terminal t => rfl
  | nonterminal n =>
    rw [readCarriesValue, readNonterminal_eq hsymbol]
    rfl

theorem readThunkArgument_eq (hp : p ∈ g.productionIds) {x : Symbol}
    (hx : x ∈ (g.production p).right.toList) (cell : Nat) :
    g.readThunkArgument (x, cell) = some (g.thunkArgument cell x) := by
  have hsymbol := hg.hasSymbol_of_mem_right hp hx
  cases x with
  | terminal t => rfl
  | nonterminal n =>
    simp only [readThunkArgument, readField_eq hsymbol]
    rfl

theorem readThunk_eq (hp : p ∈ g.productionIds) (handler : String) :
    g.readThunk p handler = some (g.thunk p handler) := by
  have hparameters : (g.production p).right.toList.zipIdx.mapM (fun entry =>
      (g.readCarriesValue entry.1).map fun carries =>
        if (g.nonterminal (g.production p).left).resultType.isSome && carries then
          some (cellName entry.2) else none) =
      some (g.thunk p handler).parameters := by
    apply mapM_zipIdx_eq_some
    intro x hx cell
    rw [readCarriesValue_eq hg hp hx]
    rfl
  simp only [readThunk, readProduction_eq hp, hg.readLeft_eq hp, Option.bind_eq_bind,
    Option.bind_some, hparameters, readField_eq (hg.left_mem p hp),
    mapM_zipIdx_eq_some fun x hx cell => readThunkArgument_eq hg hp hx cell]
  rfl

theorem readReductions_eq :
    g.automaton.readReductions g = some (g.automaton.reductions g) := by
  have hitems : g.HasItems (g.automaton.states.toList.flatMap State.items) := by
    intro item hitem
    obtain ⟨s, hs, hitem⟩ := List.mem_flatMap.mp hitem
    obtain ⟨q, hq, rfl⟩ := Automaton.mem_toList_states.mp hs
    exact Automaton.hasItems_items hg hq item hitem
  rw [Automaton.readReductions, readCompleted_eq hitems, Automaton.reductions]
  simp only [Option.bind_eq_bind, Option.bind_some, List.filter_map, List.filter_filter]
  rfl

theorem readPlans_eq : g.readPlans g.automaton = some (g.plans g.automaton) := by
  have hdeclared : ∀ p ∈ g.automaton.reductions g, p ∈ g.declaredIds := fun p hp =>
    Automaton.mem_declaredIds_of_mem_reductions hg hp
  have hhandlers : (g.automaton.reductions g).filterMapM (fun p => do
      let name ← readNameIn g.handlerNames p
      g.readHandler p name) =
      some ((g.automaton.reductions g).filterMap fun p =>
        g.handler? p (nameIn g.handlerNames p)) := by
    apply filterMapM_eq_some
    intro p hp
    rw [readNameIn_eq (hdeclared p hp)]
    exact readHandler_eq hg (mem_declaredIds_iff.mp (hdeclared p hp)).1 _
  have hthunks : (g.automaton.reductions g).mapM (fun p => do
      let name ← readNameIn g.handlerNames p
      g.readThunk p name) =
      some ((g.automaton.reductions g).map fun p => g.thunk p (nameIn g.handlerNames p)) := by
    apply mapM_eq_some
    intro p hp
    rw [readNameIn_eq (hdeclared p hp)]
    exact readThunk_eq hg (mem_declaredIds_iff.mp (hdeclared p hp)).1 _
  rw [readPlans, readReductions_eq hg, readHandlerNames_eq hg, Option.bind_eq_bind,
    Option.bind_some, Option.bind_eq_bind, Option.bind_some, hhandlers, hthunks, plans]
  simp only [Option.bind_eq_bind, Option.bind_some, List.filterMap_map, List.map_map]
  rfl

end Grammar

end ShiftReduce
