import Mathlib.Data.Finset.Dedup
import ShiftReduce.Proofs.Renumbering.SameDeclarations
import ShiftReduce.Proofs.Renumbering.Table
import ShiftReduce.Table.Printer

/-!
# The order of declarations does not matter

Everything that is computed from a grammar, with names in place of numbers, is kept by renumberings.
So records that declare the same nonterminals and productions, in whatever order and how often, have
the same parser, and its texts are the same.
-/

namespace ShiftReduce

/-- A symbol by its kind and name. -/
inductive SymbolName where
  | terminal (name : String)
  | nonterminal (name : String)
deriving DecidableEq

/-- An action that refers to a production by its names. -/
inductive NamedAction where
  | shift (target : StateId)
  | reduce (names : List String)
  | accept
deriving DecidableEq

/-- A conflict between productions that are referred to by their names. -/
structure ConflictByName where
  state : StateId
  symbol : SymbolName
  current : List String
  other : List String
deriving DecidableEq

/-- A state of the automaton with its row in the table. -/
structure StateByName where
  /-- The names of the production of each item, and the marker. -/
  items : List (List String × Nat)
  transitions : List (SymbolName × StateId)
deriving DecidableEq

/-- The automaton and the table of a grammar, with names in place of numbers. -/
structure ParserByName where
  states : List StateByName
  rows : List (List (SymbolName × NamedAction))
  conflicts : List ConflictByName
deriving DecidableEq

namespace Grammar

variable (g : Grammar)

def nameSymbol : Symbol → SymbolName
  | .terminal t => .terminal (g.terminal t).name
  | .nonterminal n => .nonterminal (g.nonterminal n).name

def nameItem (item : Item) : List String × Nat :=
  (g.productionNames item.production, item.marker)

def nameState (s : State) : StateByName where
  items := s.items.map g.nameItem
  transitions := s.transitions.toList.map (Prod.map g.nameSymbol id)

def nameAction : Action → NamedAction
  | .shift target => .shift target
  | .reduce p => .reduce (g.productionNames p)
  | .accept => .accept

def nameRow (row : Row) : List (SymbolName × NamedAction) :=
  row.actions.map (Prod.map g.nameSymbol g.nameAction)

def nameConflict (c : Conflict) : ConflictByName where
  state := c.state
  symbol := g.nameSymbol c.symbol
  current := g.productionNames c.current
  other := g.productionNames c.other

/-- The rows of the table by state, before they are cut down to their actions. -/
def fillings : List Filling :=
  g.automaton.states.toList.mapIdx fun id s => Filling.ofState g id g.analysis.follows s

theorem toList_rows : g.compile.table.rows.toList = g.fillings.map Filling.row := by
  simp [compile, tabulate, fillings]

theorem conflicts_tabulate : (g.tabulate g.automaton g.analysis).conflicts =
    g.fillings.flatMap fun f => f.conflicts.toList := by
  simp [tabulate, fillings]

def parserByName : ParserByName where
  states := g.automaton.states.toList.map g.nameState
  rows := g.compile.table.rows.toList.map g.nameRow
  conflicts := (g.tabulate g.automaton g.analysis).conflicts.map g.nameConflict

end Grammar

section Forall₂

variable {α β γ δ : Type} {R : α → β → Prop}

theorem map_eq_map_of_forall₂ {xs : List α} {ys : List β} (hxs : List.Forall₂ R xs ys) {f : α → γ}
    {f' : β → γ} (hf : ∀ a b, R a b → f a = f' b) : xs.map f = ys.map f' := by
  induction hxs with
  | nil => rfl
  | cons hab _ ih => rw [List.map_cons, List.map_cons, hf _ _ hab, ih]

theorem forall₂_mapIdx {xs : List α} {ys : List β} (hxs : List.Forall₂ R xs ys) {S : γ → δ → Prop}
    {f : Nat → α → γ} {f' : Nat → β → δ} (hf : ∀ i a b, R a b → S (f i a) (f' i b)) :
    List.Forall₂ S (xs.mapIdx f) (ys.mapIdx f') := by
  induction hxs generalizing f f' with
  | nil => exact .nil
  | cons hab _ ih =>
    rw [List.mapIdx_cons, List.mapIdx_cons]
    exact .cons (hf 0 _ _ hab) (ih fun i => hf (i + 1))

theorem mapIdx_eq_mapIdx_of_forall₂ {xs : List α} {ys : List β} (hxs : List.Forall₂ R xs ys)
    {f : Nat → α → γ} {f' : Nat → β → γ} (hf : ∀ i a b, R a b → f i a = f' i b) :
    xs.mapIdx f = ys.mapIdx f' := by
  rw [← List.forall₂_eq_eq_eq]
  exact forall₂_mapIdx hxs hf

end Forall₂

namespace Renumbering.Carries

variable {σ : Renumbering} {g h : Grammar} (hσ : σ.Carries g h)

include hσ

theorem nameSymbol (x : Symbol) : h.nameSymbol (σ.symbol x) = g.nameSymbol x := by
  cases x with
  | terminal t => exact congrArg SymbolName.terminal (hσ.terminal_name t)
  | nonterminal n => exact congrArg SymbolName.nonterminal (hσ.nonterminal_name n)

theorem nameItem (item : Item) : h.nameItem (σ.item item) = g.nameItem item := by
  rw [Grammar.nameItem, item_production, hσ.productionNames]
  rfl

theorem nameAction (action : Action) : h.nameAction (σ.action action) = g.nameAction action := by
  cases action with
  | shift target => rfl
  | reduce p => exact congrArg NamedAction.reduce (hσ.productionNames p)
  | accept => rfl

theorem nameConflict (c : Conflict) : h.nameConflict (σ.conflict c) = g.nameConflict c := by
  simp only [Grammar.nameConflict, conflict, hσ.nameSymbol, hσ.productionNames]

theorem nameState {s t : State} (hs : σ.MapsState s t) : g.nameState s = h.nameState t := by
  simp [Grammar.nameState, hs.items_eq, hs.transitions_eq, Renumbering.items, hσ.nameItem,
    hσ.nameSymbol, Function.comp_def]

theorem nameRow {row row' : Row} (hrow : σ.MapsRow row row') : g.nameRow row = h.nameRow row' := by
  rw [Grammar.nameRow, Grammar.nameRow, hrow, List.map_map]
  simp [hσ.nameSymbol, hσ.nameAction, Function.comp_def]

theorem itemText (item : Item) : (σ.item item).text h = item.text g := by
  have hnames : ((σ.item item).right h).toList.map h.symbolName =
      (item.right g).toList.map g.symbolName := hσ.rightNames item.production
  unfold Item.text
  rw [item_production, item_marker, hσ.leftName, hnames]

theorem productionText (p : ProductionId) :
    h.productionText (σ.production p) = g.productionText p := by
  simp only [Grammar.productionText, hσ.rightNames, hσ.leftName]

theorem stateText {s t : State} (hs : σ.MapsState s t) : s.text g = t.text h := by
  simp [State.text, hs.items_eq, hs.transitions_eq, Renumbering.items, hσ.itemText, hσ.symbolName,
    Function.comp_def]

theorem actionText (action : Action) : (σ.action action).text h = action.text g := by
  cases action with
  | shift target => rfl
  | reduce p => simp only [Renumbering.action, Action.text, hσ.productionText]
  | accept => rfl

theorem rowText {row row' : Row} (hrow : σ.MapsRow row row') : row.text g = row'.text h := by
  rw [Row.text, Row.text, hrow, List.map_map]
  simp [hσ.symbolName, hσ.actionText, Function.comp_def]

theorem fillings : List.Forall₂ σ.MapsFilling g.fillings h.fillings :=
  forall₂_mapIdx hσ.states fun id _ _ hs => hσ.ofState hs id

theorem rows :
    List.Forall₂ σ.MapsRow g.compile.table.rows.toList h.compile.table.rows.toList := by
  rw [Grammar.toList_rows, Grammar.toList_rows, List.forall₂_map_left_iff,
    List.forall₂_map_right_iff]
  exact hσ.fillings.imp fun _ _ hf => hf.row

theorem parserByName : g.parserByName = h.parserByName := by
  have hstates := map_eq_map_of_forall₂ hσ.states fun _ _ => hσ.nameState
  have hrows := map_eq_map_of_forall₂ hσ.rows fun _ _ => hσ.nameRow
  have hconflicts : g.fillings.flatMap (fun f => f.conflicts.toList.map g.nameConflict) =
      h.fillings.flatMap fun f => f.conflicts.toList.map h.nameConflict := by
    refine congrArg List.flatten (map_eq_map_of_forall₂ hσ.fillings fun f f' hf => ?_)
    simp [hf.conflicts_eq, hσ.nameConflict, Function.comp_def]
  simp only [Grammar.parserByName, hstates, hrows, Grammar.conflicts_tabulate, List.map_flatMap,
    hconflicts]

theorem automatonText : g.automaton.text g = h.automaton.text h := by
  unfold Automaton.text
  rw [mapIdx_eq_mapIdx_of_forall₂ hσ.states fun id s t hs => by rw [hσ.stateText hs]]

theorem tableText : g.compile.table.text g = h.compile.table.text h := by
  unfold ParseTable.text
  rw [mapIdx_eq_mapIdx_of_forall₂ hσ.rows fun id row row' hrow => by rw [hσ.rowText hrow]]

end Renumbering.Carries

/-- Records that list the same, apart from order and repetitions, declare the same. -/
theorem GrammarRecord.sameDeclarations {r s : GrammarRecord}
    (hnonterminals : r.nonterminals.toFinset = s.nonterminals.toFinset)
    (hsides : r.sides.toFinset = s.sides.toFinset) (hstart : r.start = s.start)
    (hpriorities : r.priorities = s.priorities) :
    SameDeclarations r.declarations s.declarations where
  nonterminal_iff name := by
    rw [exists_nonterminal_declared_iff, exists_nonterminal_declared_iff, ← List.mem_toFinset,
      hnonterminals, List.mem_toFinset]
  sides_iff left right := by
    rw [exists_sides_declared_iff, exists_sides_declared_iff, ← List.mem_toFinset, hsides,
      List.mem_toFinset]
  exists_start := ⟨r.start, last_start_declared r, hstart ▸ last_start_declared s⟩
  priorities_eq := by rw [priorities_declared, priorities_declared, hpriorities]

/-- The order of nonterminals and rules in a record makes no difference to the parser. -/
theorem parserByName_eq_of_toFinset_eq {r s : GrammarRecord} {g h : Grammar}
    (hg : r.toGrammar = .ok g) (hh : s.toGrammar = .ok h)
    (hnonterminals : r.nonterminals.toFinset = s.nonterminals.toFinset)
    (hsides : r.sides.toFinset = s.sides.toFinset) (hstart : r.start = s.start)
    (hpriorities : r.priorities = s.priorities) :
    g.parserByName = h.parserByName ∧ g.compile.automaton.text g = h.compile.automaton.text h ∧
      g.compile.table.text g = h.compile.table.text h := by
  have hsame := GrammarRecord.sameDeclarations hnonterminals hsides hstart hpriorities
  obtain ⟨σ, hσ⟩ := (Grammar.declared_of_ofDeclarations hg).exists_carries
    (Grammar.declared_of_ofDeclarations hh) hsame
  exact ⟨hσ.parserByName, hσ.automatonText, hσ.tableText⟩

/-- Two ways to read one token, which the parser cannot choose between. -/
def ambiguousRecord : GrammarRecord where
  rules := [("S", [⟨["A"], ""⟩, ⟨["B"], ""⟩]), ("A", [⟨["x"], ""⟩]), ("B", [⟨["x"], ""⟩])]
  start := "S"
  resultTypes := [("S", "Int")]

/-- The same with its nonterminals and rules in another order, and one rule twice. -/
def shuffledRecord : GrammarRecord where
  rules := [("B", [⟨["x"], ""⟩, ⟨["x"], ""⟩]), ("A", [⟨["x"], ""⟩]),
    ("S", [⟨["B"], ""⟩, ⟨["A"], ""⟩])]
  start := "S"
  resultTypes := [("S", "Int")]

theorem shuffled_parserByName_eq : ∃ g h, ambiguousRecord.toGrammar = .ok g ∧
    shuffledRecord.toGrammar = .ok h ∧ g.parserByName = h.parserByName ∧
      g.compile.automaton.text g = h.compile.automaton.text h ∧
        g.compile.table.text g = h.compile.table.text h := by
  obtain ⟨g, hg⟩ : ∃ g, ambiguousRecord.toGrammar = .ok g := exists_of_isOk (by decide +kernel)
  obtain ⟨h, hh⟩ : ∃ h, shuffledRecord.toGrammar = .ok h := exists_of_isOk (by decide +kernel)
  exact ⟨g, h, hg, hh, parserByName_eq_of_toFinset_eq hg hh (by decide) (by decide) rfl rfl⟩

end ShiftReduce
