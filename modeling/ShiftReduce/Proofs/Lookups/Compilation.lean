import ShiftReduce.Proofs.Lookups.Plans
import ShiftReduce.Proofs.Lookups.Table
import ShiftReduce.Proofs.Table.Conflicts
import ShiftReduce.Report.Compilation

/-!
# Checked compilation

Diagnostics and artifact put names for the numbers that the stages before them have computed, all of
which are numbers of the grammar. So a compilation that checks every lookup on its way computes the
same as one that checks none, for every grammar that was built from declarations.
-/

namespace ShiftReduce

namespace Grammar

section Reading

variable (g : Grammar)

def readProductionText (p : ProductionId) : Option String := do
  let production ← g.readProduction p
  let left ← g.readNonterminal production.left
  let names ← production.right.toList.mapM g.readSymbolName
  some (left.name ++ " ->" ++ spaced names)

def readItemText (item : Item) : Option String := do
  let production ← g.readProduction item.production
  let left ← g.readNonterminal production.left
  let names ← production.right.toList.mapM g.readSymbolName
  let marked :=
    if item.marker ≤ names.length then names.take item.marker ++ "." :: names.drop item.marker
    else names
  some (left.name ++ " ->" ++ spaced marked)

def readSortedNames (s : TerminalSet) : Option (List String) := do
  let terminals ← s.toList.mapM g.readTerminal
  some (sortByName id (terminals.map Terminal.name))

def readNamedSets (family : TerminalFamily) : Option (List (String × List String)) :=
  g.nonterminalIds.mapM fun n => do
    let nonterminal ← g.readNonterminal n
    let set ← family.read n
    let names ← g.readSortedNames set
    some (nonterminal.name, names)

def readNamedConflict (c : Conflict) : Option NamedConflict := do
  let symbol ← g.readSymbolName c.symbol
  let current ← g.readProductionText c.current
  let other ← g.readProductionText c.other
  some { state := c.state, symbol, current, other }

def readDiagnostics (analysis : Analysis) (a : Automaton) (conflicts : List Conflict) :
    Option Diagnostics := do
  let nullables ← (g.nonterminalIds.filter analysis.nullables.contains).mapM g.readNonterminal
  let firstSets ← g.readNamedSets analysis.firsts
  let followSets ← g.readNamedSets analysis.follows
  let states ← a.states.toList.mapM fun s => s.items.mapM g.readItemText
  let conflicts ← conflicts.mapM g.readNamedConflict
  some {
    nullables := nullables.map Nonterminal.name
    firstSets
    followSets
    states
    conflicts
    emptyNonterminals :=
      (g.nonterminals.toList.filter (·.productions.isEmpty)).map Nonterminal.name }

def readEntryAction (plans : Plans) : Action → Option EntryAction
  | .shift target => some (.shift target)
  | .reduce p => do
    let production ← g.readProduction p
    let left ← g.readNonterminal production.left
    let name ← readNameIn plans.names p
    some (.reduce left.name production.right.size (thunkName name))
  | .accept => some .accept

def readEntry (plans : Plans) (slot : Symbol × Action) : Option TableEntry := do
  let symbol ← g.readSymbolName slot.1
  let action ← g.readEntryAction plans slot.2
  some { symbol, terminal := slot.1.isTerminal, action }

def readArtifact (table : ParseTable) (plans : Plans) : Option Artifact := do
  let goal ← g.readNonterminal .goal
  let returnField ← g.readField .goal
  let rows ← table.rows.toList.mapM fun row => row.actions.mapM (g.readEntry plans)
  some {
    parserName := g.settings.parserName
    verbose := g.settings.verbose
    headerExtras := g.settings.headerExtras
    returnType := goal.resultType.getD ""
    returnField := returnField.getD ""
    nonterminals := g.nonterminals.toList.map Nonterminal.name
    fields := g.fields
    actionTable := rows.map (sortByName TableEntry.symbol)
    handlers := plans.handlers
    thunks := plans.thunks }

/-- `compile` with every lookup checked, and every marker before it is advanced. -/
def readCompilation : Option Compilation := do
  let analysis ← g.readAnalysis
  let automaton ← g.readAutomaton
  let tabulation ← g.readTabulation automaton analysis
  let plans ← g.readPlans automaton
  let artifact ← g.readArtifact tabulation.table plans
  let diagnostics ← g.readDiagnostics analysis automaton tabulation.conflicts
  some { automaton, table := tabulation.table, artifact, diagnostics }

end Reading

variable {g : Grammar} (hg : g.WellFormed)

include hg

section Diagnostics

theorem readProductionText_eq {p : ProductionId} (hp : p ∈ g.productionIds) :
    g.readProductionText p = some (g.productionText p) := by
  simp only [readProductionText, readProduction_eq hp, hg.readLeft_eq hp, hg.readRightNames_eq hp,
    Option.bind_eq_bind, Option.bind_some]
  rfl

theorem readItemText_eq {item : Item} (hitem : item.production ∈ g.productionIds) :
    g.readItemText item = some (item.text g) := by
  simp only [readItemText, readProduction_eq hitem, hg.readLeft_eq hitem,
    hg.readRightNames_eq hitem, Option.bind_eq_bind, Option.bind_some]
  rfl

omit hg in
theorem readSortedNames_eq {s : TerminalSet} (hs : ∀ t ∈ s, t ∈ g.terminalIds) :
    g.readSortedNames s = some (Diagnostics.sortedNames g s) := by
  have hread : ∀ t ∈ s.toList, g.readTerminal t = some (g.terminal t) := fun t ht =>
    readTerminal_eq (hs t (TerminalSet.mem_toList.mp ht))
  rw [readSortedNames, mapM_eq_some hread, Option.bind_eq_bind, Option.bind_some, List.map_map]
  rfl

omit hg in
theorem readNamedSets_eq {family : TerminalFamily} (hfamily : family.Covers g)
    (hmem : ∀ n t, t ∈ family.get n → t ∈ g.terminalIds) :
    g.readNamedSets family = some (Diagnostics.namedSets g family) := by
  apply mapM_eq_some
  intro n hn
  simp only [readNonterminal_eq hn, hfamily.read_eq hn, readSortedNames_eq (hmem n),
    Option.bind_eq_bind, Option.bind_some]

theorem readNamedConflict_eq {c : Conflict} (hc : c ∈ g.conflicts) :
    g.readNamedConflict c = some (Diagnostics.namedConflict g c) := by
  obtain ⟨hq, before, p, hinitial, hclash⟩ := mem_conflicts_iff.mp hc
  obtain ⟨t, ht, current, hcurrent, heq⟩ := Filling.mem_clashes.mp hclash
  have hcompleted : ∀ other ∈ before ++ [p], other ∈ g.productionIds := by
    intro other hother
    obtain ⟨item, hitem, -, rfl⟩ := mem_completions.mp (hinitial.subset hother)
    exact Automaton.hasItems_items hg hq item hitem
  have hbefore := (Filling.mem_of_reduction? hcurrent).1
  rw [heq, readNamedConflict, Diagnostics.namedConflict,
    readSymbolName_eq (x := .terminal t) (mem_terminalIds_of_follow hg ht),
    readProductionText_eq hg (hcompleted current (List.mem_append_left _ hbefore)),
    readProductionText_eq hg (hcompleted p (List.mem_append_right _ List.mem_cons_self))]
  rfl

theorem readDiagnostics_eq : g.readDiagnostics g.analysis g.automaton g.conflicts =
    some (g.diagnostics g.analysis g.automaton g.conflicts) := by
  have hnullables : ∀ n ∈ g.nonterminalIds.filter g.analysis.nullables.contains,
      g.readNonterminal n = some (g.nonterminal n) := fun n hn =>
    readNonterminal_eq (List.mem_filter.mp hn).1
  have hfirsts := readNamedSets_eq (covers_firsts hg)
    (firstPass_firstsWith hg g.nullables).1.mem_of_mem
  have hfollows := readNamedSets_eq (covers_follows hg) fun n t => mem_terminalIds_of_follow hg
  have hstates : g.automaton.states.toList.mapM (fun s => s.items.mapM g.readItemText) =
      some (g.automaton.states.toList.map fun s => s.items.map (Item.text g)) := by
    apply mapM_eq_some
    intro s hs
    obtain ⟨q, hq, rfl⟩ := Automaton.mem_toList_states.mp hs
    exact mapM_eq_some fun item hitem =>
      readItemText_eq hg (Automaton.hasItems_items hg hq item hitem)
  simp only [readDiagnostics, mapM_eq_some hnullables, hfirsts, hfollows, hstates,
    mapM_eq_some fun c hc => readNamedConflict_eq hg hc, Option.bind_eq_bind, Option.bind_some,
    List.map_map]
  rfl

end Diagnostics

section Artifact

theorem readEntryAction_eq {q : StateId} {x : Symbol} {action : Action}
    (haction : g.compile.table.action? q x = some action) :
    g.readEntryAction (g.plans g.automaton) action =
      some (Artifact.entryAction g (g.plans g.automaton) action) := by
  cases action with
  | shift target => rfl
  | accept => rfl
  | reduce p =>
    have hp := ParseTable.mem_productionIds_of_reduce hg haction
    have hdeclared :=
      Automaton.mem_declaredIds_of_mem_reductions hg (mem_reductions_of_reduce haction)
    have hname : readNameIn (g.plans g.automaton).names p =
        some ((g.plans g.automaton).handlerName p) := readNameIn_eq hdeclared
    simp only [readEntryAction, readProduction_eq hp, hg.readLeft_eq hp, hname,
      Option.bind_eq_bind, Option.bind_some]
    rfl

theorem readEntry_eq {q : StateId} {slot : Symbol × Action}
    (hslot : slot ∈ (g.compile.table.row q).actions) :
    g.readEntry (g.plans g.automaton) slot =
      some (Artifact.entry g (g.plans g.automaton) slot) := by
  have haction := ParseTable.mem_actions_iff.mp hslot
  simp only [readEntry, readSymbolName_eq (ParseTable.hasSymbol_of_action? hg haction),
    readEntryAction_eq hg haction, Option.bind_eq_bind, Option.bind_some]
  rfl

theorem readArtifact_eq : g.readArtifact g.compile.table (g.plans g.automaton) =
    some (g.artifact g.compile.table (g.plans g.automaton)) := by
  have hrows : g.compile.table.rows.toList.mapM
      (fun row => row.actions.mapM (g.readEntry (g.plans g.automaton))) =
      some (g.compile.table.rows.toList.map fun row =>
        row.actions.map (Artifact.entry g (g.plans g.automaton))) := by
    apply mapM_eq_some
    intro row hrow
    obtain ⟨q, hq, rfl⟩ := Array.mem_iff_getElem.mp (Array.mem_toList_iff.mp hrow)
    have heq : g.compile.table.row q = g.compile.table.rows[q] := by
      simp [ParseTable.row, hq]
    exact mapM_eq_some fun slot hslot => readEntry_eq hg (heq ▸ hslot)
  simp only [readArtifact, readNonterminal_eq hg.goal_mem_nonterminalIds,
    readField_eq hg.goal_mem_nonterminalIds, hrows, Option.bind_eq_bind, Option.bind_some,
    List.map_map]
  rfl

end Artifact

theorem readCompilation_eq (hshort : g.IsShort) : g.readCompilation = some g.compile := by
  have hartifact : g.readArtifact (g.tabulate g.automaton g.analysis).table (g.plans g.automaton) =
      _ := readArtifact_eq hg
  have hdiagnostics : g.readDiagnostics g.analysis g.automaton
      (g.tabulate g.automaton g.analysis).conflicts = _ := readDiagnostics_eq hg
  simp only [readCompilation, readAnalysis_eq hg, readAutomaton_eq hg hshort, readTabulation_eq hg,
    readPlans_eq hg, hartifact, hdiagnostics, Option.bind_eq_bind, Option.bind_some]
  rfl

end Grammar

/-- The checked compilation succeeds with the same result, and no marker passes its end. -/
structure CompilesChecked (g : Grammar) : Prop where
  readCompilation_eq : g.readCompilation = some g.compile
  marker_le : ∀ q < g.automaton.states.size, ∀ item ∈ (g.automaton.state q).items,
    item.marker ≤ (item.right g).size ∧ (item.right g).size ≤ sizeLimit

/-- Every grammar that was built from declarations is compiled without a failing lookup. -/
theorem compilesChecked {declarations : List Declaration} {g : Grammar}
    (hg : Grammar.ofDeclarations declarations = .ok g) : CompilesChecked g := by
  have hformed := Grammar.wellFormed_of_ofDeclarations hg
  have hshort := Grammar.isShort_of_ofDeclarations hg
  refine ⟨Grammar.readCompilation_eq hformed hshort, ?_⟩
  intro q hq item hitem
  obtain ⟨symbols, hholds⟩ := (Automaton.isReachedSet_items hformed hq).holds
  obtain ⟨-, -, hmarker, -⟩ := ((hholds item).mp hitem).exists_start
  exact ⟨hmarker, hshort item.production (Automaton.hasItems_items hformed hq item hitem)⟩

theorem brackets_compilesChecked :
    Grammar.ofDeclarations bracketDeclarations = .ok brackets ∧ CompilesChecked brackets :=
  ⟨ofDeclarations_brackets, compilesChecked ofDeclarations_brackets⟩

end ShiftReduce
