import Mathlib.Data.List.Nodup
import ShiftReduce.Proofs.Analysis.Follow
import ShiftReduce.Proofs.Grammar.Declared
import ShiftReduce.Proofs.Table.Entry

/-!
# The rows of an artifact

A row of the artifact has the entries of the table's row in another order, with names in place of
numbers. The name of a symbol and whether it is a terminal tell it apart from all other symbols, so
an entry is found by them where the table has one.
-/

namespace ShiftReduce

variable {g : Grammar}

namespace Grammar

namespace Declared

variable {declarations : List Declaration} (hg : g.Declared declarations)

include hg

theorem nodup_terminal_names : (g.terminals.toList.map Terminal.name).Nodup := by
  obtain ⟨names, hnames, hascending, hmem⟩ := hg.exists_terminal_names
  rw [hnames]
  exact List.nodup_cons.mpr
    ⟨fun hend => ((hmem _).mp hend).1 rfl, nodup_of_pairwise_lt _ hascending⟩

theorem eq_of_terminal_name {s t : TerminalId} (hs : s ∈ g.terminalIds) (ht : t ∈ g.terminalIds)
    (hname : (g.terminal s).name = (g.terminal t).name) : s = t := by
  have hget {u : TerminalId} (hu : u ∈ g.terminalIds) :
      (g.terminals.toList.map Terminal.name)[u.index]? = some (g.terminal u).name := by
    rw [List.getElem?_map, Array.getElem?_toList, Array.getElem?_eq_getElem (mem_terminalIds.mp hu)]
    simp [Grammar.terminal, mem_terminalIds.mp hu]
  have hplace := (List.getElem?_inj (by simpa using mem_terminalIds.mp hs)
    hg.nodup_terminal_names).mp ((hget hs).trans (hname ▸ (hget ht).symm))
  cases s
  cases t
  exact congrArg TerminalId.mk hplace

/-- A nonterminal and a terminal may share a name, but no two symbols of one kind do. -/
theorem eq_of_symbolName {x y : Symbol} (hx : g.HasSymbol x) (hy : g.HasSymbol y)
    (hname : g.symbolName x = g.symbolName y) (hkind : x.isTerminal = y.isTerminal) : x = y := by
  cases x with
  | terminal s =>
    cases y with
    | terminal t => exact congrArg Symbol.terminal (hg.eq_of_terminal_name hx hy hname)
    | nonterminal n => cases hkind
  | nonterminal m =>
    cases y with
    | terminal t => cases hkind
    | nonterminal n =>
      exact congrArg Symbol.nonterminal (hg.wellFormed.eq_of_nonterminal_name hx hy hname)

end Declared

end Grammar

namespace ParseTable

variable {q : StateId} {x : Symbol} {action : Action}

theorem nodup_symbols (q : StateId) : ((g.compile.table.row q).actions.map Prod.fst).Nodup := by
  by_cases hq : q < g.automaton.states.size
  · rw [row_compile hq, Filling.row, List.map_map]
    exact OrderedMap.nodup_keys _
  · rw [row_compile_of_not_lt hq]
    exact List.nodup_nil

theorem mem_actions_iff :
    (x, action) ∈ (g.compile.table.row q).actions ↔ g.compile.table.action? q x = some action :=
  (lookup_eq_some_iff_mem (nodup_symbols q)).symm

theorem hasSymbol_of_action? (hg : g.WellFormed)
    (haction : g.compile.table.action? q x = some action) : g.HasSymbol x := by
  rcases shift_or_completion haction with ⟨target, htarget, -⟩ | ⟨t, item, rfl, hready, -⟩
  · exact hg.hasSymbol_of_mentions (mentions_of_target? hg (lt_size_of_action? haction) htarget)
  · exact Grammar.mem_terminalIds_of_follow hg hready.mem_follow

theorem mem_productionIds_of_reduce (hg : g.WellFormed) {p : ProductionId}
    (hreduce : g.compile.table.action? q x = some (.reduce p)) : p ∈ g.productionIds := by
  obtain ⟨-, t, item, -, hready, rfl⟩ := exists_ready_of_reduce hreduce
  exact hready.production_mem hg

end ParseTable

namespace Artifact

/-- The row of a state. -/
def rowOf (a : Artifact) (q : StateId) : List TableEntry :=
  a.actionTable.getD q []

/-- The entry of a state for the symbol of a kind that has a name. -/
def entry? (a : Artifact) (q : StateId) (name : String) (terminal : Bool) : Option TableEntry :=
  (a.rowOf q).find? fun e => e.symbol == name && e.terminal == terminal

theorem length_actionTable :
    g.compile.artifact.actionTable.length = g.compile.table.rows.size :=
  List.length_map _

/-- A row has an entry for each action of the table's row and no other. -/
theorem perm_rowOf (q : StateId) : (g.compile.artifact.rowOf q).Perm
    ((g.compile.table.row q).actions.map (entry g (g.plans g.automaton))) := by
  have hrow : g.compile.artifact.rowOf q =
      row g (g.plans g.automaton) (g.compile.table.row q) := by
    simp only [rowOf, Grammar.compile, Grammar.artifact, ParseTable.row,
      List.getD_eq_getElem?_getD, List.getElem?_map, Array.getElem?_toList,
      Array.getD_eq_getD_getElem?]
    cases (g.tabulate g.automaton g.analysis).table.rows[q]? <;> rfl
  rw [hrow]
  exact perm_sortBy _ _

theorem mem_rowOf_iff {q : StateId} {e : TableEntry} : e ∈ g.compile.artifact.rowOf q ↔
    ∃ x action, g.compile.table.action? q x = some action ∧
      entry g (g.plans g.automaton) (x, action) = e := by
  simp only [(perm_rowOf q).mem_iff, List.mem_map, Prod.exists, ParseTable.mem_actions_iff]

section Names

variable {declarations : List Declaration} (hg : g.Declared declarations) {q : StateId}

include hg

/-- No row has two entries for the symbol of a kind that has a name. -/
theorem nodup_names (q : StateId) :
    ((g.compile.artifact.rowOf q).map fun e => (e.symbol, e.terminal)).Nodup := by
  rw [((perm_rowOf q).map _).nodup_iff, List.map_map]
  refine List.Nodup.map_on ?_ (List.Nodup.of_map _ (ParseTable.nodup_symbols q))
  rintro ⟨x, action⟩ hx ⟨y, other⟩ hy hsame
  obtain ⟨hname, hkind⟩ := Prod.mk.inj hsame
  have haction := ParseTable.mem_actions_iff.mp hx
  have hother := ParseTable.mem_actions_iff.mp hy
  obtain rfl := hg.eq_of_symbolName (ParseTable.hasSymbol_of_action? hg.wellFormed haction)
    (ParseTable.hasSymbol_of_action? hg.wellFormed hother) hname hkind
  rw [Option.some.inj (haction.symm.trans hother)]

/-- Looking up the name of a symbol finds what the table has for the symbol. -/
theorem entry?_symbolName {x : Symbol} (hx : g.HasSymbol x) :
    g.compile.artifact.entry? q (g.symbolName x) x.isTerminal =
      (g.compile.table.action? q x).map fun action =>
        entry g (g.plans g.automaton) (x, action) := by
  have hfound : ∀ y action, g.compile.table.action? q y = some action →
      g.symbolName y = g.symbolName x → y.isTerminal = x.isTerminal → y = x :=
    fun y action haction hname hkind =>
      hg.eq_of_symbolName (ParseTable.hasSymbol_of_action? hg.wellFormed haction) hx hname hkind
  cases hentry : g.compile.artifact.entry? q (g.symbolName x) x.isTerminal with
  | some e =>
    have hkey := List.find?_some hentry
    obtain ⟨y, action, haction, rfl⟩ := mem_rowOf_iff.mp (List.mem_of_find?_eq_some hentry)
    rw [Bool.and_eq_true, beq_iff_eq, beq_iff_eq] at hkey
    obtain rfl := hfound y action haction hkey.1 hkey.2
    rw [haction, Option.map_some]
  | none =>
    have hnone := List.find?_eq_none.mp hentry
    cases haction : g.compile.table.action? q x with
    | none => rfl
    | some action =>
      refine absurd ?_ (hnone _ (mem_rowOf_iff.mpr ⟨x, action, haction, rfl⟩))
      simp [entry]

end Names

end Artifact

end ShiftReduce
