import Mathlib.Data.Option.Basic
import Mathlib.Data.List.Nodup
import ShiftReduce.Grammar.Basic

/-!
# Well-formed grammars

What every grammar keeps that was built from declarations: numbers are in range, the productions of
a nonterminal are listed with it, production 0 alone belongs to the goal, and the symbols that
productions mention are told apart by their names.
-/

namespace ShiftReduce.Grammar

variable {g : Grammar}

@[simp] theorem mem_terminalIds {t : TerminalId} :
    t ∈ g.terminalIds ↔ t.index < g.terminals.size := by
  obtain ⟨i⟩ := t
  simp [terminalIds]

@[simp] theorem mem_nonterminalIds {n : NonterminalId} :
    n ∈ g.nonterminalIds ↔ n.index < g.nonterminals.size := by
  obtain ⟨i⟩ := n
  simp [nonterminalIds]

@[simp] theorem mem_productionIds {p : ProductionId} :
    p ∈ g.productionIds ↔ p.index < g.productions.size := by
  obtain ⟨i⟩ := p
  simp [productionIds]

theorem nodup_productionIds : g.productionIds.Nodup :=
  List.nodup_range.map fun _ _ => ProductionId.mk.inj

/-- Passes go through the productions themselves rather than their numbers. -/
theorem mem_toList_productions {production : Production} :
    production ∈ g.productions.toList ↔ ∃ p ∈ g.productionIds, g.production p = production := by
  rw [Array.mem_toList_iff, Array.mem_iff_getElem]
  constructor
  · rintro ⟨i, hi, rfl⟩
    exact ⟨⟨i⟩, mem_productionIds.mpr hi, by simp [Grammar.production, hi]⟩
  · rintro ⟨p, hp, rfl⟩
    have hp := mem_productionIds.mp hp
    exact ⟨p.index, hp, by simp [Grammar.production, hp]⟩

/-- The symbol stands on the right-hand side of some production. -/
def Mentions (g : Grammar) (x : Symbol) : Prop :=
  ∃ p ∈ g.productionIds, x ∈ (g.production p).right

theorem mentions_of_mem {p : ProductionId} (hp : p ∈ g.productionIds) {x : Symbol}
    (hx : x ∈ (g.production p).right.toList) : g.Mentions x :=
  ⟨p, hp, Array.mem_toList_iff.mp hx⟩

theorem mentions_of_mem_productions {production : Production}
    (hproduction : production ∈ g.productions.toList) {x : Symbol}
    (hx : x ∈ production.right.toList) : g.Mentions x := by
  obtain ⟨p, hp, rfl⟩ := mem_toList_productions.mp hproduction
  exact mentions_of_mem hp hx

instance (g : Grammar) (x : Symbol) : Decidable (g.Mentions x) :=
  inferInstanceAs (Decidable (∃ p ∈ g.productionIds, x ∈ (g.production p).right))

/-- No right-hand side mentions the goal or the end of input. -/
structure ReservedFree (g : Grammar) : Prop where
  goal_not_mentioned : ¬ g.Mentions (.nonterminal .goal)
  endOfInput_not_mentioned : ¬ g.Mentions (.terminal .endOfInput)

structure WellFormed (g : Grammar) : Prop where
  endOfInput_mem : TerminalId.endOfInput ∈ g.terminalIds
  goal_mem : ProductionId.goal ∈ g.productionIds
  goal_production : g.production .goal = ⟨.goal, #[.nonterminal g.start], ""⟩
  /-- The goal has no production but its own. -/
  eq_goal_of_left : ∀ p ∈ g.productionIds, (g.production p).left = .goal → p = .goal
  /-- The productions listed with a nonterminal are those with it on the left. -/
  mem_productions_iff : ∀ n p, p ∈ (g.nonterminal n).productions ↔
    p ∈ g.productionIds ∧ (g.production p).left = n
  left_mem : ∀ p ∈ g.productionIds, (g.production p).left ∈ g.nonterminalIds
  /-- No two productions have the same sides. -/
  eq_of_sides : ∀ p ∈ g.productionIds, ∀ q ∈ g.productionIds,
    (g.production p).left = (g.production q).left →
      (g.production p).right = (g.production q).right → p = q
  /-- A nonterminal is found by its name. -/
  symbol?_nonterminal : ∀ n ∈ g.nonterminalIds,
    g.symbol? (g.nonterminal n).name = some (.nonterminal n)
  /-- So is every symbol that some production mentions. -/
  symbol?_mentioned : ∀ x, g.Mentions x → g.symbol? (g.symbolName x) = some x

/-- The symbol has a number of the grammar. -/
def HasSymbol (g : Grammar) : Symbol → Prop
  | .terminal t => t ∈ g.terminalIds
  | .nonterminal n => n ∈ g.nonterminalIds

theorem symbolName_of_symbol? {name : String} {x : Symbol} (hx : g.symbol? name = some x) :
    g.symbolName x = name := by
  unfold symbol? at hx
  split at hx
  next i hi =>
    obtain rfl := Option.some.inj hx
    obtain ⟨hlt, hname, -⟩ := Array.findIdx?_eq_some_iff_getElem.mp hi
    simpa [symbolName, nonterminal, hlt] using hname
  next hnone =>
    obtain ⟨i, hi, rfl⟩ := Option.map_eq_some_iff.mp hx
    obtain ⟨hlt, hname, -⟩ := Array.findIdx?_eq_some_iff_getElem.mp hi
    simpa [symbolName, terminal, hlt] using hname

theorem hasSymbol_of_symbol? {name : String} {x : Symbol} (hx : g.symbol? name = some x) :
    g.HasSymbol x := by
  unfold symbol? at hx
  split at hx
  next i hi =>
    obtain rfl := Option.some.inj hx
    exact mem_nonterminalIds.mpr (Array.findIdx?_eq_some_iff_findIdx_eq.mp hi).1
  next hnone =>
    obtain ⟨i, hi, rfl⟩ := Option.map_eq_some_iff.mp hx
    exact mem_terminalIds.mpr (Array.findIdx?_eq_some_iff_findIdx_eq.mp hi).1

/-- Reserved numbers and those that productions use are numbers of the grammar. -/
structure InRange (g : Grammar) : Prop where
  endOfInput_mem : TerminalId.endOfInput ∈ g.terminalIds
  goal_mem_nonterminalIds : NonterminalId.goal ∈ g.nonterminalIds
  left_mem : ∀ p ∈ g.productionIds, (g.production p).left ∈ g.nonterminalIds
  hasSymbol_of_mentions : ∀ x, g.Mentions x → g.HasSymbol x

namespace WellFormed

variable (hg : g.WellFormed)

include hg

theorem goal_mem_nonterminalIds : NonterminalId.goal ∈ g.nonterminalIds := by
  have hleft := hg.left_mem .goal hg.goal_mem
  rwa [hg.goal_production] at hleft

theorem mentions_start : g.Mentions (.nonterminal g.start) :=
  mentions_of_mem hg.goal_mem (by simp [hg.goal_production])

theorem eq_of_symbolName {x y : Symbol} (hx : g.Mentions x) (hy : g.Mentions y)
    (hname : g.symbolName x = g.symbolName y) : x = y := by
  have hfound := hg.symbol?_mentioned x hx
  rw [hname, hg.symbol?_mentioned y hy] at hfound
  exact (Option.some.inj hfound).symm

theorem eq_of_nonterminal_name {m n : NonterminalId} (hm : m ∈ g.nonterminalIds)
    (hn : n ∈ g.nonterminalIds) (hname : (g.nonterminal m).name = (g.nonterminal n).name) :
    m = n := by
  have hfound := hg.symbol?_nonterminal m hm
  rw [hname, hg.symbol?_nonterminal n hn] at hfound
  exact (Symbol.nonterminal.inj (Option.some.inj hfound)).symm

theorem hasSymbol_of_mentions {x : Symbol} (hx : g.Mentions x) : g.HasSymbol x :=
  hasSymbol_of_symbol? (hg.symbol?_mentioned x hx)

theorem mem_terminalIds_of_mentions {t : TerminalId} (ht : g.Mentions (.terminal t)) :
    t ∈ g.terminalIds :=
  hg.hasSymbol_of_mentions ht

theorem inRange : g.InRange where
  endOfInput_mem := hg.endOfInput_mem
  goal_mem_nonterminalIds := hg.goal_mem_nonterminalIds
  left_mem := hg.left_mem
  hasSymbol_of_mentions _ := hg.hasSymbol_of_mentions

/-- The names on a right-hand side are enough to find its symbols. -/
theorem map_symbol?_names {p : ProductionId} (hp : p ∈ g.productionIds) :
    ((g.production p).right.toList.map g.symbolName).map g.symbol? =
      (g.production p).right.toList.map some := by
  rw [List.map_map]
  apply List.map_congr_left
  intro x hx
  exact hg.symbol?_mentioned x ⟨p, hp, Array.mem_toList_iff.mp hx⟩

/-- Productions are told apart by the names that they are made of. -/
theorem eq_of_productionNames {p q : ProductionId} (hp : p ∈ g.productionIds)
    (hq : q ∈ g.productionIds) (hnames : g.productionNames p = g.productionNames q) : p = q := by
  obtain ⟨hleft, hright⟩ := List.cons.inj hnames
  refine hg.eq_of_sides p hp q hq
    (hg.eq_of_nonterminal_name (hg.left_mem p hp) (hg.left_mem q hq) hleft) ?_
  have hsymbols := hg.map_symbol?_names hp
  rw [hright, hg.map_symbol?_names hq] at hsymbols
  exact Array.toList_inj.mp (List.map_injective_iff.mpr (Option.some_injective _) hsymbols).symm

end WellFormed

end ShiftReduce.Grammar
