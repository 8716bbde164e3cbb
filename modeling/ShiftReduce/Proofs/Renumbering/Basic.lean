import Mathlib.Logic.Equiv.Defs
import ShiftReduce.Proofs.Analysis.FollowExact
import ShiftReduce.Proofs.Automaton.ItemOrder

/-!
# Renumberings

A renumbering gives nonterminals and productions other numbers and leaves terminals alone. Between
grammars that say the same under different numbers it carries items, the symbols behind their
markers and the order of items, and with derivations also FOLLOW.
-/

namespace ShiftReduce

structure Renumbering where
  nonterminal : Equiv.Perm NonterminalId
  production : Equiv.Perm ProductionId

namespace Renumbering

variable (σ : Renumbering)

/-- The renumbering back. -/
def symm : Renumbering where
  nonterminal := σ.nonterminal.symm
  production := σ.production.symm

def symbol : Symbol → Symbol
  | .terminal t => .terminal t
  | .nonterminal n => .nonterminal (σ.nonterminal n)

def item (i : Item) : Item :=
  { i with production := σ.production i.production }

def items : List Item → List Item :=
  List.map σ.item

@[simp] theorem symbol_terminal (t : TerminalId) : σ.symbol (.terminal t) = .terminal t := rfl

@[simp] theorem symbol_nonterminal (n : NonterminalId) :
    σ.symbol (.nonterminal n) = .nonterminal (σ.nonterminal n) := rfl

@[simp] theorem item_production (i : Item) :
    (σ.item i).production = σ.production i.production := rfl

@[simp] theorem item_marker (i : Item) : (σ.item i).marker = i.marker := rfl

@[simp] theorem item_start (p : ProductionId) : σ.item (.start p) = .start (σ.production p) := rfl

@[simp] theorem item_advance (i : Item) : σ.item i.advance = (σ.item i).advance := rfl

@[simp] theorem symm_nonterminal (n : NonterminalId) :
    σ.symm.nonterminal (σ.nonterminal n) = n :=
  σ.nonterminal.symm_apply_apply n

@[simp] theorem symm_production (p : ProductionId) :
    σ.symm.production (σ.production p) = p :=
  σ.production.symm_apply_apply p

@[simp] theorem symm_symbol (x : Symbol) : σ.symm.symbol (σ.symbol x) = x := by
  cases x with
  | terminal t => rfl
  | nonterminal n => simp

@[simp] theorem symbol_symm (x : Symbol) : σ.symbol (σ.symm.symbol x) = x :=
  σ.symm.symm_symbol x

@[simp] theorem symm_item (i : Item) : σ.symm.item (σ.item i) = i := by
  simp [item]

@[simp] theorem item_symm (i : Item) : σ.item (σ.symm.item i) = i :=
  σ.symm.symm_item i

theorem symbol_eq_id (hsame : σ.nonterminal = .refl _) : σ.symbol = id := by
  funext x
  cases x with
  | terminal t => rfl
  | nonterminal n => rw [symbol_nonterminal, hsame]; rfl

theorem symbol_injective : Function.Injective σ.symbol :=
  Function.LeftInverse.injective σ.symm_symbol

theorem item_injective : Function.Injective σ.item :=
  Function.LeftInverse.injective σ.symm_item

theorem items_injective : Function.Injective σ.items :=
  List.map_injective_iff.mpr σ.item_injective

theorem item_mem_items {i : Item} {items : List Item} : σ.item i ∈ σ.items items ↔ i ∈ items :=
  List.mem_map_of_injective σ.item_injective

/-- The second grammar says under the new numbers what the first says under the old ones. Of ranks
only the order counts. -/
structure Carries (g h : Grammar) : Prop where
  source_wellFormed : g.WellFormed
  target_wellFormed : h.WellFormed
  terminal_name : ∀ t, (h.terminal t).name = (g.terminal t).name
  nonterminal_name : ∀ n, (h.nonterminal (σ.nonterminal n)).name = (g.nonterminal n).name
  nonterminal_goal : σ.nonterminal .goal = .goal
  production_goal : σ.production .goal = .goal
  mem_nonterminalIds_iff : ∀ n, σ.nonterminal n ∈ h.nonterminalIds ↔ n ∈ g.nonterminalIds
  mem_productionIds_iff : ∀ p, σ.production p ∈ h.productionIds ↔ p ∈ g.productionIds
  left : ∀ p, (h.production (σ.production p)).left = σ.nonterminal (g.production p).left
  right : ∀ p, (h.production (σ.production p)).right = (g.production p).right.map σ.symbol
  rank_le_iff : ∀ p q, h.rank (σ.production p) ≤ h.rank (σ.production q) ↔ g.rank p ≤ g.rank q

namespace Carries

variable {σ} {g h : Grammar} (hσ : σ.Carries g h)

include hσ

theorem symm : σ.symm.Carries h g where
  source_wellFormed := hσ.target_wellFormed
  target_wellFormed := hσ.source_wellFormed
  terminal_name t := (hσ.terminal_name t).symm
  nonterminal_name n := by
    obtain ⟨n, rfl⟩ := σ.nonterminal.surjective n
    rw [symm_nonterminal, hσ.nonterminal_name]
  nonterminal_goal := by
    rw [← hσ.nonterminal_goal, symm_nonterminal]
    exact hσ.nonterminal_goal.symm
  production_goal := by
    rw [← hσ.production_goal, symm_production]
    exact hσ.production_goal.symm
  mem_nonterminalIds_iff n := by
    obtain ⟨n, rfl⟩ := σ.nonterminal.surjective n
    rw [symm_nonterminal, hσ.mem_nonterminalIds_iff]
  mem_productionIds_iff p := by
    obtain ⟨p, rfl⟩ := σ.production.surjective p
    rw [symm_production, hσ.mem_productionIds_iff]
  left p := by
    obtain ⟨p, rfl⟩ := σ.production.surjective p
    rw [symm_production, hσ.left, symm_nonterminal]
  right p := by
    obtain ⟨p, rfl⟩ := σ.production.surjective p
    rw [symm_production, hσ.right, Array.map_map]
    simp [Function.comp_def]
  rank_le_iff p q := by
    obtain ⟨p, rfl⟩ := σ.production.surjective p
    obtain ⟨q, rfl⟩ := σ.production.surjective q
    rw [symm_production, symm_production, hσ.rank_le_iff]

theorem symbolName (x : Symbol) : h.symbolName (σ.symbol x) = g.symbolName x := by
  cases x with
  | terminal t => exact hσ.terminal_name t
  | nonterminal n => exact hσ.nonterminal_name n

/-- The names on a right-hand side. -/
theorem rightNames (p : ProductionId) :
    (h.production (σ.production p)).right.toList.map h.symbolName =
      (g.production p).right.toList.map g.symbolName := by
  rw [hσ.right, Array.toList_map, List.map_map]
  exact List.map_congr_left fun x _ => hσ.symbolName x

theorem leftName (p : ProductionId) :
    (h.nonterminal (h.production (σ.production p)).left).name =
      (g.nonterminal (g.production p).left).name := by
  rw [hσ.left, hσ.nonterminal_name]

theorem productionNames (p : ProductionId) :
    h.productionNames (σ.production p) = g.productionNames p := by
  rw [Grammar.productionNames, hσ.leftName, hσ.rightNames]
  rfl

section Items

theorem next? (i : Item) : (σ.item i).next? h = (i.next? g).map σ.symbol := by
  rw [Item.next?, Item.right, item_production, hσ.right, Array.getElem?_map]
  rfl

theorem next?_eq_some_iff {i : Item} {x : Symbol} :
    (σ.item i).next? h = some (σ.symbol x) ↔ i.next? g = some x := by
  rw [hσ.next?, ← Option.map_some, (Option.map_injective σ.symbol_injective).eq_iff]

theorem isComplete (i : Item) : (σ.item i).isComplete h = i.isComplete g := by
  simp [Item.isComplete, Item.right, hσ.right]

theorem compare (i j : Item) : (σ.item i).compare h (σ.item j) = i.compare g j := by
  simp only [Item.compare, item_production, item_marker, hσ.productionNames,
    σ.production.injective.eq_iff]

theorem ascending_iff {items : List Item} : Ascending h (σ.items items) ↔ Ascending g items := by
  rw [Ascending, Renumbering.items, List.pairwise_map]
  simp only [hσ.compare]
  rfl

end Items

section Derivations

theorem derivationStep {form next : List Symbol} (hstep : DerivationStep g form next) :
    DerivationStep h (form.map σ.symbol) (next.map σ.symbol) := by
  obtain ⟨before, after, hp⟩ := hstep
  have hreplaced := DerivationStep.replace (before.map σ.symbol) (after.map σ.symbol)
    ((hσ.mem_productionIds_iff _).mpr hp)
  rw [hσ.left, hσ.right, Array.toList_map] at hreplaced
  simpa using hreplaced

theorem derives {form next : List Symbol} (hderives : Derives g form next) :
    Derives h (form.map σ.symbol) (next.map σ.symbol) := by
  induction hderives with
  | refl => exact .refl _
  | tail _ hstep ih => exact Relation.ReflTransGen.tail ih (hσ.derivationStep hstep)

theorem canFollow {n : NonterminalId} {t : TerminalId} (ht : CanFollow g n t) :
    CanFollow h (σ.nonterminal n) t := by
  rcases ht with ⟨m, hm, before, after, hderives⟩ | ⟨rfl, before, hderives⟩
  · refine .inl ⟨σ.nonterminal m, (hσ.mem_nonterminalIds_iff m).mpr hm, before.map σ.symbol,
      after.map σ.symbol, ?_⟩
    simpa using hσ.derives hderives
  · refine .inr ⟨rfl, before.map σ.symbol, ?_⟩
    simpa [hσ.nonterminal_goal] using hσ.derives hderives

/-- FOLLOW sets are the same. -/
theorem follows (n : NonterminalId) :
    h.analysis.follows.get (σ.nonterminal n) = g.analysis.follows.get n := by
  refine TerminalSet.ext fun t => ?_
  rw [hσ.target_wellFormed.mem_follow_iff, hσ.source_wellFormed.mem_follow_iff]
  refine ⟨fun ht => ?_, hσ.canFollow⟩
  simpa using hσ.symm.canFollow ht

end Derivations

end Carries

end Renumbering

end ShiftReduce
