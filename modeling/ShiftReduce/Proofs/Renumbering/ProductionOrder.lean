import ShiftReduce.Proofs.Analysis.LeastSets
import ShiftReduce.Proofs.Renumbering.SameDeclarations

/-!
# The sets do not depend on the order of productions

The inclusions that FIRST and FOLLOW satisfy speak of each production by itself. A grammar with the
same productions in another order, and with other numbers of nonterminals, asks for the same
inclusions, so its least sets are the same.
-/

namespace ShiftReduce

namespace Renumbering

/-- The second grammar has the productions of the first in another order, and its nonterminals have
the new numbers. -/
structure KeepsProductions (σ : Renumbering) (g h : Grammar) : Prop where
  size_terminals_eq : h.terminals.size = g.terminals.size
  nonterminal_goal : σ.nonterminal .goal = .goal
  mem_nonterminalIds_iff : ∀ n, σ.nonterminal n ∈ h.nonterminalIds ↔ n ∈ g.nonterminalIds
  mem_productionIds_iff : ∀ p, σ.production p ∈ h.productionIds ↔ p ∈ g.productionIds
  left : ∀ p ∈ g.productionIds,
    (h.production (σ.production p)).left = σ.nonterminal (g.production p).left
  right : ∀ p ∈ g.productionIds,
    (h.production (σ.production p)).right = (g.production p).right.map σ.symbol

/-- The second roster has the members of the first under their new numbers. -/
def KeepsMembers (σ : Renumbering) (nulls others : Roster NonterminalId) : Prop :=
  ∀ n, σ.nonterminal n ∈ others.toList ↔ n ∈ nulls.toList

/-- The second family has the sets of the first under the new numbers. -/
def KeepsSets (σ : Renumbering) (firsts others : TerminalFamily) : Prop :=
  ∀ n, others.get (σ.nonterminal n) = firsts.get n

variable {σ : Renumbering}

theorem beginnings_symbol (sets : NonterminalId → Set TerminalId) (x : Symbol) :
    (σ.symbol x).beginnings sets = x.beginnings fun n => sets (σ.nonterminal n) := by
  cases x <;> rfl

namespace KeepsMembers

variable {nulls others : Roster NonterminalId} (hnulls : σ.KeepsMembers nulls others)

include hnulls

theorem symm : σ.symm.KeepsMembers others nulls := by
  intro n
  obtain ⟨n, rfl⟩ := σ.nonterminal.surjective n
  rw [symm_nonterminal, hnulls]

theorem allIn {xs : List Symbol} (hxs : AllIn nulls xs) : AllIn others (xs.map σ.symbol) := by
  intro y hy
  obtain ⟨x, hx, rfl⟩ := List.mem_map.mp hy
  obtain ⟨n, hn, rfl⟩ := hxs x hx
  exact ⟨σ.nonterminal n, (hnulls n).mpr hn, rfl⟩

end KeepsMembers

theorem KeepsSets.symm {firsts others : TerminalFamily} (hfirsts : σ.KeepsSets firsts others) :
    σ.symm.KeepsSets others firsts := by
  intro n
  obtain ⟨n, rfl⟩ := σ.nonterminal.surjective n
  rw [symm_nonterminal, hfirsts]

namespace KeepsProductions

variable {g h : Grammar} (hσ : σ.KeepsProductions g h)

include hσ

theorem symm : σ.symm.KeepsProductions h g where
  size_terminals_eq := hσ.size_terminals_eq.symm
  nonterminal_goal := by
    rw [← hσ.nonterminal_goal, symm_nonterminal]
    exact hσ.nonterminal_goal.symm
  mem_nonterminalIds_iff n := by
    obtain ⟨n, rfl⟩ := σ.nonterminal.surjective n
    rw [symm_nonterminal, hσ.mem_nonterminalIds_iff]
  mem_productionIds_iff p := by
    obtain ⟨p, rfl⟩ := σ.production.surjective p
    rw [symm_production, hσ.mem_productionIds_iff]
  left p hp := by
    obtain ⟨p, rfl⟩ := σ.production.surjective p
    rw [symm_production, hσ.left p ((hσ.mem_productionIds_iff p).mp hp), symm_nonterminal]
  right p hp := by
    obtain ⟨p, rfl⟩ := σ.production.surjective p
    rw [symm_production, hσ.right p ((hσ.mem_productionIds_iff p).mp hp), Array.map_map]
    simp [Function.comp_def]

theorem toList_right {p : ProductionId} (hp : p ∈ g.productionIds) :
    (h.production (σ.production p)).right.toList =
      (g.production p).right.toList.map σ.symbol := by
  rw [hσ.right p hp, Array.toList_map]

theorem inRange (hg : g.InRange) : h.InRange where
  endOfInput_mem := by
    have hmem := hg.endOfInput_mem
    rwa [Grammar.mem_terminalIds, ← hσ.size_terminals_eq, ← Grammar.mem_terminalIds] at hmem
  goal_mem_nonterminalIds := by
    rw [← hσ.nonterminal_goal, hσ.mem_nonterminalIds_iff]
    exact hg.goal_mem_nonterminalIds
  left_mem p hp := by
    obtain ⟨p, rfl⟩ := σ.production.surjective p
    have hp := (hσ.mem_productionIds_iff p).mp hp
    rw [hσ.left p hp, hσ.mem_nonterminalIds_iff]
    exact hg.left_mem p hp
  hasSymbol_of_mentions y hy := by
    obtain ⟨p, hp, hy⟩ := hy
    obtain ⟨p, rfl⟩ := σ.production.surjective p
    have hp := (hσ.mem_productionIds_iff p).mp hp
    rw [hσ.right p hp] at hy
    obtain ⟨x, hx, rfl⟩ := Array.mem_map.mp hy
    have hsymbol := hg.hasSymbol_of_mentions x ⟨p, hp, hx⟩
    cases x with
    | terminal t =>
      have ht := Grammar.mem_terminalIds.mp hsymbol
      exact Grammar.mem_terminalIds.mpr (hσ.size_terminals_eq ▸ ht)
    | nonterminal n => exact (hσ.mem_nonterminalIds_iff n).mpr hsymbol

section Sets

variable {nulls nulls' : Roster NonterminalId} (hnulls : σ.KeepsMembers nulls nulls')

include hnulls

theorem isFirstClosed {sets : NonterminalId → Set TerminalId}
    (hsets : h.IsFirstClosed nulls' sets) :
    g.IsFirstClosed nulls fun n => sets (σ.nonterminal n) := by
  intro p hp before x after hright hbefore
  have hbegin := hsets _ ((hσ.mem_productionIds_iff p).mpr hp) (before.map σ.symbol) (σ.symbol x)
    (after.map σ.symbol) (by simp [hσ.toList_right hp, hright]) (hnulls.allIn hbefore)
  rwa [beginnings_symbol, hσ.left p hp] at hbegin

theorem isFollowClosed {firsts firsts' : TerminalFamily} (hfirsts : σ.KeepsSets firsts firsts')
    {sets : NonterminalId → Set TerminalId} (hsets : h.IsFollowClosed nulls' firsts' sets) :
    g.IsFollowClosed nulls firsts fun n => sets (σ.nonterminal n) where
  endOfInput_mem := by
    rw [hσ.nonterminal_goal]
    exact hsets.endOfInput_mem
  beginnings_subset p hp before n between x after hright hbetween := by
    have hbegin := hsets.beginnings_subset _ ((hσ.mem_productionIds_iff p).mpr hp)
      (before.map σ.symbol) (σ.nonterminal n) (between.map σ.symbol) (σ.symbol x)
      (after.map σ.symbol) (by simp [hσ.toList_right hp, hright]) (hnulls.allIn hbetween)
    have hmembers : (fun n => firsts'.members (σ.nonterminal n)) = firsts.members := by
      funext n
      simp only [TerminalFamily.members, hfirsts n]
    rwa [beginnings_symbol, hmembers] at hbegin
  left_subset p hp before n rest hright hrest := by
    have hleft := hsets.left_subset _ ((hσ.mem_productionIds_iff p).mpr hp)
      (before.map σ.symbol) (σ.nonterminal n) (rest.map σ.symbol)
      (by simp [hσ.toList_right hp, hright]) (hnulls.allIn hrest)
    rwa [hσ.left p hp] at hleft

variable (hg : g.InRange)

include hg

theorem firstsWith_le :
    (g.firstsWith nulls).members ≤ fun n => (h.firstsWith nulls').members (σ.nonterminal n) :=
  (hg.isLeast_firstsWith nulls).2
    (hσ.isFirstClosed hnulls ((hσ.inRange hg).isLeast_firstsWith nulls').1)

theorem followsWith_le {firsts firsts' : TerminalFamily} (hfirsts : σ.KeepsSets firsts firsts') :
    (g.followsWith nulls firsts).members ≤
      fun n => (h.followsWith nulls' firsts').members (σ.nonterminal n) :=
  (hg.isLeast_followsWith nulls firsts).2
    (hσ.isFollowClosed hnulls hfirsts ((hσ.inRange hg).isLeast_followsWith nulls' firsts').1)

/-- FIRST is the same whatever the order of the productions. -/
theorem keepsSets_firstsWith : σ.KeepsSets (g.firstsWith nulls) (h.firstsWith nulls') := by
  intro n
  refine TerminalSet.ext fun t => ⟨fun ht => ?_, fun ht => hσ.firstsWith_le hnulls hg n ht⟩
  have hback : t ∈ (g.firstsWith nulls).get (σ.symm.nonterminal (σ.nonterminal n)) :=
    hσ.symm.firstsWith_le hnulls.symm (hσ.inRange hg) _ ht
  rwa [symm_nonterminal] at hback

theorem keepsSets_followsWith {firsts firsts' : TerminalFamily}
    (hfirsts : σ.KeepsSets firsts firsts') :
    σ.KeepsSets (g.followsWith nulls firsts) (h.followsWith nulls' firsts') := by
  intro n
  refine TerminalSet.ext fun t => ⟨fun ht => ?_, fun ht => hσ.followsWith_le hnulls hg hfirsts n ht⟩
  have hback : t ∈ (g.followsWith nulls firsts).get (σ.symm.nonterminal (σ.nonterminal n)) :=
    hσ.symm.followsWith_le hnulls.symm (hσ.inRange hg) hfirsts.symm _ ht
  rwa [symm_nonterminal] at hback

end Sets

end KeepsProductions

end Renumbering

namespace Grammar

variable {g h : Grammar}

/-- Any rearrangement of the productions of a grammar keeps them. -/
theorem exists_keepsProductions_of_perm {productions : Array Production}
    (hperm : g.productions.toList.Perm productions.toList) :
    ∃ σ : Renumbering, σ.nonterminal = .refl _ ∧ σ.KeepsProductions g { g with productions } := by
  obtain ⟨places, hplaces⟩ := exists_places_of_perm hperm
  let σ : Renumbering := ⟨.refl _, ProductionId.equivNat.symm.permCongr places⟩
  have hproduction (p : ProductionId) :
      Grammar.production { g with productions } (σ.production p) = g.production p := by
    have hplace : productions[places p.index]? = g.productions[p.index]? := by
      simpa using hplaces p.index
    rw [production, production, Array.getD_eq_getD_getElem?, Array.getD_eq_getD_getElem?, ← hplace]
    rfl
  refine ⟨σ, rfl, {
    size_terminals_eq := rfl
    nonterminal_goal := rfl
    mem_nonterminalIds_iff := fun _ => Iff.rfl
    mem_productionIds_iff := fun p => ?_
    left := fun p _ => by rw [hproduction]; rfl
    right := fun p _ => by rw [hproduction, σ.symbol_eq_id rfl, Array.map_id] }⟩
  have hnone : productions.size ≤ places p.index ↔ g.productions.size ≤ p.index := by
    simpa using congrArg (· = none) (hplaces p.index)
  rw [mem_productionIds, mem_productionIds]
  change places p.index < productions.size ↔ p.index < g.productions.size
  omega

/-- So do the same declarations in another order. -/
theorem exists_keepsProductions_of_declared {ds es : List Declaration} (hg : g.Declared ds)
    (hh : h.Declared es) (hsame : SameDeclarations ds es) :
    ∃ σ : Renumbering, σ.KeepsProductions g h := by
  obtain ⟨σ, hσ⟩ := hg.exists_carries hh hsame
  exact ⟨σ, (hg.size_terminals_eq hh hsame).symm, hσ.nonterminal_goal, hσ.mem_nonterminalIds_iff,
    hσ.mem_productionIds_iff, fun p _ => hσ.left p, fun p _ => hσ.right p⟩

/-- Under all assumptions FIRST and FOLLOW are the least sets that satisfy the inclusions. They grow
with the assumptions, and the order of the productions makes no difference. -/
structure HasLeastSets (g : Grammar) : Prop where
  isLeast_firsts : ∀ nulls,
    IsLeast {sets | g.IsFirstClosed nulls sets} (g.firstsWith nulls).members
  isLeast_follows : ∀ nulls firsts,
    IsLeast {sets | g.IsFollowClosed nulls firsts sets} (g.followsWith nulls firsts).members
  firsts_mono : ∀ nulls more : Roster NonterminalId, nulls.toList ⊆ more.toList →
    (g.firstsWith nulls).members ≤ (g.firstsWith more).members
  follows_mono : ∀ nulls more : Roster NonterminalId, nulls.toList ⊆ more.toList →
    ∀ firsts others : TerminalFamily, firsts.members ≤ others.members →
      (g.followsWith nulls firsts).members ≤ (g.followsWith more others).members
  firsts_order : ∀ (σ : Renumbering) (h : Grammar), σ.KeepsProductions g h → ∀ nulls others,
    σ.KeepsMembers nulls others → σ.KeepsSets (g.firstsWith nulls) (h.firstsWith others)
  follows_order : ∀ (σ : Renumbering) (h : Grammar), σ.KeepsProductions g h → ∀ nulls others,
    σ.KeepsMembers nulls others → ∀ firsts otherFirsts, σ.KeepsSets firsts otherFirsts →
      σ.KeepsSets (g.followsWith nulls firsts) (h.followsWith others otherFirsts)

end Grammar

theorem hasLeastSets {declarations : List Declaration} {g : Grammar}
    (hg : Grammar.ofDeclarations declarations = .ok g) : g.HasLeastSets := by
  have hrange := (Grammar.wellFormed_of_ofDeclarations hg).inRange
  exact {
    isLeast_firsts := hrange.isLeast_firstsWith
    isLeast_follows := hrange.isLeast_followsWith
    firsts_mono := fun _ _ => hrange.firstsWith_mono
    follows_mono := fun _ _ hsub _ _ => hrange.followsWith_mono hsub
    firsts_order := fun _ _ hσ _ _ hnulls => hσ.keepsSets_firstsWith hnulls hrange
    follows_order := fun _ _ hσ _ _ hnulls _ _ => hσ.keepsSets_followsWith hnulls hrange }

/-- An `a` and then a `b`, neither of which is nullable. -/
def pairDeclarations : List Declaration :=
  [.rule "S" ["A", "B"] "", .rule "A" ["a"] "", .rule "B" ["b"] "", .resultType "S" "int",
    .start "S"]

def pair : Grammar :=
  (Grammar.ofDeclarations pairDeclarations).toOption.getD default

/-- Whoever takes `A` for nullable finds that `b` can begin `S`. -/
theorem pair_hasLeastSets : Grammar.ofDeclarations pairDeclarations = .ok pair ∧
    pair.HasLeastSets ∧ pair.nullables.toList = [] ∧
      (pair.firstsWith ∅).get pair.start = .ofList [⟨1⟩] ∧
        (pair.firstsWith (.ofList [⟨2⟩])).get pair.start = .ofList [⟨1⟩, ⟨2⟩] := by
  have hg : Grammar.ofDeclarations pairDeclarations = .ok pair :=
    eq_ok_getD_of_isOk (by decide +kernel)
  exact ⟨hg, hasLeastSets hg, by decide +kernel, by decide +kernel, by decide +kernel⟩

end ShiftReduce
