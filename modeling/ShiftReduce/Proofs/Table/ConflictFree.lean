import ShiftReduce.Proofs.Analysis.Follow
import ShiftReduce.Proofs.Table.Entry

/-!
# Grammars without conflicts

In a state no two items are ready on the same terminal, and none is ready on a terminal that another
one expects. The entry of a terminal is then what its only candidate calls for.
-/

namespace ShiftReduce

variable {g : Grammar}

instance (g : Grammar) (q : StateId) (t : TerminalId) (item : Item) :
    Decidable (Ready g q t item) :=
  decidable_of_iff (item ∈ (g.automaton.state q).items ∧ item.isComplete g = true ∧
      t ∈ g.analysis.follows.get (g.production item.production).left)
    ⟨fun ⟨hmem, hcomplete, hfollow⟩ => ⟨hmem, hcomplete, hfollow⟩,
      fun hready => ⟨hready.mem_items, hready.complete, hready.mem_follow⟩⟩

/-- Every state has at most one candidate for each terminal. -/
structure ConflictFree (g : Grammar) : Prop where
  eq_of_ready : ∀ q < g.automaton.states.size, ∀ t ∈ g.terminalIds,
    ∀ item ∈ (g.automaton.state q).items, ∀ other ∈ (g.automaton.state q).items,
      Ready g q t item → Ready g q t other → item = other
  not_expected_of_ready : ∀ q < g.automaton.states.size, ∀ t ∈ g.terminalIds,
    ∀ item ∈ (g.automaton.state q).items, ∀ other ∈ (g.automaton.state q).items,
      Ready g q t item → other.next? g ≠ some (.terminal t)

namespace ConflictFree

variable (hg : g.WellFormed) (hfree : ConflictFree g) {q : StateId} {t : TerminalId} {item : Item}

include hg hfree

theorem readyAlone (hq : q < g.automaton.states.size) : ReadyAlone g q := by
  intro t item other hready hother
  have ht := Grammar.mem_terminalIds_of_follow hg hready.mem_follow
  rw [hfree.eq_of_ready q hq t ht item hready.mem_items other hother.mem_items hready hother]

/-- A ready item is completed. -/
theorem action?_of_ready (hq : q < g.automaton.states.size) (hready : Ready g q t item) :
    g.compile.table.action? q (.terminal t) = some (Filling.completion item.production) := by
  have ht := Grammar.mem_terminalIds_of_follow hg hready.mem_follow
  refine action?_eq_completion hq (hfree.readyAlone hg hq) hready fun other hother hnext => ?_
  exact absurd hnext
    (hfree.not_expected_of_ready q hq t ht item hready.mem_items other hother hready)

end ConflictFree

end ShiftReduce
