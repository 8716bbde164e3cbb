import ShiftReduce.Proofs.Automaton.Determinization

/-!
# Which items the states hold

The goal leads to the nonterminals on the right-hand sides of its productions, these lead to others,
and so on. The states hold the items of the productions of all these nonterminals, with the marker
at every place, and no others.
-/

namespace ShiftReduce

variable {g : Grammar}

/-- A production of the first nonterminal has the second on its right-hand side. -/
def Grammar.LeadsTo (g : Grammar) (m n : NonterminalId) : Prop :=
  ∃ p ∈ g.productionIds, (g.production p).left = m ∧ .nonterminal n ∈ (g.production p).right

/-- The goal leads to the nonterminal in some number of steps. -/
def Grammar.Reachable (g : Grammar) (n : NonterminalId) : Prop :=
  Relation.ReflTransGen g.LeadsTo .goal n

namespace Reaches

/-- An item that is reached belongs to a reachable nonterminal. -/
theorem reachable (hg : g.WellFormed) {symbols : List Symbol} {item : Item}
    (hitem : Reaches g symbols item) : g.Reachable (g.production item.production).left := by
  induction hitem with
  | start =>
    rw [Item.start, hg.goal_production]
    exact .refl
  | advance _ _ ih => exact ih
  | free hitem hmove ih =>
    obtain ⟨p, -, hnext, rfl⟩ := hmove
    exact ih.tail ⟨_, hitem.production_mem hg, rfl, Array.mem_of_getElem? hnext⟩

/-- From a start item the marker is moved over as many symbols as there are. -/
theorem at_marker {symbols : List Symbol} {p : ProductionId} (hstart : Reaches g symbols (.start p))
    {marker : Nat} (hmarker : marker ≤ (g.production p).right.size) :
    ∃ passed, Reaches g passed ⟨p, marker⟩ := by
  induction marker with
  | zero => exact ⟨symbols, hstart⟩
  | succ marker ih =>
    obtain ⟨passed, hpassed⟩ := ih (Nat.le_of_succ_le hmarker)
    have hnext : Item.next? g ⟨p, marker⟩ = some (g.production p).right[marker] :=
      Array.getElem?_eq_getElem hmarker
    exact ⟨_, hpassed.advance hnext⟩

end Reaches

/-- The productions of a reachable nonterminal are begun somewhere. -/
theorem Grammar.Reachable.exists_start (hg : g.WellFormed) {n : NonterminalId}
    (hn : g.Reachable n) {p : ProductionId} (hp : p ∈ g.productionIds)
    (hleft : (g.production p).left = n) : ∃ symbols, Reaches g symbols (.start p) := by
  induction hn generalizing p with
  | refl =>
    obtain rfl := hg.eq_goal_of_left p hp hleft
    exact ⟨[], .start⟩
  | tail _ hlead ih =>
    obtain ⟨q, hq, hqleft, hmem⟩ := hlead
    obtain ⟨symbols, hstart⟩ := ih hq hqleft
    -- the marker of `q` is moved before the nonterminal, and a free move begins `p` there
    obtain ⟨marker, hlt, hplace⟩ := Array.mem_iff_getElem.mp hmem
    obtain ⟨passed, hpassed⟩ := hstart.at_marker (Nat.le_of_lt hlt)
    have hnext : Item.next? g ⟨q, marker⟩ = some (.nonterminal (g.production p).left) := by
      rw [hleft, ← hplace]
      exact Array.getElem?_eq_getElem hlt
    exact ⟨passed, hpassed.free ⟨p, hp, hnext, rfl⟩⟩

/-- The items of states are those that some symbols lead to. -/
theorem Automaton.exists_mem_items_iff (hg : g.WellFormed) {item : Item} :
    (∃ q < g.automaton.states.size, item ∈ (g.automaton.state q).items) ↔
      ∃ symbols, Reaches g symbols item := by
  constructor
  · rintro ⟨q, hq, hitem⟩
    obtain ⟨symbols, hholds⟩ := (isReachedSet_items hg hq).holds
    exact ⟨symbols, (hholds item).mp hitem⟩
  · rintro ⟨symbols, hitem⟩
    obtain ⟨q, hrun⟩ := exists_run?_of_reaches hg hitem
    obtain ⟨hq, hholds⟩ := holdsReached_of_run? hg hrun
    exact ⟨q, hq, (hholds item).mpr hitem⟩

/-- A production is in the states with every marker or with none. -/
theorem Automaton.exists_mem_items_iff_reachable (hg : g.WellFormed) {p : ProductionId}
    (hp : p ∈ g.productionIds) {marker : Nat} (hmarker : marker ≤ (g.production p).right.size) :
    (∃ q < g.automaton.states.size, ⟨p, marker⟩ ∈ (g.automaton.state q).items) ↔
      g.Reachable (g.production p).left := by
  rw [exists_mem_items_iff hg]
  constructor
  · rintro ⟨symbols, hitem⟩
    exact hitem.reachable hg
  · intro hreachable
    obtain ⟨symbols, hstart⟩ := hreachable.exists_start hg hp rfl
    exact hstart.at_marker hmarker

end ShiftReduce
