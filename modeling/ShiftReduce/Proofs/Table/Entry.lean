import ShiftReduce.Proofs.Table.Filling

/-!
# The entries of the table

Where a state has a transition and where one of its items is ready is all that decides an entry.
Shifts follow transitions, reductions and acceptance belong to ready items, and a conflict-free
grammar has no choice between them.
-/

namespace ShiftReduce

variable {g : Grammar}

theorem Filling.action?_row (f : Filling) (x : Symbol) :
    f.row.action? x = (f.slots.get? x).map Slot.action := by
  rw [Row.action?, Filling.row, OrderedMap.get?_eq_lookup]
  exact lookup_map_injective Function.injective_id Slot.action _ x

theorem row_compile {q : StateId} (hq : q < g.automaton.states.size) : g.compile.table.row q =
    (Filling.ofState g q g.analysis.follows (g.automaton.state q)).row := by
  simp [Grammar.compile, Grammar.tabulate, ParseTable.row, Automaton.state, hq]

/-- There are no rows but those of the states. -/
theorem row_compile_of_not_lt {q : StateId} (hq : ¬ q < g.automaton.states.size) :
    g.compile.table.row q = default := by
  simp [Grammar.compile, Grammar.tabulate, ParseTable.row, Nat.not_lt.mp hq]

theorem lt_size_of_action? {q : StateId} {x : Symbol} {action : Action}
    (haction : g.compile.table.action? q x = some action) : q < g.automaton.states.size := by
  by_contra hq
  rw [ParseTable.action?, row_compile_of_not_lt hq] at haction
  cases haction

/-- The slot of a symbol after the reductions of a state. -/
def Grammar.reductionSlot (g : Grammar) (q : StateId) : Symbol → Option Slot :=
  Filling.reductionSlot g g.analysis.follows (Filling.completions g (g.automaton.state q).items)

theorem Grammar.reductionSlot_terminal (q : StateId) (t : TerminalId) :
    g.reductionSlot q (.terminal t) = (Filling.reduction? g g.analysis.follows
      (Filling.completions g (g.automaton.state q).items) t).map
        fun p => ⟨Filling.completion p, p⟩ := rfl

theorem Grammar.reductionSlot_nonterminal (q : StateId) (n : NonterminalId) :
    g.reductionSlot q (.nonterminal n) = none := rfl

section Actions

variable {q : StateId} {x : Symbol}

theorem action?_of_target?_eq_none (hq : q < g.automaton.states.size)
    (htarget : (g.automaton.state q).target? x = none) :
    g.compile.table.action? q x = (g.reductionSlot q x).map Slot.action := by
  rw [ParseTable.action?, row_compile hq, Filling.action?_row, Filling.ofState,
    Filling.get?_foldl_shiftBy_of_target?_eq_none htarget, Filling.get?_foldl_reduceBy]
  rfl

theorem action?_of_target? (hq : q < g.automaton.states.size) {target : StateId}
    (htarget : (g.automaton.state q).target? x = some target) :
    g.compile.table.action? q x =
      if (g.automaton.state q).items.any (Filling.takes g (g.reductionSlot q x) (.shift target) x)
      then some (.shift target) else (g.reductionSlot q x).map Slot.action := by
  rw [ParseTable.action?, row_compile hq, Filling.action?_row, Filling.ofState,
    Filling.map_action_foldl_shiftBy htarget, Filling.get?_foldl_reduceBy]
  rfl

end Actions

theorem mentions_of_target? (hg : g.WellFormed) {q : StateId} (hq : q < g.automaton.states.size)
    {x : Symbol} {target : StateId} (htarget : (g.automaton.state q).target? x = some target) :
    g.Mentions x := by
  obtain ⟨item, hitem, hnext⟩ := (Automaton.exists_target_iff hg hq).mp ⟨target, htarget⟩
  exact Item.mentions_of_next? (Automaton.hasItems_items hg hq item hitem) hnext

/-- The item of a state is complete, and its left-hand side has the terminal in FOLLOW. -/
structure Ready (g : Grammar) (q : StateId) (t : TerminalId) (item : Item) : Prop where
  mem_items : item ∈ (g.automaton.state q).items
  complete : item.isComplete g = true
  mem_follow : t ∈ g.analysis.follows.get (g.production item.production).left

/-- There are no items but in the states of the automaton. -/
theorem Ready.lt_size {q : StateId} {t : TerminalId} {item : Item} (hready : Ready g q t item) :
    q < g.automaton.states.size := by
  by_contra hq
  have hitem := hready.mem_items
  rw [Automaton.state, Array.getD_eq_getD_getElem?,
    Array.getElem?_eq_none (Nat.not_lt.mp hq)] at hitem
  exact absurd hitem List.not_mem_nil

theorem Ready.production_mem (hg : g.WellFormed) {q : StateId} {t : TerminalId} {item : Item}
    (hready : Ready g q t item) : item.production ∈ g.productionIds :=
  Automaton.hasItems_items hg hready.lt_size item hready.mem_items

/-- No two productions are ready on the same terminal in a state. -/
def ReadyAlone (g : Grammar) (q : StateId) : Prop :=
  ∀ t item other, Ready g q t item → Ready g q t other → other.production = item.production

theorem mem_completions {items : List Item} {p : ProductionId} :
    p ∈ Filling.completions g items ↔
      ∃ item ∈ items, item.isComplete g = true ∧ item.production = p := by
  simp only [Filling.completions, List.mem_append, List.mem_filter, List.mem_map, ne_eq,
    decide_not, Bool.not_eq_true', decide_eq_false_iff_not, decide_eq_true_eq, and_assoc]
  by_cases hgoal : p = .goal <;> simp [hgoal]

section Slots

variable {q : StateId} {x : Symbol} {t : TerminalId}

theorem exists_ready_of_reductionSlot {slot : Slot} (hslot : g.reductionSlot q x = some slot) :
    ∃ t item, x = .terminal t ∧ Ready g q t item ∧
      slot = ⟨Filling.completion item.production, item.production⟩ := by
  cases x with
  | nonterminal n =>
    rw [Grammar.reductionSlot_nonterminal] at hslot
    cases hslot
  | terminal t =>
    rw [Grammar.reductionSlot_terminal, Option.map_eq_some_iff] at hslot
    obtain ⟨p, hp, rfl⟩ := hslot
    obtain ⟨hp, hfollow⟩ := Filling.mem_of_reduction? hp
    obtain ⟨item, hitem, hcomplete, rfl⟩ := mem_completions.mp hp
    exact ⟨t, item, rfl, ⟨hitem, hcomplete, hfollow⟩, rfl⟩

theorem exists_reductionSlot_of_ready {item : Item} (hready : Ready g q t item) :
    ∃ slot, g.reductionSlot q (.terminal t) = some slot := by
  have hp := mem_completions.mpr ⟨item, hready.mem_items, hready.complete, rfl⟩
  obtain ⟨p, hfound⟩ := Filling.exists_reduction? hp hready.mem_follow
  rw [Grammar.reductionSlot_terminal, hfound]
  exact ⟨_, rfl⟩

end Slots

/-- An entry is the shift to the target of a transition, or the completion of a ready item. -/
theorem shift_or_completion {q : StateId} {x : Symbol} {action : Action}
    (haction : g.compile.table.action? q x = some action) :
    (∃ target, (g.automaton.state q).target? x = some target ∧ action = .shift target) ∨
      ∃ t item, x = .terminal t ∧ Ready g q t item ∧
        action = Filling.completion item.production := by
  have hq := lt_size_of_action? haction
  have hslot : (g.reductionSlot q x).map Slot.action = some action →
      ∃ t item, x = .terminal t ∧ Ready g q t item ∧
        action = Filling.completion item.production := by
    intro hheld
    obtain ⟨slot, hslot, rfl⟩ := Option.map_eq_some_iff.mp hheld
    obtain ⟨t, item, hx, hready, rfl⟩ := exists_ready_of_reductionSlot hslot
    exact ⟨t, item, hx, hready, rfl⟩
  cases htarget : (g.automaton.state q).target? x with
  | none =>
    rw [action?_of_target?_eq_none hq htarget] at haction
    exact .inr (hslot haction)
  | some target =>
    rw [action?_of_target? hq htarget] at haction
    split at haction
    next => exact .inl ⟨target, rfl, (Option.some.inj haction).symm⟩
    next => exact .inr (hslot haction)

section Choice

variable {q target : StateId} {t : TerminalId} {item : Item}

/-- A terminal that an item expects is shifted unless an item of better rank is ready on it. -/
theorem action?_eq_shift (hq : q < g.automaton.states.size)
    (hitem : item ∈ (g.automaton.state q).items) (hnext : item.next? g = some (.terminal t))
    (htarget : (g.automaton.state q).target? (.terminal t) = some target)
    (hyields : ∀ other, Ready g q t other → g.rank item.production ≤ g.rank other.production) :
    g.compile.table.action? q (.terminal t) = some (.shift target) := by
  rw [action?_of_target? hq htarget, if_pos]
  refine List.any_eq_true.mpr ⟨item, hitem, ?_⟩
  rw [Filling.takes, hnext, beq_self_eq_true, Bool.true_and]
  cases hslot : g.reductionSlot q (.terminal t) with
  | none => rfl
  | some slot =>
    obtain ⟨u, ready, hu, hready, rfl⟩ := exists_ready_of_reductionSlot hslot
    obtain rfl := Symbol.terminal.inj hu
    exact Filling.yields_completion_iff.mpr (hyields ready hready)

/-- A ready item is completed when it is ready alone and whatever expects the terminal has a worse
rank. -/
theorem action?_eq_completion (hq : q < g.automaton.states.size) (halone : ReadyAlone g q)
    (hready : Ready g q t item)
    (hkeeps : ∀ other ∈ (g.automaton.state q).items, other.next? g = some (.terminal t) →
      g.rank item.production < g.rank other.production) :
    g.compile.table.action? q (.terminal t) = some (Filling.completion item.production) := by
  obtain ⟨slot, hslot⟩ := exists_reductionSlot_of_ready hready
  obtain ⟨u, other, hu, hother, rfl⟩ := exists_ready_of_reductionSlot hslot
  obtain rfl := Symbol.terminal.inj hu
  rw [halone t item other hready hother] at hslot
  cases htarget : (g.automaton.state q).target? (.terminal t) with
  | none =>
    rw [action?_of_target?_eq_none hq htarget, hslot]
    rfl
  | some target =>
    rw [action?_of_target? hq htarget, if_neg, hslot]
    · rfl
    · rw [List.any_eq_true]
      rintro ⟨asking, hasking, htakes⟩
      rw [Filling.takes, hslot, Bool.and_eq_true, beq_iff_eq] at htakes
      have hworse := hkeeps asking hasking htakes.1
      exact Nat.not_le.mpr hworse (Filling.yields_completion_iff.mp htakes.2)

end Choice

namespace ParseTable

variable {q target : StateId} {x : Symbol} {t : TerminalId} {p : ProductionId}

theorem target?_of_shift (hshift : g.compile.table.action? q x = some (.shift target)) :
    (g.automaton.state q).target? x = some target := by
  rcases shift_or_completion hshift with ⟨r, hr, heq⟩ | ⟨_, item, -, -, heq⟩
  · rw [hr, Action.shift.inj heq]
  · exact absurd heq.symm (Filling.completion_ne_shift item.production target)

theorem exists_ready_of_reduce (hreduce : g.compile.table.action? q x = some (.reduce p)) :
    p ≠ .goal ∧ ∃ t item, x = .terminal t ∧ Ready g q t item ∧ item.production = p := by
  rcases shift_or_completion hreduce with ⟨_, -, heq⟩ | ⟨t, item, hx, hready, heq⟩
  · cases heq
  · obtain ⟨rfl, hgoal⟩ := Filling.completion_eq_reduce_iff.mp heq.symm
    exact ⟨hgoal, t, item, hx, hready, rfl⟩

theorem exists_ready_of_accept (haccept : g.compile.table.action? q x = some .accept) :
    ∃ t item, x = .terminal t ∧ Ready g q t item ∧ item.production = .goal := by
  rcases shift_or_completion haccept with ⟨_, -, heq⟩ | ⟨t, item, hx, hready, heq⟩
  · cases heq
  · exact ⟨t, item, hx, hready, Filling.completion_eq_accept_iff.mp heq.symm⟩

/-- Every transition over a nonterminal is a shift. -/
theorem action?_nonterminal (hg : g.WellFormed) (hq : q < g.automaton.states.size)
    {n : NonterminalId} (htarget : (g.automaton.state q).target? (.nonterminal n) = some target) :
    g.compile.table.action? q (.nonterminal n) = some (.shift target) := by
  have hnext := ((Automaton.target?_eq_some_iff hg hq).mp htarget).1
  obtain ⟨item, hitem, hnext⟩ := mem_nextSymbols.mp hnext
  rw [action?_of_target? hq htarget, if_pos]
  refine List.any_eq_true.mpr ⟨item, hitem, ?_⟩
  rw [Filling.takes, hnext, Grammar.reductionSlot_nonterminal, beq_self_eq_true]
  rfl

end ParseTable

end ShiftReduce
