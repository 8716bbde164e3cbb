import ShiftReduce.Proofs.Table.Acceptance

/-!
# The closed form of a row

Items are visited one after the other when a row is filled, and a shift that one of them is refused
may be granted to a later one. In the end an entry depends only on the first completed item that has
the terminal in FOLLOW and on the best rank among the items that expect the terminal.
-/

namespace ShiftReduce

variable {g : Grammar}

namespace Grammar

variable (g : Grammar) (q : StateId)

/-- The completed items of a state that have the terminal in FOLLOW of their left-hand side, in the
order of items but with the goal's behind all others. -/
def completedOn (t : TerminalId) : List Item :=
  let ready := (g.automaton.state q).items.filter fun item =>
    item.isComplete g && decide (t ∈ g.analysis.follows.get (g.production item.production).left)
  ready.filter (·.production ≠ .goal) ++ ready.filter (·.production = .goal)

/-- The least rank among the productions of the items that expect a symbol. -/
def leastRank? (x : Symbol) : Option Nat :=
  (((g.automaton.state q).items.filter fun item => item.next? g == some x).map
    fun item => g.rank item.production).min?

/-- What a state does on a symbol. -/
def entryFor : Symbol → Option Action
  | .nonterminal n => ((g.automaton.state q).target? (.nonterminal n)).map .shift
  | .terminal t =>
    match (g.automaton.state q).target? (.terminal t), (g.completedOn q t).head? with
    | none, none => none
    | none, some w => if w.production = .goal then some .accept else some (.reduce w.production)
    | some target, none => some (.shift target)
    | some target, some w =>
      if (g.leastRank? q (.terminal t)).any (· ≤ g.rank w.production) then some (.shift target)
      else some (.reduce w.production)

end Grammar

theorem any_min?_le_iff {ranks : List Nat} {limit : Nat} :
    ranks.min?.any (· ≤ limit) = true ↔ ∃ rank ∈ ranks, rank ≤ limit := by
  cases hleast : ranks.min? with
  | none =>
    rw [List.min?_eq_none_iff] at hleast
    simp [hleast]
  | some least =>
    obtain ⟨hmem, hle⟩ := List.min?_eq_some_iff.mp hleast
    rw [Option.any_some, decide_eq_true_eq]
    constructor
    · intro hlimit
      exact ⟨least, hmem, hlimit⟩
    · rintro ⟨rank, hrank, hlimit⟩
      exact (hle rank hrank).trans hlimit

section Entries

variable {q : StateId} {t : TerminalId}

/-- The productions of the completed items are those that may be reduced, in the same order. -/
theorem filter_completions_eq : (Filling.completions g (g.automaton.state q).items).filter
      (fun p => decide (t ∈ g.analysis.follows.get (g.production p).left)) =
    (g.completedOn q t).map Item.production := by
  simp only [Filling.completions, Grammar.completedOn, List.filter_append, List.map_append,
    List.filter_map, List.filter_filter, Function.comp_def]
  congr 3
  · funext item
    rw [Bool.and_left_comm, Bool.and_comm (Item.isComplete g item)]
  · funext item
    rw [Bool.and_left_comm, Bool.and_comm (Item.isComplete g item)]

/-- The slot goes to the first of the completed items. -/
theorem reductionSlot_eq_head? : g.reductionSlot q (.terminal t) =
    (g.completedOn q t).head?.map fun w => ⟨Filling.completion w.production, w.production⟩ := by
  rw [Grammar.reductionSlot_terminal, Filling.reduction?, ← List.head?_filter,
    filter_completions_eq, List.head?_map, Option.map_map]
  rfl

variable {target : StateId} (hq : q < g.automaton.states.size)

include hq

/-- A shift takes a free slot. -/
theorem any_takes_none (hg : g.WellFormed)
    (htarget : (g.automaton.state q).target? (.terminal t) = some target) :
    (g.automaton.state q).items.any
      (Filling.takes g none (.shift target) (.terminal t)) = true := by
  obtain ⟨item, hitem, hnext⟩ := (Automaton.exists_target_iff hg hq).mp ⟨target, htarget⟩
  apply List.any_eq_true.mpr
  refine ⟨item, hitem, ?_⟩
  rw [Filling.takes, hnext, beq_self_eq_true, Bool.true_and]
  rfl

omit hq in
/-- It takes the slot of a completion of no better rank than the least that asks for it. -/
theorem any_takes_completion (p : ProductionId) : (g.automaton.state q).items.any
      (Filling.takes g (some ⟨Filling.completion p, p⟩) (.shift target) (.terminal t)) = true ↔
    (g.leastRank? q (.terminal t)).any (· ≤ g.rank p) = true := by
  rw [Grammar.leastRank?, any_min?_le_iff, List.any_eq_true]
  simp only [Filling.takes, Bool.and_eq_true, Filling.yields_completion_iff, List.mem_map,
    List.mem_filter]
  constructor
  · rintro ⟨item, hitem, hnext, hle⟩
    exact ⟨_, ⟨item, ⟨hitem, hnext⟩, rfl⟩, hle⟩
  · rintro ⟨_, ⟨item, ⟨hitem, hnext⟩, rfl⟩, hle⟩
    exact ⟨item, hitem, hnext, hle⟩

/-- No shift is refused in favour of the goal, which has the worst of all ranks. -/
theorem any_leastRank?_goal {declarations : List Declaration} (hg : g.Declared declarations)
    (htarget : (g.automaton.state q).target? (.terminal t) = some target) :
    (g.leastRank? q (.terminal t)).any (· ≤ g.rank .goal) = true := by
  have hwf := hg.wellFormed
  obtain ⟨item, hitem, hnext⟩ := (Automaton.exists_target_iff hwf hq).mp ⟨target, htarget⟩
  rw [Grammar.leastRank?, any_min?_le_iff]
  refine ⟨g.rank item.production, ?_, hg.rank_le (Automaton.hasItems_items hwf hq item hitem)⟩
  apply List.mem_map_of_mem
  exact List.mem_filter.mpr ⟨hitem, by simp [hnext]⟩

theorem action?_terminal {declarations : List Declaration} (hg : g.Declared declarations) :
    g.compile.table.action? q (.terminal t) = g.entryFor q (.terminal t) := by
  have hwf := hg.wellFormed
  simp only [Grammar.entryFor]
  cases htarget : (g.automaton.state q).target? (.terminal t) with
  | none =>
    rw [action?_of_target?_eq_none hq htarget, reductionSlot_eq_head?]
    cases hfirst : (g.completedOn q t).head? with
    | none => rfl
    | some w =>
      simp only [Option.map_some, Filling.completion]
      split <;> rfl
  | some target =>
    rw [action?_of_target? hq htarget, reductionSlot_eq_head?]
    cases hfirst : (g.completedOn q t).head? with
    | none => rw [Option.map_none, if_pos (any_takes_none hq hwf htarget)]
    | some w =>
      simp only [Option.map_some, any_takes_completion]
      split
      next => rfl
      next hrefused =>
        have hgoal : w.production ≠ .goal := by
          intro heq
          apply hrefused
          rw [heq]
          exact any_leastRank?_goal hq hg htarget
        rw [Filling.completion, if_neg hgoal]

theorem action?_nonterminal_eq (hg : g.WellFormed) (n : NonterminalId) :
    g.compile.table.action? q (.nonterminal n) = g.entryFor q (.nonterminal n) := by
  simp only [Grammar.entryFor]
  cases htarget : (g.automaton.state q).target? (.nonterminal n) with
  | none => rw [action?_of_target?_eq_none hq htarget, Grammar.reductionSlot_nonterminal]; rfl
  | some target => rw [ParseTable.action?_nonterminal hg hq htarget]; rfl

end Entries

/-- The table has the entries of the closed form, taken over items in canonical order. -/
structure HasClosedForm (g : Grammar) : Prop where
  items_ascend : ∀ q < g.automaton.states.size, Ascending g (g.automaton.state q).items
  action?_eq : ∀ q < g.automaton.states.size, ∀ x,
    g.compile.table.action? q x = g.entryFor q x

/-- Every table has the closed form. -/
theorem hasClosedForm {declarations : List Declaration}
    (hg : Grammar.ofDeclarations declarations = .ok g) : HasClosedForm g := by
  have hdeclared := Grammar.declared_of_ofDeclarations hg
  have hwf := hdeclared.wellFormed
  constructor
  · intro q hq
    exact (Automaton.isReachedSet_items hwf hq).ascending
  · intro q hq x
    cases x with
    | terminal t => exact action?_terminal hq hdeclared
    | nonterminal n => exact action?_nonterminal_eq hq hwf n

/-- Products bind tighter than sums, so behind a sum the shift of `*` is granted and behind a
product that of `+` is refused. -/
def sumsAndProductsDeclarations : List Declaration :=
  [.rule "E" ["E", "+", "E"] "", .rule "E" ["E", "*", "E"] "", .rule "E" ["num"] "",
    .priority "*", .priority "+", .resultType "E" "int", .start "E"]

def sumsAndProducts : Grammar :=
  (Grammar.ofDeclarations sumsAndProductsDeclarations).toOption.getD default

theorem sumsAndProducts_hasClosedForm :
    Grammar.ofDeclarations sumsAndProductsDeclarations = .ok sumsAndProducts ∧
      HasClosedForm sumsAndProducts := by
  have hg : Grammar.ofDeclarations sumsAndProductsDeclarations = .ok sumsAndProducts :=
    eq_ok_getD_of_isOk (by decide +kernel)
  exact ⟨hg, hasClosedForm hg⟩

end ShiftReduce
