import ShiftReduce.Proofs.Grammar.Declared
import ShiftReduce.Proofs.Parsing.Soundness
import ShiftReduce.Proofs.Table.Conflicts

/-!
# Where the table accepts

The goal is completed last and has the worst of all ranks. So its slot on a terminal of FOLLOW is
lost to every other reduction, which is reported, and to every shift, which is not. While no
right-hand side mentions the goal, one state alone completes it, and that on the end of input.
-/

namespace ShiftReduce

variable {g : Grammar}

section Ranks

theorem Grammar.WellFormed.rank_goal (hg : g.WellFormed) : g.rank .goal = g.priorities.length := by
  simp [rank, hg.goal_production, symbolPriority?]

/-- No rank is worse than that of the goal. -/
theorem Grammar.Declared.rank_le {declarations : List Declaration} (hg : g.Declared declarations)
    {p : ProductionId} (hp : p ∈ g.productionIds) : g.rank p ≤ g.rank .goal := by
  rw [hg.wellFormed.rank_goal, rank]
  cases hfound : (g.production p).right.toList.findSome? g.symbolPriority? with
  | none => exact Nat.le_refl _
  | some place =>
    obtain ⟨x, hx, hpriority⟩ := List.exists_of_findSome?_eq_some hfound
    cases x with
    | nonterminal n => cases hpriority
    | terminal t =>
      have ht := hg.wellFormed.mem_terminalIds_of_mentions (mentions_of_mem hp hx)
      rw [symbolPriority?, hg.priority_eq t ht] at hpriority
      obtain ⟨hlt, -⟩ := List.idxOf?_eq_some_iff.mp hpriority
      exact Nat.le_of_lt hlt

end Ranks

namespace Filling

/-- Where the goal is complete it is the last completion. -/
theorem completions_eq_concat {items : List Item} (hitems : IsReachedSet g items)
    (hgoal : .goal ∈ completions g items) :
    ∃ others, completions g items = others ++ [.goal] ∧ .goal ∉ others := by
  have hnodup := hitems.nodup_completions
  simp only [completions] at hgoal hnodup ⊢
  generalize (items.filter (·.isComplete g)).map Item.production = complete at hgoal hnodup ⊢
  have hothers : ProductionId.goal ∉ complete.filter (· ≠ .goal) := by simp
  have hmem := (List.mem_append.mp hgoal).resolve_left hothers
  have honce := (List.nodup_append.mp hnodup).2.1
  refine ⟨_, ?_, hothers⟩
  rw [List.filter_eq] at hmem honce ⊢
  have hcount : complete.count .goal = 1 :=
    Nat.le_antisymm (List.nodup_replicate.mp honce)
      (Nat.one_le_iff_ne_zero.mpr (List.mem_replicate.mp hmem).1)
  rw [hcount, List.replicate_one]

end Filling

/-- The goal's item behind the start symbol. -/
def Item.goalEnd : Item :=
  (Item.start .goal).advance

theorem Automaton.run?_singleton (a : Automaton) (x : Symbol) :
    a.run? [x] = (a.state 0).target? x := by
  simp [run?]

section Goal

variable (hg : g.WellFormed) {q : StateId} {t : TerminalId}

include hg

/-- The goal is complete behind the start symbol only. -/
theorem Ready.eq_goalEnd (hq : q < g.automaton.states.size) {item : Item}
    (hready : Ready g q t item) (hgoal : item.production = .goal) : item = .goalEnd := by
  obtain ⟨symbols, hholds⟩ := (Automaton.isReachedSet_items hg hq).holds
  obtain ⟨_, -, hle, -⟩ := ((hholds item).mp hready.mem_items).exists_start
  have hge : (item.right g).size ≤ item.marker := of_decide_eq_true hready.complete
  have hsize : (item.right g).size = 1 := by
    rw [Item.right, hgoal, hg.goal_production]
    rfl
  rw [hsize] at hle hge
  obtain ⟨p, marker⟩ := item
  obtain rfl : p = .goal := hgoal
  obtain rfl : marker = 1 := Nat.le_antisymm hle hge
  rfl

/-- On a terminal on which the goal is ready it has the slot, or is reported to clash with what
has. -/
theorem reductionSlot_of_ready_goal (hq : q < g.automaton.states.size)
    (hready : Ready g q t .goalEnd) :
    (g.reductionSlot q (.terminal t) = some ⟨.accept, .goal⟩ ∧
        ∀ current, ⟨q, .terminal t, current, .goal⟩ ∉ g.conflicts) ∨
      ∃ current, current ≠ .goal ∧
        g.reductionSlot q (.terminal t) = some ⟨.reduce current, current⟩ ∧
        ⟨q, .terminal t, current, .goal⟩ ∈ g.conflicts := by
  have hitems := Automaton.isReachedSet_items hg hq
  have hmem := mem_completions.mpr ⟨.goalEnd, hready.mem_items, hready.complete, rfl⟩
  obtain ⟨others, hcompletions, hothers⟩ := Filling.completions_eq_concat hitems hmem
  have hfollow : t ∈ g.analysis.follows.get (g.production .goal).left := hready.mem_follow
  have hconflict (current : ProductionId) : ⟨q, .terminal t, current, .goal⟩ ∈ g.conflicts ↔
      Filling.reduction? g g.analysis.follows others t = some current := by
    rw [mem_conflicts_iff]
    dsimp only
    constructor
    · rintro ⟨-, before, p, hprefix, hclash⟩
      obtain ⟨u, -, _, hfirst, heq⟩ := Filling.mem_clashes.mp hclash
      obtain ⟨-, hu, rfl, rfl⟩ := Conflict.mk.inj heq
      obtain rfl := Symbol.terminal.inj hu
      rw [hcompletions] at hprefix
      rcases List.prefix_concat_iff.mp hprefix with heq | hearlier
      · rwa [← (List.append_inj' heq rfl).1]
      · exact absurd (hearlier.subset (by simp)) hothers
    · intro hfirst
      exact ⟨hq, others, .goal, hcompletions ▸ List.prefix_rfl,
        Filling.mem_clashes.mpr ⟨t, hfollow, current, hfirst, rfl⟩⟩
  simp only [hconflict, Grammar.reductionSlot_terminal, hcompletions]
  cases hfirst : Filling.reduction? g g.analysis.follows others t with
  | none =>
    left
    refine ⟨?_, by simp⟩
    rw [Filling.reduction?] at hfirst ⊢
    simp [List.find?_append, hfirst, hfollow, Filling.completion]
  | some current =>
    right
    have hne : current ≠ .goal := by
      rintro rfl
      exact hothers (Filling.mem_of_reduction? hfirst).1
    refine ⟨current, hne, ?_, rfl⟩
    rw [Filling.reduction?] at hfirst ⊢
    simp [List.find?_append, hfirst, hne, Filling.completion]

/-- Without a report the goal's slot holds Accept, or else the shift of its terminal. -/
theorem action?_of_ready_goal {declarations : List Declaration}
    (hdeclared : g.Declared declarations) (hready : Ready g q t .goalEnd)
    (hclear : ∀ current, ⟨q, .terminal t, current, .goal⟩ ∉ g.conflicts) :
    g.compile.table.action? q (.terminal t) =
      some (((g.automaton.state q).target? (.terminal t)).elim .accept .shift) := by
  have hq := hready.lt_size
  have hslot : g.reductionSlot q (.terminal t) = some ⟨.accept, .goal⟩ := by
    rcases reductionSlot_of_ready_goal hg hq hready with ⟨hslot, -⟩ | ⟨current, -, -, hconflict⟩
    · exact hslot
    · exact absurd hconflict (hclear current)
  cases htarget : (g.automaton.state q).target? (.terminal t) with
  | none =>
    rw [action?_of_target?_eq_none hq htarget, hslot]
    rfl
  | some target =>
    obtain ⟨item, hitem, hnext⟩ := (Automaton.exists_target_iff hg hq).mp ⟨target, htarget⟩
    have hp := Automaton.hasItems_items hg hq item hitem
    rw [action?_of_target? hq htarget, if_pos]
    · rfl
    · refine List.any_eq_true.mpr ⟨item, hitem, ?_⟩
      rw [Filling.takes, hnext, hslot, beq_self_eq_true, Bool.true_and]
      exact Filling.yields_completion_iff.mpr (hdeclared.rank_le hp)

/-- Accept is what the goal calls for where nothing else has the slot. -/
theorem action?_eq_accept_iff {declarations : List Declaration}
    (hdeclared : g.Declared declarations) {x : Symbol} :
    g.compile.table.action? q x = some .accept ↔ ∃ t, x = .terminal t ∧ Ready g q t .goalEnd ∧
      (g.automaton.state q).target? x = none ∧
        ∀ current, ⟨q, x, current, .goal⟩ ∉ g.conflicts := by
  constructor
  · intro haccept
    obtain ⟨t, item, rfl, hready, hgoal⟩ := ParseTable.exists_ready_of_accept haccept
    have hq := lt_size_of_action? haccept
    obtain rfl := hready.eq_goalEnd hg hq hgoal
    rcases reductionSlot_of_ready_goal hg hq hready with ⟨-, hclear⟩ | ⟨current, -, hslot, -⟩
    · refine ⟨t, rfl, hready, ?_, hclear⟩
      rw [action?_of_ready_goal hg hdeclared hready hclear] at haccept
      cases htarget : (g.automaton.state q).target? (.terminal t) with
      | none => rfl
      | some target => simp [htarget] at haccept
    -- a slot that another production has can only pass to a shift
    · cases htarget : (g.automaton.state q).target? (.terminal t) with
      | none =>
        rw [action?_of_target?_eq_none hq htarget, hslot] at haccept
        cases haccept
      | some target =>
        rw [action?_of_target? hq htarget, hslot] at haccept
        split at haccept <;> cases haccept
  · rintro ⟨t, rfl, hready, htarget, hclear⟩
    rw [action?_of_ready_goal hg hdeclared hready hclear, htarget]
    rfl

/-- State 0 leads over the start symbol to a state in which the goal is ready on the end of
input. -/
theorem exists_ready_goal : ∃ last,
    (g.automaton.state 0).target? (.nonterminal g.start) = some last ∧
      Ready g last .endOfInput .goalEnd := by
  have hnext : (Item.start .goal).next? g = some (.nonterminal g.start) := by
    rw [Item.next?, Item.right, Item.start, hg.goal_production]
    rfl
  have hempty : g.automaton.run? [] = some 0 := rfl
  obtain ⟨hpos, hholds⟩ := Automaton.holdsReached_of_run? hg hempty
  obtain ⟨last, hlast⟩ := (Automaton.exists_target_iff hg hpos).mpr
    ⟨_, (hholds _).mpr .start, hnext⟩
  have hrun := (g.automaton.run?_singleton (.nonterminal g.start)).trans hlast
  obtain ⟨-, hbehind⟩ := Automaton.holdsReached_of_run? hg hrun
  refine ⟨last, hlast, (hbehind _).mpr (Reaches.start.advance hnext), ?_, ?_⟩
  · simp [Item.isComplete, Item.right, Item.goalEnd, Item.start, Item.advance, hg.goal_production]
  · rw [Item.goalEnd, Item.start, Item.advance, hg.goal_production]
    exact Grammar.endOfInput_mem_followsWith hg _ _

/-- While no right-hand side mentions the goal, that is the only state and the only terminal. -/
theorem Ready.eq_endOfInput (hgoal : ¬ g.Mentions (.nonterminal .goal))
    (hready : Ready g q t .goalEnd) : t = .endOfInput ∧
      (g.automaton.state 0).target? (.nonterminal g.start) = some q := by
  have hfollow := hready.mem_follow
  rw [Item.goalEnd, Item.start, Item.advance, hg.goal_production] at hfollow
  refine ⟨Grammar.eq_endOfInput_of_mem_followsWith hgoal hfollow, ?_⟩
  obtain ⟨symbols, hrun⟩ := Automaton.exists_run? hg hready.lt_size
  have hreached := ((Automaton.holdsReached_of_run? hg hrun).2 _).mp hready.mem_items
  obtain ⟨before, rfl, hbegun⟩ := hreached.exists_before_right hready.complete
  rwa [hbegun.eq_nil_of_start_goal hg hgoal, Item.right, Item.goalEnd, Item.start, Item.advance,
    hg.goal_production, List.nil_append, Automaton.run?_singleton] at hrun

end Goal

/-- What is entered where the goal is complete on a terminal of its FOLLOW set. -/
structure AcceptanceLaw (g : Grammar) : Prop where
  /-- Accept is entered there and nowhere else, unless the terminal can be shifted or another
  reduction is reported to have the slot. -/
  accept_iff : ∀ q x, g.compile.table.action? q x = some .accept ↔
    ∃ t, x = .terminal t ∧ Ready g q t .goalEnd ∧ (g.automaton.state q).target? x = none ∧
      ∀ current, ⟨q, x, current, .goal⟩ ∉ g.conflicts
  /-- A terminal that can be shifted is shifted without a report. -/
  action?_eq_shift : ∀ q t target, Ready g q t .goalEnd →
    (g.automaton.state q).target? (.terminal t) = some target →
    (∀ current, ⟨q, .terminal t, current, .goal⟩ ∉ g.conflicts) →
      g.compile.table.action? q (.terminal t) = some (.shift target)
  /-- Behind the start symbol the goal is complete on the end of input. -/
  exists_ready : ∃ last, (g.automaton.state 0).target? (.nonterminal g.start) = some last ∧
    Ready g last .endOfInput .goalEnd
  /-- That is the only slot for Accept while no right-hand side mentions the goal. -/
  eq_of_accept : ¬ g.Mentions (.nonterminal .goal) → ∀ q x,
    g.compile.table.action? q x = some .accept →
      x = .terminal .endOfInput ∧ (g.automaton.state 0).target? (.nonterminal g.start) = some q
  /-- While no right-hand side mentions the end of input, Accept is not lost without a report. -/
  accept_or_conflict : ¬ g.Mentions (.terminal .endOfInput) → ∀ last,
    (g.automaton.state 0).target? (.nonterminal g.start) = some last →
      g.compile.table.action? last (.terminal .endOfInput) = some .accept ∨
        ∃ current, ⟨last, .terminal .endOfInput, current, .goal⟩ ∈ g.conflicts

/-- Every table follows the law of acceptance. -/
theorem acceptanceLaw {declarations : List Declaration}
    (hg : Grammar.ofDeclarations declarations = .ok g) : AcceptanceLaw g := by
  have hdeclared := Grammar.declared_of_ofDeclarations hg
  have hwf := hdeclared.wellFormed
  exact {
    accept_iff q x := action?_eq_accept_iff hwf hdeclared
    action?_eq_shift q t target hready htarget hclear := by
      rw [action?_of_ready_goal hwf hdeclared hready hclear, htarget]
      rfl
    exists_ready := exists_ready_goal hwf
    eq_of_accept hgoal q x haccept := by
      obtain ⟨t, rfl, hready, -⟩ := (action?_eq_accept_iff hwf hdeclared).mp haccept
      obtain ⟨rfl, htarget⟩ := hready.eq_endOfInput hwf hgoal
      exact ⟨rfl, htarget⟩
    accept_or_conflict hend last hlast := by
      obtain ⟨other, hother, hready⟩ := exists_ready_goal hwf
      obtain rfl := Option.some.inj (hother.symm.trans hlast)
      by_cases hclear : ∀ current, ⟨other, .terminal .endOfInput, current, .goal⟩ ∉ g.conflicts
      · refine .inl ((action?_eq_accept_iff hwf hdeclared).mpr ⟨_, rfl, hready, ?_, hclear⟩)
        refine Option.eq_none_iff_forall_ne_some.mpr fun target htarget => hend ?_
        exact mentions_of_target? hwf hready.lt_size htarget
      · exact .inr (by simpa using hclear) }

/-- A grammar in which the end of input stands on a right-hand side. -/
def readEndDeclarations : List Declaration :=
  [.rule "S" ["S", endOfInputName] "", .rule "S" ["b"] "", .resultType "S" "int", .start "S"]

def readEnd : Grammar :=
  (Grammar.ofDeclarations readEndDeclarations).toOption.getD default

theorem ofDeclarations_readEnd : Grammar.ofDeclarations readEndDeclarations = .ok readEnd :=
  eq_ok_getD_of_isOk (by decide +kernel)

theorem readEnd_acceptanceLaw : Grammar.ofDeclarations readEndDeclarations = .ok readEnd ∧
    AcceptanceLaw readEnd :=
  ⟨ofDeclarations_readEnd, acceptanceLaw ofDeclarations_readEnd⟩

/-- A grammar in which the goal stands on a right-hand side. -/
def nestedGoalDeclarations : List Declaration :=
  [.rule "S" [goalName, "x"] "", .rule "S" ["b"] "", .resultType "S" "int", .start "S"]

def nestedGoal : Grammar :=
  (Grammar.ofDeclarations nestedGoalDeclarations).toOption.getD default

/-- Where the goal is mentioned, Accept may stand on another terminal than the end of input; where
that is read, it may stand nowhere and no conflict says so. -/
theorem accept_repeated_or_lost :
    (Grammar.ofDeclarations nestedGoalDeclarations = .ok nestedGoal ∧
      nestedGoal.symbol? "x" = some (.terminal ⟨2⟩) ∧
      nestedGoal.compile.table.action? 4 (.terminal ⟨2⟩) = some .accept ∧
      nestedGoal.compile.table.action? 4 (.terminal .endOfInput) = some .accept) ∧
    (Grammar.ofDeclarations readEndDeclarations = .ok readEnd ∧
      (readEnd.automaton.state 0).target? (.nonterminal readEnd.start) = some 2 ∧
      readEnd.compile.table.action? 2 (.terminal .endOfInput) = some (.shift 3) ∧
      readEnd.conflicts = []) :=
  ⟨⟨eq_ok_getD_of_isOk (by decide +kernel), by decide +kernel, by decide +kernel,
      by decide +kernel⟩,
    ofDeclarations_readEnd, by decide +kernel, by decide +kernel, by decide +kernel⟩

end ShiftReduce
