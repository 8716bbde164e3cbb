import ShiftReduce.Proofs.Analysis.FollowExact
import ShiftReduce.Proofs.Parsing.Moves
import ShiftReduce.Proofs.Parsing.Soundness

/-!
# Operator grammars

The start symbol is an operand, or an operator between two of itself. Wherever the start symbol is
expected, the walk consists of the start symbol and an operator in turn; these operators are
pending. Behind one more start symbol the last pending operator is the only one whose production is
complete.
-/

namespace ShiftReduce

namespace Grammar

variable (g : Grammar)

/-- The right-hand side of an operator. -/
def binary (t : TerminalId) : List Symbol :=
  [.nonterminal g.start, .terminal t, .nonterminal g.start]

/-- The symbols of the walk before an operand, given the pending operators. -/
def awaiting (pending : List TerminalId) : List Symbol :=
  pending.flatMap fun t => [.nonterminal g.start, .terminal t]

/-- The right-hand side of the operand or of an operator. -/
def IsExpression (operators : List TerminalId) (operand : TerminalId)
    (right : List Symbol) : Prop :=
  right = [.terminal operand] ∨ ∃ t ∈ operators, right = g.binary t

/-- The start symbol has a production for each operator and one for the operand, and there are no
others but the goal's. The rank of an operator is that of its production. -/
structure IsOperatorGrammar (operators : List TerminalId) (operand : TerminalId)
    (rank : TerminalId → Nat) : Prop where
  wellFormed : g.WellFormed
  start_ne_goal : g.start ≠ .goal
  exists_binary : ∀ t ∈ operators, ∃ p ∈ g.productionIds,
    (g.production p).left = g.start ∧ (g.production p).right.toList = g.binary t
  exists_operand : ∃ p ∈ g.productionIds,
    (g.production p).left = g.start ∧ (g.production p).right.toList = [.terminal operand]
  production_cases : ∀ p ∈ g.productionIds, p = .goal ∨ (g.production p).left = g.start ∧
    g.IsExpression operators operand (g.production p).right.toList
  rank_binary : ∀ p ∈ g.productionIds, ∀ t, (g.production p).right.toList = g.binary t →
    g.rank p = rank t
  operand_not_mem : operand ∉ operators
  endOfInput_not_mem : .endOfInput ∉ operators
  endOfInput_ne_operand : .endOfInput ≠ operand

end Grammar

variable {g : Grammar} {operators : List TerminalId} {operand : TerminalId}
  {rank : TerminalId → Nat}

theorem awaiting_concat (pending : List TerminalId) (t : TerminalId) :
    g.awaiting (pending ++ [t]) =
      g.awaiting pending ++ [.nonterminal g.start] ++ [.terminal t] := by
  simp [Grammar.awaiting]

theorem getLast?_awaiting (pending : List TerminalId) :
    (g.awaiting pending).getLast? = pending.getLast?.map .terminal := by
  rcases pending.eq_nil_or_concat' with rfl | ⟨init, t, rfl⟩
  · rfl
  · simp [awaiting_concat]

theorem getLast?_awaiting_ne_nonterminal (pending : List TerminalId) (n : NonterminalId) :
    (g.awaiting pending).getLast? ≠ some (.nonterminal n) := by
  rw [getLast?_awaiting]
  cases pending.getLast? <;> simp

/-- A pending operator with an expression behind it has its right-hand side on top. -/
theorem awaiting_concat_start (pending : List TerminalId) (t : TerminalId) :
    g.awaiting (pending ++ [t]) ++ [.nonterminal g.start] = g.awaiting pending ++ g.binary t := by
  simp [Grammar.awaiting, Grammar.binary]

theorem getElem?_binary_eq_terminal_iff {t u : TerminalId} {m : Nat} :
    (g.binary t)[m]? = some (.terminal u) ↔ m = 1 ∧ t = u := by
  match m with
  | 0 => simp [Grammar.binary]
  | 1 => simp [Grammar.binary]
  | 2 => simp [Grammar.binary]
  | m + 3 => simp [Grammar.binary]

/-- Before an operator stands an item that expects it, where the start symbol was expected. -/
theorem Reaches.operator {symbols : List Symbol} {item : Item} (hitem : Reaches g symbols item)
    (hnext : item.next? g = some (.nonterminal g.start)) {p : ProductionId}
    (hp : p ∈ g.productionIds) (hleft : (g.production p).left = g.start) {t : TerminalId}
    (hright : (g.production p).right.toList = g.binary t) :
    Reaches g symbols (.start p) ∧
      Reaches g (symbols ++ [.nonterminal g.start]) (Item.start p).advance ∧
      (Item.start p).advance.next? g = some (.terminal t) ∧
      (Item.start p).advance.advance.next? g = some (.nonterminal g.start) := by
  have hrest : (Item.start p).rest g = g.binary t := hright ▸ Item.rest_start p
  have hrest' := Item.rest_advance hrest
  have hbegun := hitem.free ⟨p, hp, hleft ▸ hnext, rfl⟩
  exact ⟨hbegun, hbegun.advance (Item.next?_of_rest hrest), Item.next?_of_rest hrest',
    Item.next?_of_rest (Item.rest_advance hrest')⟩

namespace Grammar.IsExpression

variable {before before' right right' : List Symbol}

theorem ne_start (hright : g.IsExpression operators operand right) :
    before ++ right ≠ [.nonterminal g.start] := by
  rcases hright with rfl | ⟨t, -, rfl⟩
  · intro heq
    simpa using congrArg List.getLast? heq
  · intro heq
    simpa [binary] using congrArg List.length heq

/-- The end of a walk tells the right-hand sides apart. -/
theorem eq_of_append_eq (hright : g.IsExpression operators operand right)
    (hright' : g.IsExpression operators operand right')
    (heq : before ++ right = before' ++ right') : right = right' := by
  have hlast := congrArg List.getLast? heq
  rcases hright with rfl | ⟨t, -, rfl⟩ <;> rcases hright' with rfl | ⟨u, -, rfl⟩
  · rfl
  · simp [binary] at hlast
  · simp [binary] at hlast
  · exact (List.append_inj' heq rfl).2

end Grammar.IsExpression

namespace Grammar.IsOperatorGrammar

variable (h : g.IsOperatorGrammar operators operand rank)

include h

theorem right_goal : (g.production .goal).right.toList = [.nonterminal g.start] := by
  rw [h.wellFormed.goal_production]

/-- Only the start symbol stands on right-hand sides. -/
theorem eq_start_of_mentions {n : NonterminalId} (hn : g.Mentions (.nonterminal n)) :
    n = g.start := by
  obtain ⟨p, hp, hmem⟩ := hn
  rw [← Array.mem_toList_iff] at hmem
  rcases h.production_cases p hp with rfl | ⟨-, hright | ⟨t, -, hright⟩⟩
  · rw [h.right_goal] at hmem
    simpa using hmem
  · rw [hright] at hmem
    simp at hmem
  · rw [hright] at hmem
    simpa [binary] using hmem

theorem goal_not_mentioned : ¬ g.Mentions (.nonterminal .goal) :=
  fun hgoal => h.start_ne_goal (h.eq_start_of_mentions hgoal).symm

theorem ne_goal_of_isExpression {p : ProductionId}
    (hright : g.IsExpression operators operand (g.production p).right.toList) : p ≠ .goal := by
  rintro rfl
  have hne : [] ++ (g.production .goal).right.toList ≠ [.nonterminal g.start] := hright.ne_start
  exact hne h.right_goal

theorem left_eq_start {p : ProductionId} (hp : p ∈ g.productionIds) (hgoal : p ≠ .goal) :
    (g.production p).left = g.start :=
  ((h.production_cases p hp).resolve_left hgoal).1

/-- An item that expects an operator stands right before it. -/
theorem right_eq_binary {item : Item} (hitem : item.production ∈ g.productionIds) {t : TerminalId}
    (hnext : item.next? g = some (.terminal t)) (hoperand : t ≠ operand) :
    t ∈ operators ∧ item.marker = 1 ∧ (g.production item.production).right.toList = g.binary t := by
  rw [Item.next?, ← Array.getElem?_toList, Item.right] at hnext
  rcases h.production_cases _ hitem with hgoal | ⟨-, hright | ⟨u, hu, hright⟩⟩
  · rw [hgoal, h.right_goal] at hnext
    exact absurd (List.mem_of_getElem? hnext) (by simp)
  · rw [hright] at hnext
    exact absurd (List.mem_of_getElem? hnext) (by simpa using hoperand)
  · rw [hright, getElem?_binary_eq_terminal_iff] at hnext
    obtain ⟨hmarker, rfl⟩ := hnext
    exact ⟨hu, hmarker, hright⟩

/-- What is complete at the end of a walk ends it with its right-hand side, and the goal is all of
it. -/
theorem complete_cases {symbols : List Symbol} {item : Item} (hitem : Reaches g symbols item)
    (hcomplete : item.isComplete g = true) :
    item.production = .goal ∧ symbols = [.nonterminal g.start] ∨
      item.production ≠ .goal ∧ ∃ before,
        symbols = before ++ (g.production item.production).right.toList ∧
          g.IsExpression operators operand (g.production item.production).right.toList := by
  have hp := hitem.production_mem h.wellFormed
  obtain ⟨before, hsymbols, hstart⟩ := hitem.exists_before_right hcomplete
  rw [Item.right] at hsymbols
  by_cases hgoal : item.production = .goal
  · rw [hgoal] at hstart hsymbols
    rw [hstart.eq_nil_of_start_goal h.wellFormed h.goal_not_mentioned, h.right_goal] at hsymbols
    exact .inl ⟨hgoal, hsymbols⟩
  · exact .inr ⟨hgoal, before, hsymbols, ((h.production_cases _ hp).resolve_left hgoal).2⟩

/-- Only one production is complete at the end of a walk. -/
theorem eq_of_complete {symbols : List Symbol} {item other : Item} (hitem : Reaches g symbols item)
    (hcomplete : item.isComplete g = true) (hother : Reaches g symbols other)
    (hcomplete' : other.isComplete g = true) : item.production = other.production := by
  rcases h.complete_cases hitem hcomplete with ⟨hgoal, rfl⟩ | ⟨hgoal, before, hsymbols, hright⟩ <;>
    rcases h.complete_cases hother hcomplete' with
      ⟨hgoal', hsymbols'⟩ | ⟨hgoal', before', hsymbols', hright'⟩
  · rw [hgoal, hgoal']
  · exact absurd hsymbols'.symm hright'.ne_start
  · exact absurd (hsymbols.symm.trans hsymbols') hright.ne_start
  · have hp := hitem.production_mem h.wellFormed
    have hq := hother.production_mem h.wellFormed
    refine h.wellFormed.eq_of_sides _ hp _ hq ?_ (Array.toList_inj.mp ?_)
    · rw [h.left_eq_start hp hgoal, h.left_eq_start hq hgoal']
    · exact hright.eq_of_append_eq hright' (hsymbols.symm.trans hsymbols')

theorem readyAlone {q : StateId} (hq : q < g.automaton.states.size) : ReadyAlone g q := by
  intro t item other hready hother
  obtain ⟨symbols, hholds⟩ := (Automaton.isReachedSet_items h.wellFormed hq).holds
  exact h.eq_of_complete ((hholds other).mp hother.mem_items) hother.complete
    ((hholds item).mp hready.mem_items) hready.complete

section Follow

theorem start_mem_nonterminalIds : g.start ∈ g.nonterminalIds := by
  obtain ⟨p, hp, hleft, -⟩ := h.exists_operand
  exact hleft ▸ h.wellFormed.left_mem p hp

theorem operator_mem_follow {t : TerminalId} (ht : t ∈ operators) :
    t ∈ g.analysis.follows.get g.start := by
  obtain ⟨p, hp, hleft, hright⟩ := h.exists_binary t ht
  have hderives := Derives.production hp
  rw [hleft, hright] at hderives
  exact h.wellFormed.mem_follow_iff.mpr
    (.inl ⟨g.start, h.start_mem_nonterminalIds, [], [.nonterminal g.start], hderives⟩)

theorem endOfInput_mem_follow : .endOfInput ∈ g.analysis.follows.get g.start := by
  have hderives := Derives.production h.wellFormed.goal_mem
  rw [h.right_goal, h.wellFormed.goal_production] at hderives
  exact h.wellFormed.mem_follow_iff.mpr (.inr ⟨rfl, [], hderives⟩)

end Follow

section Reaching

variable {pending : List TerminalId}

/-- Behind pending operators the start symbol is expected. -/
theorem exists_expecting (hpending : ∀ t ∈ pending, t ∈ operators) :
    ∃ item, Reaches g (g.awaiting pending) item ∧
      item.next? g = some (.nonterminal g.start) := by
  induction pending using List.reverseRecOn with
  | nil => exact ⟨_, .start, Item.next?_of_rest (h.right_goal ▸ Item.rest_start .goal)⟩
  | append_singleton pending t ih =>
    obtain ⟨item, hitem, hnext⟩ := ih fun u hu => hpending u (List.mem_append_left _ hu)
    obtain ⟨p, hp, hleft, hright⟩ := h.exists_binary t (hpending t (by simp))
    obtain ⟨-, hadvanced, hoperator, hlast⟩ := hitem.operator hnext hp hleft hright
    exact ⟨_, awaiting_concat pending t ▸ hadvanced.advance hoperator, hlast⟩

end Reaching

section Moves

variable {pending : List TerminalId} {stack : List StateId} {input : List TerminalId}
  {reduced : List ProductionId} (hpending : ∀ t ∈ pending, t ∈ operators)

include hpending

/-- Where the start symbol is expected nothing is complete. -/
theorem not_complete_of_awaiting {item : Item} (hitem : Reaches g (g.awaiting pending) item) :
    item.isComplete g ≠ true := by
  intro hcomplete
  have hne := getLast?_awaiting_ne_nonterminal (g := g) pending g.start
  rcases h.complete_cases hitem hcomplete with
    ⟨-, hsymbols⟩ | ⟨-, before, hsymbols, hright | ⟨t, -, hright⟩⟩
  · exact hne (by simp [hsymbols])
  · have hlast := getLast?_awaiting (g := g) pending
    rw [hsymbols, hright, List.getLast?_concat] at hlast
    obtain ⟨t, ht, heq⟩ := Option.map_eq_some_iff.mp hlast.symm
    obtain rfl := Symbol.terminal.inj heq
    exact h.operand_not_mem (hpending _ (List.mem_of_getLast? ht))
  · exact hne (by simp [hsymbols, hright, binary])

/-- The last pending operator may be complete behind another start symbol, or else the goal. -/
theorem complete_behind_start {item : Item}
    (hitem : Reaches g (g.awaiting pending ++ [.nonterminal g.start]) item)
    (hcomplete : item.isComplete g = true) :
    item.production = .goal ∨ ∃ t, pending.getLast? = some t ∧
      (g.production item.production).right.toList = g.binary t := by
  rcases h.complete_cases hitem hcomplete with ⟨hgoal, -⟩ | ⟨-, before, hsymbols, hright⟩
  · exact .inl hgoal
  · right
    rcases pending.eq_nil_or_concat' with rfl | ⟨init, u, rfl⟩
    · exact absurd hsymbols.symm hright.ne_start
    · have hbinary : g.IsExpression operators operand (g.binary u) :=
        .inr ⟨u, hpending u (by simp), rfl⟩
      rw [awaiting_concat_start] at hsymbols
      exact ⟨u, by simp, (hbinary.eq_of_append_eq hright hsymbols).symm⟩

/-- An operand is read where the start symbol is expected. -/
theorem drive_operand (hwalk : Walk g.automaton (g.awaiting pending) stack) :
    ∃ last, Walk g.automaton (g.awaiting pending ++ [.terminal operand]) last ∧
      drive g g.compile.table ⟨stack, operand :: input, reduced⟩ =
        .running ⟨last, input, reduced⟩ := by
  obtain ⟨item, hitem, hnext⟩ := h.exists_expecting hpending
  obtain ⟨p, hp, hleft, hright⟩ := h.exists_operand
  have hbegun := hitem.free ⟨p, hp, hleft ▸ hnext, rfl⟩
  have hexpects := Item.next?_of_rest (hright ▸ Item.rest_start p)
  refine hwalk.drive_shift h.wellFormed hbegun hexpects fun other hother => ?_
  have hreached := ((hwalk.holdsReached h.wellFormed).2 other).mp hother.mem_items
  exact absurd hother.complete (h.not_complete_of_awaiting hpending hreached)

/-- An operator is read behind an expression unless the last pending operator has a better rank. -/
theorem drive_operator
    (hwalk : Walk g.automaton (g.awaiting pending ++ [.nonterminal g.start]) stack)
    {t : TerminalId} (ht : t ∈ operators) (hle : ∀ u, pending.getLast? = some u → rank t ≤ rank u) :
    ∃ last, Walk g.automaton (g.awaiting (pending ++ [t])) last ∧
      drive g g.compile.table ⟨stack, t :: input, reduced⟩ = .running ⟨last, input, reduced⟩ := by
  obtain ⟨item, hitem, hnext⟩ := h.exists_expecting hpending
  obtain ⟨p, hp, hleft, hright⟩ := h.exists_binary t ht
  obtain ⟨-, hadvanced, hexpects, -⟩ := hitem.operator hnext hp hleft hright
  rw [awaiting_concat]
  refine hwalk.drive_shift h.wellFormed hadvanced hexpects fun other hother => ?_
  have hreached := ((hwalk.holdsReached h.wellFormed).2 other).mp hother.mem_items
  rcases h.complete_behind_start hpending hreached hother.complete with hgoal | ⟨u, hlast, hbinary⟩
  · have hfollow := hother.mem_follow
    rw [hgoal, h.wellFormed.goal_production] at hfollow
    obtain rfl := eq_endOfInput_of_mem_followsWith h.goal_not_mentioned hfollow
    exact absurd ht h.endOfInput_not_mem
  · change g.rank p ≤ _
    rw [h.rank_binary p hp t hright,
      h.rank_binary _ (hreached.production_mem h.wellFormed) u hbinary]
    exact hle u hlast

/-- A right-hand side is reduced before an operator or the end, unless an operator that is expected
has no worse a rank. -/
theorem drive_expression {p : ProductionId} (hp : p ∈ g.productionIds) (hgoal : p ≠ .goal)
    (hwalk : Walk g.automaton (g.awaiting pending ++ (g.production p).right.toList) stack)
    {next : TerminalId} (hinput : input.headD .endOfInput = next)
    (hnext : next = .endOfInput ∨ next ∈ operators)
    (hkeeps : ∀ other, Reaches g (g.awaiting pending ++ (g.production p).right.toList) other →
      other.next? g = some (.terminal next) → g.rank p < g.rank other.production) :
    ∃ last, Walk g.automaton (g.awaiting pending ++ [.nonterminal g.start]) last ∧
      drive g g.compile.table ⟨stack, input, reduced⟩ = .running ⟨last, input, p :: reduced⟩ := by
  have hleft := h.left_eq_start hp hgoal
  have hfollow : next ∈ g.analysis.follows.get g.start := by
    rcases hnext with rfl | hoperator
    · exact h.endOfInput_mem_follow
    · exact h.operator_mem_follow hoperator
  obtain ⟨item, hitem, hexpects⟩ := h.exists_expecting hpending
  rw [← hleft] at hexpects hfollow ⊢
  have hbegun := hitem.free ⟨p, hp, hexpects, rfl⟩
  have hentry := hwalk.action?_completion h.wellFormed hbegun hfollow
    (h.readyAlone (hwalk.holdsReached h.wellFormed).1) hkeeps
  rw [Filling.completion, if_neg hgoal, ← hinput] at hentry
  exact hwalk.drive_reduce h.wellFormed hitem hexpects hentry

/-- An operand is reduced before an operator and before the end. -/
theorem reduce_operand {p : ProductionId} (hp : p ∈ g.productionIds)
    (hright : (g.production p).right.toList = [.terminal operand])
    (hwalk : Walk g.automaton (g.awaiting pending ++ [.terminal operand]) stack)
    {next : TerminalId} (hinput : input.headD .endOfInput = next)
    (hnext : next = .endOfInput ∨ next ∈ operators) :
    ∃ last, Walk g.automaton (g.awaiting pending ++ [.nonterminal g.start]) last ∧
      drive g g.compile.table ⟨stack, input, reduced⟩ = .running ⟨last, input, p :: reduced⟩ := by
  have hoperand : next ≠ operand := by
    rcases hnext with rfl | hoperator
    · exact h.endOfInput_ne_operand
    · exact fun heq => h.operand_not_mem (heq ▸ hoperator)
  refine h.drive_expression hpending hp (h.ne_goal_of_isExpression (.inl hright))
    (hright ▸ hwalk) hinput hnext fun other hother hexpects => ?_
  -- an item before an operator has passed the start symbol, and not the operand, last
  obtain ⟨-, hmarker, hbinary⟩ :=
    h.right_eq_binary (hother.production_mem h.wellFormed) hexpects hoperand
  obtain ⟨before, hsymbols, -⟩ := hother.exists_start
  rw [Item.right, hbinary, hmarker, hright] at hsymbols
  simpa [binary] using congrArg List.getLast? hsymbols

/-- An operator is reduced with its expressions before one of worse rank and before the end. -/
theorem reduce_operator {t : TerminalId} (ht : t ∈ operators) {p : ProductionId}
    (hp : p ∈ g.productionIds) (hright : (g.production p).right.toList = g.binary t)
    (hwalk : Walk g.automaton (g.awaiting (pending ++ [t]) ++ [.nonterminal g.start]) stack)
    {next : TerminalId} (hinput : input.headD .endOfInput = next)
    (hnext : next = .endOfInput ∨ next ∈ operators ∧ rank t < rank next) :
    ∃ last, Walk g.automaton (g.awaiting pending ++ [.nonterminal g.start]) last ∧
      drive g g.compile.table ⟨stack, input, reduced⟩ = .running ⟨last, input, p :: reduced⟩ := by
  rw [awaiting_concat_start, ← hright] at hwalk
  refine h.drive_expression hpending hp (h.ne_goal_of_isExpression (.inr ⟨t, ht, hright⟩)) hwalk
    hinput (hnext.imp_right And.left) fun other hother hexpects => ?_
  have hproduction := hother.production_mem h.wellFormed
  rcases hnext with rfl | ⟨hoperator, hlt⟩
  · exact absurd (h.right_eq_binary hproduction hexpects h.endOfInput_ne_operand).1
      h.endOfInput_not_mem
  · obtain ⟨-, -, hbinary⟩ := h.right_eq_binary hproduction hexpects
      fun heq => h.operand_not_mem (heq ▸ hoperator)
    rwa [h.rank_binary p hp t hright, h.rank_binary _ hproduction _ hbinary]

end Moves

/-- The start symbol alone is accepted before the end. -/
theorem drive_accepted {stack : List StateId} {reduced : List ProductionId}
    (hwalk : Walk g.automaton [.nonterminal g.start] stack) :
    drive g g.compile.table ⟨stack, [], reduced⟩ = .accepted := by
  have hfollow : .endOfInput ∈ g.analysis.follows.get (g.production .goal).left := by
    rw [h.wellFormed.goal_production]
    exact endOfInput_mem_followsWith h.wellFormed g.nullables (g.firstsWith g.nullables)
  rw [← h.right_goal] at hwalk
  rw [← List.nil_append (g.production .goal).right.toList] at hwalk
  refine drive_of_accept (hwalk.action?_completion h.wellFormed .start hfollow
    (h.readyAlone (hwalk.holdsReached h.wellFormed).1) fun other hother hexpects => ?_)
  have hproduction := hother.production_mem h.wellFormed
  exact absurd (h.right_eq_binary hproduction hexpects h.endOfInput_ne_operand).1
    h.endOfInput_not_mem

end Grammar.IsOperatorGrammar

end ShiftReduce
