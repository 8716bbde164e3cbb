import ShiftReduce.Proofs.Grammar.Accepted
import ShiftReduce.Proofs.Precedence.Grouping
import ShiftReduce.Proofs.Table.NoConflicts

/-!
# Declared operators

Operators between expressions and an operand are declared, in whatever order, and some terminals are
given priorities. The grammar is accepted unless there are too many operators. Its table has no
conflicts, and it groups every expression by the places of its operators in the priority list.
-/

namespace ShiftReduce

/-- The right-hand sides of an expression: one for each operator, and the operand. -/
def operatorSides (expression operand : String) (operators : List String) : List (List String) :=
  operators.map (fun operator => [expression, operator, expression]) ++ [[operand]]

section Sides

variable {expression operand : String} {operators right : List String}

theorem mem_operatorSides : right ∈ operatorSides expression operand operators ↔
    right = [operand] ∨ ∃ operator ∈ operators, right = [expression, operator, expression] := by
  rw [operatorSides, List.mem_append, List.mem_map, List.mem_singleton, or_comm]
  simp only [eq_comm]

theorem length_operatorSides :
    (operatorSides expression operand operators).length = operators.length + 1 := by
  rw [operatorSides, List.length_append, List.length_map, List.length_singleton]

theorem length_le_of_mem_operatorSides
    (hright : right ∈ operatorSides expression operand operators) : right.length ≤ 3 := by
  rcases mem_operatorSides.mp hright with rfl | ⟨operator, -, rfl⟩ <;> simp

theorem eq_or_mem_of_mem_operatorSides
    (hright : right ∈ operatorSides expression operand operators) {name : String}
    (hname : name ∈ right) : name = expression ∨ name ∈ operand :: operators := by
  rcases mem_operatorSides.mp hright with rfl | ⟨operator, hoperator, rfl⟩
  · exact .inr (List.mem_singleton.mp hname ▸ List.mem_cons_self)
  · simp only [List.mem_cons, List.not_mem_nil, or_false] at hname
    rcases hname with rfl | rfl | rfl
    · exact .inl rfl
    · exact .inr (List.mem_cons_of_mem operand hoperator)
    · exact .inl rfl

end Sides

/-- What is declared are the operators and the operand of expressions, and nothing else. -/
structure DeclaresOperators (declarations : List Declaration) (expression operand : String)
    (operators : List String) : Prop where
  nodup_names : (goalName :: endOfInputName :: expression :: operand :: operators).Nodup
  nonterminal_iff : ∀ name,
    (∃ declaration ∈ declarations, declaration.nonterminal? = some name) ↔ name = expression
  sides_iff : ∀ left right,
    (∃ declaration ∈ declarations, declaration.sides? = some (left, right)) ↔
      left = expression ∧ right ∈ operatorSides expression operand operators
  start_iff : ∀ name,
    (∃ declaration ∈ declarations, declaration.start? = some name) ↔ name = expression
  exists_type : ∃ type, .resultType expression type ∈ declarations

/-- The driver accepts the expression of some operators, and its tree has the leftmost of those with
the greatest rank on top at every node. -/
def Grammar.GroupsByRank (g : Grammar) (rank : String → Nat) (operand : String)
    (operators : List String) : Prop :=
  ∃ tree : Tree g (.nonterminal g.start),
    tree.yield.map (fun t => some (.terminal t)) = (tokensOf operand operators).map g.symbol? ∧
      Accepts g g.compile.table tree.yield tree.postorder ∧
        tree.EveryNode fun children =>
          LeftmostGreatest rank operand (children.map (List.map fun t => (g.terminal t).name))

/-- The terminals that productions mention by one of some names. -/
def Grammar.mentionedAs (g : Grammar) (names : List String) : List TerminalId :=
  g.terminalIds.filter fun t => g.Mentions (.terminal t) ∧ (g.terminal t).name ∈ names

namespace Grammar.WellFormed

variable {g : Grammar} (hg : g.WellFormed) {names : List String} {t u : TerminalId}

include hg

theorem mem_mentionedAs : t ∈ g.mentionedAs names ↔
    g.Mentions (.terminal t) ∧ (g.terminal t).name ∈ names := by
  rw [mentionedAs, List.mem_filter, decide_eq_true_iff]
  exact and_iff_right_of_imp fun ht => hg.mem_terminalIds_of_mentions ht.1

theorem eq_of_mentionedAs (ht : t ∈ g.mentionedAs names) (hu : u ∈ g.mentionedAs names)
    (hname : (g.terminal t).name = (g.terminal u).name) : t = u :=
  Symbol.terminal.inj (hg.eq_of_symbolName (hg.mem_mentionedAs.mp ht).1
    (hg.mem_mentionedAs.mp hu).1 hname)

end Grammar.WellFormed

/-- An operator's production has the rank of its place in the priority list. -/
theorem Grammar.Declared.rank_binary {declarations : List Declaration} {g : Grammar}
    (hg : g.Declared declarations) {p : ProductionId} (hp : p ∈ g.productionIds) {t : TerminalId}
    (hright : (g.production p).right.toList = g.binary t) : g.rank p =
      (declarations.filterMap Declaration.priority?).idxOf (g.terminal t).name := by
  have ht : t ∈ g.terminalIds :=
    hg.wellFormed.mem_terminalIds_of_mentions (mentions_of_mem hp (by simp [hright, binary]))
  have hplace : g.symbolPriority? (.terminal t) = g.priorities.idxOf? (g.terminal t).name :=
    hg.priority_eq t ht
  rw [← hg.priorities_eq, List.idxOf, List.findIdx_eq_getD_findIdx?, ← List.idxOf?, rank, hright]
  simp only [binary, List.findSome?_cons, hplace]
  cases g.priorities.idxOf? (g.terminal t).name <;> rfl

namespace DeclaresOperators

variable {declarations : List Declaration} {expression operand : String} {operators : List String}
  (h : DeclaresOperators declarations expression operand operators)

include h

theorem last_start : declarations.reverse.findSome? Declaration.start? = some expression := by
  obtain ⟨declaration, hmem, hstart⟩ := (h.start_iff expression).mpr rfl
  cases hlast : declarations.reverse.findSome? Declaration.start? with
  | none =>
    have hnone := List.findSome?_eq_none_iff.mp hlast declaration (List.mem_reverse.mpr hmem)
    exact absurd hstart (by simp [hnone])
  | some name =>
    obtain ⟨last, hlast, hname⟩ := List.exists_of_findSome?_eq_some hlast
    rw [(h.start_iff name).mp ⟨last, List.mem_reverse.mp hlast, hname⟩]

section Names

theorem expression_ne_goalName : expression ≠ goalName := by
  have hnames := h.nodup_names
  grind

theorem operand_not_mem : operand ∉ operators := by
  have hnames := h.nodup_names
  grind

/-- The operand and the operators are neither reserved nor an expression. -/
theorem terminal_name_ne {name : String} (hname : name ∈ operand :: operators) :
    name ≠ goalName ∧ name ≠ endOfInputName ∧ name ≠ expression := by
  have hnames := h.nodup_names
  grind

end Names

section Grammar

variable {g : Grammar} (hg : g.Declared declarations)

include hg

theorem name_start : (g.nonterminal g.start).name = expression :=
  hg.name_start expression h.last_start

theorem start_ne_goal : g.start ≠ .goal := by
  intro heq
  apply h.expression_ne_goalName
  rw [← h.name_start hg, heq, hg.name_goal]

theorem eq_start_of_name {x : Symbol} (hx : g.Mentions x) (hname : g.symbolName x = expression) :
    x = .nonterminal g.start :=
  hg.wellFormed.eq_of_symbolName hx hg.wellFormed.mentions_start
    (hname.trans (h.name_start hg).symm)

theorem exists_terminal_of_name {x : Symbol} (hx : g.Mentions x)
    (hname : g.symbolName x ∈ operand :: operators) : ∃ t, x = .terminal t := by
  cases x with
  | terminal t => exact ⟨t, rfl⟩
  | nonterminal n =>
    obtain ⟨hgoal, -, hexpression⟩ := h.terminal_name_ne hname
    have hn : n ∈ g.nonterminalIds := hg.wellFormed.hasSymbol_of_mentions hx
    rcases (hg.exists_nonterminal_iff _).mp ⟨n, hn, rfl⟩ with heq | hdeclared
    · exact absurd heq hgoal
    · exact absurd ((h.nonterminal_iff _).mp hdeclared) hexpression

/-- The sides of a production other than the goal's are an expression and one of its sides. -/
theorem sides_of_production {p : ProductionId} (hp : p ∈ g.productionIds) (hgoal : p ≠ .goal) :
    (g.production p).left = g.start ∧ (g.production p).right.toList.map g.symbolName ∈
      operatorSides expression operand operators := by
  obtain ⟨hleft, hright⟩ :=
    (h.sides_iff _ _).mp ((hg.exists_production_iff _ _).mp ⟨p, hp, hgoal, rfl⟩)
  refine ⟨hg.wellFormed.eq_of_nonterminal_name (hg.wellFormed.left_mem p hp) ?_ ?_, hright⟩
  · exact hg.wellFormed.hasSymbol_of_mentions hg.wellFormed.mentions_start
  · exact hleft.trans (h.name_start hg).symm

theorem exists_production (right : List String)
    (hright : right ∈ operatorSides expression operand operators) :
    ∃ p ∈ g.productionIds, p ≠ .goal ∧ (g.production p).left = g.start ∧
      (g.production p).right.toList.map g.symbolName = right := by
  obtain ⟨p, hp, hgoal, hnames⟩ :=
    (hg.exists_production_iff expression right).mpr ((h.sides_iff _ _).mpr ⟨rfl, hright⟩)
  exact ⟨p, hp, hgoal, (h.sides_of_production hg hp hgoal).1, (List.cons.inj hnames).2⟩

/-- The right-hand side with the names of an operator's is that of a mentioned terminal. -/
theorem right_of_operator_names {p : ProductionId} (hp : p ∈ g.productionIds) {operator : String}
    (hoperator : operator ∈ operators) (hnames : (g.production p).right.toList.map g.symbolName =
      [expression, operator, expression]) :
    ∃ t ∈ g.mentionedAs operators, (g.terminal t).name = operator ∧
      (g.production p).right.toList = g.binary t := by
  obtain ⟨x, xs, hright, hx, hxs⟩ := List.map_eq_cons_iff.mp hnames
  obtain ⟨y, ys, rfl, rfl, hys⟩ := List.map_eq_cons_iff.mp hxs
  obtain ⟨z, rfl, hz⟩ := List.map_eq_singleton_iff.mp hys
  have hmentions : ∀ w ∈ [x, y, z], g.Mentions w := fun w hw =>
    Grammar.mentions_of_mem hp (hright ▸ hw)
  obtain rfl := h.eq_start_of_name hg (hmentions x (by simp)) hx
  obtain rfl := h.eq_start_of_name hg (hmentions z (by simp)) hz
  have hy := hmentions y (by simp)
  obtain ⟨t, rfl⟩ := h.exists_terminal_of_name hg hy (List.mem_cons_of_mem _ hoperator)
  exact ⟨t, hg.wellFormed.mem_mentionedAs.mpr ⟨hy, hoperator⟩, rfl, hright⟩

theorem right_of_operand_name {p : ProductionId} (hp : p ∈ g.productionIds)
    (hnames : (g.production p).right.toList.map g.symbolName = [operand]) :
    ∃ t, g.Mentions (.terminal t) ∧ (g.terminal t).name = operand ∧
      (g.production p).right.toList = [.terminal t] := by
  obtain ⟨x, hright, rfl⟩ := List.map_eq_singleton_iff.mp hnames
  have hx : g.Mentions x := Grammar.mentions_of_mem hp (by simp [hright])
  obtain ⟨t, rfl⟩ := h.exists_terminal_of_name hg hx List.mem_cons_self
  exact ⟨t, hx, rfl, hright⟩

theorem exists_binary {t : TerminalId} (ht : t ∈ g.mentionedAs operators) :
    ∃ p ∈ g.productionIds,
      (g.production p).left = g.start ∧ (g.production p).right.toList = g.binary t := by
  have hoperator := (hg.wellFormed.mem_mentionedAs.mp ht).2
  obtain ⟨p, hp, -, hleft, hnames⟩ := h.exists_production hg
    [expression, (g.terminal t).name, expression]
    (mem_operatorSides.mpr (.inr ⟨_, hoperator, rfl⟩))
  obtain ⟨u, hu, hsame, hright⟩ := h.right_of_operator_names hg hp hoperator hnames
  obtain rfl := hg.wellFormed.eq_of_mentionedAs hu ht hsame
  exact ⟨p, hp, hleft, hright⟩

theorem isExpression {t : TerminalId} (ht : g.Mentions (.terminal t))
    (hname : (g.terminal t).name = operand) {p : ProductionId} (hp : p ∈ g.productionIds)
    (hgoal : p ≠ .goal) :
    g.IsExpression (g.mentionedAs operators) t (g.production p).right.toList := by
  rcases mem_operatorSides.mp (h.sides_of_production hg hp hgoal).2 with
    hnames | ⟨operator, hoperator, hnames⟩
  · obtain ⟨u, hu, hsame, hright⟩ := h.right_of_operand_name hg hp hnames
    have heq := hg.wellFormed.eq_of_symbolName hu ht (hsame.trans hname.symm)
    exact .inl (heq ▸ hright)
  · obtain ⟨u, hu, -, hright⟩ := h.right_of_operator_names hg hp hoperator hnames
    exact .inr ⟨u, hu, hright⟩

theorem isOperatorGrammar : ∃ t, g.Mentions (.terminal t) ∧ (g.terminal t).name = operand ∧
    g.IsOperatorGrammar (g.mentionedAs operators) t
      fun u => (declarations.filterMap Declaration.priority?).idxOf (g.terminal u).name := by
  obtain ⟨p, hp, -, hleft, hnames⟩ := h.exists_production hg [operand]
    (mem_operatorSides.mpr (.inl rfl))
  obtain ⟨t, ht, hname, hright⟩ := h.right_of_operand_name hg hp hnames
  have hoperators : ∀ u ∈ g.mentionedAs operators, (g.terminal u).name ∈ operators :=
    fun u hu => (hg.wellFormed.mem_mentionedAs.mp hu).2
  exact ⟨t, ht, hname, {
    wellFormed := hg.wellFormed
    start_ne_goal := h.start_ne_goal hg
    exists_binary := fun u hu => h.exists_binary hg hu
    exists_operand := ⟨p, hp, hleft, hright⟩
    production_cases := fun q hq => or_iff_not_imp_left.mpr fun hgoal =>
      ⟨(h.sides_of_production hg hq hgoal).1, h.isExpression hg ht hname hq hgoal⟩
    rank_binary := fun q hq u => hg.rank_binary hq
    operand_not_mem := fun hmem => h.operand_not_mem (hname ▸ hoperators t hmem)
    endOfInput_not_mem := fun hmem =>
      have hne := h.terminal_name_ne (List.mem_cons_of_mem operand (hoperators _ hmem))
      hne.2.1 hg.name_endOfInput
    endOfInput_ne_operand := by
      rintro rfl
      exact (h.terminal_name_ne (hname ▸ List.mem_cons_self)).2.1 hg.name_endOfInput }⟩

theorem exists_mentionedAs {operator : String} (hoperator : operator ∈ operators) :
    ∃ t ∈ g.mentionedAs operators, (g.terminal t).name = operator := by
  obtain ⟨p, hp, -, -, hnames⟩ := h.exists_production hg [expression, operator, expression]
    (mem_operatorSides.mpr (.inr ⟨operator, hoperator, rfl⟩))
  obtain ⟨t, ht, hname, -⟩ := h.right_of_operator_names hg hp hoperator hnames
  exact ⟨t, ht, hname⟩

theorem exists_terminals {names : List String} (hnames : ∀ name ∈ names, name ∈ operators) :
    ∃ ts : List TerminalId, ts.map (fun t => (g.terminal t).name) = names ∧
      ∀ t ∈ ts, t ∈ g.mentionedAs operators := by
  induction names with
  | nil => exact ⟨[], rfl, by simp⟩
  | cons first rest ih =>
    obtain ⟨ts, hts, hmem⟩ := ih fun name hname => hnames name (List.mem_cons_of_mem _ hname)
    obtain ⟨t, ht, hname⟩ := h.exists_mentionedAs hg (hnames first List.mem_cons_self)
    exact ⟨t :: ts, by rw [List.map_cons, hname, hts], List.forall_mem_cons.mpr ⟨ht, hmem⟩⟩

theorem groupsByRank {names : List String} (hnames : ∀ name ∈ names, name ∈ operators) :
    g.GroupsByRank (declarations.filterMap Declaration.priority?).idxOf operand names := by
  obtain ⟨t, ht, rfl, hgrammar⟩ := h.isOperatorGrammar hg
  obtain ⟨ts, rfl, hmem⟩ := h.exists_terminals hg hnames
  obtain ⟨tree, hyield, haccepts, hnodes⟩ := hgrammar.exists_accepts hmem
  refine ⟨tree, ?_, haccepts, hnodes.imp fun _ hchildren => hchildren.map fun _ => rfl⟩
  rw [hyield, map_tokensOf, map_tokensOf, List.map_map]
  have hsymbols : ts.map (fun u => some (.terminal u)) =
      ts.map (g.symbol? ∘ fun u => (g.terminal u).name) :=
    List.map_congr_left fun u hu =>
      (hg.wellFormed.symbol?_mentioned _ (hg.wellFormed.mem_mentionedAs.mp (hmem u hu)).1).symm
  rw [hsymbols]
  exact congrArg (tokensOf · _) (hg.wellFormed.symbol?_mentioned _ ht).symm

end Grammar

section Draft

variable {d : Draft} (hd : d.Reflects declarations)

include hd

theorem keys_eq : d.rules.keys.toList = [expression] := by
  refine List.perm_singleton.mp ((List.perm_ext_iff_of_nodup d.rules.keys.nodup
    (List.nodup_singleton expression)).mpr fun name => ?_)
  rw [hd.mem_keys_iff, h.nonterminal_iff, List.mem_singleton]

theorem startName_eq : d.startName = .ok expression := by
  rw [Draft.startName, hd.start_eq, h.last_start]

theorem exists_rule_iff (right : List String) :
    (∃ rule ∈ d.rulesOf expression, rule.right = right) ↔
      right ∈ operatorSides expression operand operators := by
  rw [hd.exists_rule_iff, h.sides_iff]
  exact and_iff_right rfl

end Draft

/-- Fewer operators than there may be productions are accepted. -/
theorem exists_ofDeclarations (hfew : operators.length < sizeLimit) :
    ∃ g, Grammar.ofDeclarations declarations = .ok g := by
  have hgoal := h.expression_ne_goalName.symm
  obtain ⟨d, hd⟩ := Draft.exists_declareAll
    (fun declaration hmem hname => hgoal ((h.nonterminal_iff _).mp ⟨declaration, hmem, hname⟩))
    (fun declaration hmem hname => hgoal ((h.start_iff _).mp ⟨declaration, hmem, hname⟩))
  have hreflects := Draft.reflects_of_declareAll hd
  obtain ⟨type, htype⟩ := (hreflects.exists_type_iff expression).mpr h.exists_type
  obtain ⟨rule, hrule, -⟩ :=
    (h.exists_rule_iff hreflects [operand]).mpr (mem_operatorSides.mpr (.inl rfl))
  have hlength : (operatorSides expression operand operators).length ≤ sizeLimit := by
    rw [length_operatorSides]
    exact hfew
  have hnames : (operand :: operators).length ≤ sizeLimit := hfew
  obtain ⟨g, hg⟩ := Draft.exists_build (h.keys_eq hreflects)
    (fun rule hrule => (h.exists_rule_iff hreflects _).mp ⟨rule, hrule, rfl⟩)
    (h.startName_eq hreflects) (Draft.hasRules_of_mem_rulesOf hrule) htype hlength
    (fun right hright => (length_le_of_mem_operatorSides hright).trans (by decide)) hnames
    fun right hright name => eq_or_mem_of_mem_operatorSides hright
  exact ⟨g, by rw [Grammar.ofDeclarations, hd]; exact hg⟩

end DeclaresOperators

/-- The rank of an operator is its first place in the priority list, or the length of the list. A
smaller rank binds tighter, and operators of the same rank group to the right. -/
theorem operators_group_by_precedence {declarations : List Declaration}
    {expression operand : String} {operators : List String}
    (h : DeclaresOperators declarations expression operand operators) :
    (operators.length < sizeLimit → ∃ g, Grammar.ofDeclarations declarations = .ok g) ∧
      ∀ g, Grammar.ofDeclarations declarations = .ok g →
        g.compile.diagnostics.conflicts = [] ∧
          ∀ names : List String, (∀ name ∈ names, name ∈ operators) →
            g.GroupsByRank (declarations.filterMap Declaration.priority?).idxOf operand names := by
  refine ⟨h.exists_ofDeclarations, fun g hg => ?_⟩
  have hdeclared := Grammar.declared_of_ofDeclarations hg
  obtain ⟨_, -, -, hgrammar⟩ := h.isOperatorGrammar hdeclared
  refine ⟨?_, fun names => h.groupsByRank hdeclared⟩
  exact conflicts_eq_nil_of_readyAlone hgrammar.wellFormed fun _ => hgrammar.readyAlone

/-- A record with the rules of the operators and the operand, and any priorities. -/
def operatorRecord (expression operand type : String) (operators priorities : List String) :
    GrammarRecord where
  rules := [(expression, (operatorSides expression operand operators).map fun right => ⟨right, ""⟩)]
  start := expression
  priorities := priorities
  resultTypes := [(expression, type)]

theorem declaresOperators_operatorRecord {expression operand : String} {operators : List String}
    (hnames : (goalName :: endOfInputName :: expression :: operand :: operators).Nodup)
    (type : String) (priorities : List String) :
    DeclaresOperators (operatorRecord expression operand type operators priorities).declarations
      expression operand operators where
  nodup_names := hnames
  nonterminal_iff name := by
    rw [GrammarRecord.exists_nonterminal_declared_iff]
    simp [GrammarRecord.nonterminals, operatorRecord]
  sides_iff left right := by
    rw [GrammarRecord.exists_sides_declared_iff]
    simp [GrammarRecord.sides, operatorRecord, eq_comm, and_comm]
  start_iff name := by
    rw [← List.mem_filterMap, GrammarRecord.filterMap_declarations]
    simp [Declaration.start?, operatorRecord, eq_comm]
  exists_type := ⟨type, by simp [GrammarRecord.declarations, operatorRecord]⟩

/-- Three operators, of which one has a priority. -/
def sums : GrammarRecord :=
  operatorRecord "E" "num" "i64" ["+", "*", "-"] ["*"]

theorem sums_group_by_precedence :
    DeclaresOperators sums.declarations "E" "num" ["+", "*", "-"] ∧
      ∃ g, Grammar.ofDeclarations sums.declarations = .ok g ∧
        g.compile.diagnostics.conflicts = [] ∧
          g.GroupsByRank ["*"].idxOf "num" ["+", "*", "-"] := by
  have h : DeclaresOperators sums.declarations "E" "num" ["+", "*", "-"] :=
    declaresOperators_operatorRecord (by decide) "i64" ["*"]
  obtain ⟨haccepted, hgroups⟩ := operators_group_by_precedence h
  obtain ⟨g, hg⟩ := haccepted (by decide)
  obtain ⟨hconflicts, htrees⟩ := hgroups g hg
  exact ⟨h, g, hg, hconflicts, htrees ["+", "*", "-"] (by decide)⟩

end ShiftReduce
