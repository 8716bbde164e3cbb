import ShiftReduce.Grammar.Record
import ShiftReduce.Proofs.Collection.Sorted
import ShiftReduce.Proofs.Grammar.Build

/-!
# Grammars in the words of their declarations

What a grammar has by name is what was declared: nonterminals, productions, terminals in ascending
order, the start symbol and the priorities. Numbers depend on the order of the declarations, but
`Grammar.Declared` does not mention them.
-/

namespace ShiftReduce

namespace Declaration

/-- The nonterminal that is declared. -/
def nonterminal? : Declaration → Option String
  | nonterminal name => some name
  | rule left _ _ => some left
  | _ => none

/-- The two sides of the production that is declared. -/
def sides? : Declaration → Option (String × List String)
  | rule left right _ => some (left, right)
  | _ => none

def start? : Declaration → Option String
  | start name => some name
  | _ => none

def priority? : Declaration → Option String
  | priority terminal => some terminal
  | _ => none

end Declaration

namespace Draft

/-- The rules of a nonterminal in order of declaration. -/
def rulesOf (d : Draft) (name : String) : List Rule :=
  ((d.rules.get? name).getD #[]).toList

theorem rulesOf_addNonterminal (d : Draft) (name other : String) :
    (d.addNonterminal name).rulesOf other = d.rulesOf other := by
  simp only [rulesOf, addNonterminal, OrderedMap.get?_alter]
  split
  next heq => subst heq; simp
  next => rfl

theorem rulesOf_addRule (d : Draft) (left other : String) (rule : Rule) :
    (d.addRule left rule).rulesOf other =
      if other = left then d.rulesOf other ++ [rule] else d.rulesOf other := by
  simp only [rulesOf, addRule, OrderedMap.get?_alter]
  split
  next heq => subst heq; simp
  next => rfl

/-- The draft after a declaration that is not refused. -/
def add (d : Draft) : Declaration → Draft
  | .nonterminal name => d.addNonterminal name
  | .rule left right action => d.addRule left ⟨right, action⟩
  | .resultType nonterminal type =>
    { d with resultTypes := d.resultTypes.insert nonterminal type }
  | .priority terminal => { d with priorities := d.priorities.push terminal }
  | .start name => { d with start := some name }
  | .headerExtra line => { d with settings.headerExtras := d.settings.headerExtras ++ [line] }
  | .verbose on => { d with settings.verbose := on }
  | .parserName name => { d with settings.parserName := name }

theorem eq_add_of_declare {d next : Draft} {declaration : Declaration}
    (hnext : d.declare declaration = .ok next) : next = d.add declaration := by
  cases declaration with
  | nonterminal | rule | start =>
    simp only [declare] at hnext
    split at hnext
    next => cases hnext
    next => exact (Except.ok.inj hnext).symm
  | resultType | priority | headerExtra | verbose | parserName => exact (Except.ok.inj hnext).symm

section Add

variable (d : Draft) (declaration : Declaration)

theorem mem_keys_add (name : String) : name ∈ (d.add declaration).rules.keys.toList ↔
    name ∈ d.rules.keys.toList ∨ declaration.nonterminal? = some name := by
  cases declaration with
  | nonterminal | rule =>
    simp only [add, addNonterminal, addRule, mem_keys_alter, Declaration.nonterminal?,
      Option.some.injEq, eq_comm]
  | _ => simp [add, Declaration.nonterminal?]

theorem exists_rule_add (left : String) (right : List String) :
    (∃ rule ∈ (d.add declaration).rulesOf left, rule.right = right) ↔
      (∃ rule ∈ d.rulesOf left, rule.right = right) ∨
        declaration.sides? = some (left, right) := by
  cases declaration with
  | nonterminal name => simp [add, rulesOf_addNonterminal, Declaration.sides?]
  | rule other side action =>
    simp only [add, rulesOf_addRule, Declaration.sides?, Option.some.injEq, Prod.mk.injEq]
    by_cases heq : left = other
    · simp [heq, or_and_right, exists_or]
    · simp [heq, Ne.symm heq]
  | _ => simp [add, rulesOf, Declaration.sides?]

theorem start_add : (d.add declaration).start = declaration.start?.or d.start := by
  cases declaration <;> rfl

theorem exists_type_add (name : String) :
    (∃ type, (d.add declaration).resultTypes.get? name = some type) ↔
      (∃ type, d.resultTypes.get? name = some type) ∨
        ∃ type, declaration = .resultType name type := by
  cases declaration with
  | resultType other type =>
    simp only [add, OrderedMap.get?_insert, Declaration.resultType.injEq]
    by_cases heq : name = other
    · simp [heq]
    · simp [heq, Ne.symm heq]
  | _ => simp [add, addNonterminal, addRule]

theorem priorities_add : (d.add declaration).priorities.toList =
    d.priorities.toList ++ declaration.priority?.toList := by
  cases declaration with
  | priority terminal => simp [add, Declaration.priority?]
  | _ => simp [add, addNonterminal, addRule, Declaration.priority?]

end Add

/-- A draft has what was declared. -/
structure Reflects (declarations : List Declaration) (d : Draft) : Prop where
  mem_keys_iff : ∀ name, name ∈ d.rules.keys.toList ↔
    ∃ declaration ∈ declarations, declaration.nonterminal? = some name
  exists_rule_iff : ∀ left right, (∃ rule ∈ d.rulesOf left, rule.right = right) ↔
    ∃ declaration ∈ declarations, declaration.sides? = some (left, right)
  exists_type_iff : ∀ name, (∃ type, d.resultTypes.get? name = some type) ↔
    ∃ type, .resultType name type ∈ declarations
  start_eq : d.start = declarations.reverse.findSome? Declaration.start?
  priorities_eq : d.priorities.toList = declarations.filterMap Declaration.priority?

theorem reflects_empty : Reflects [] {} where
  mem_keys_iff _ := by simp
  exists_rule_iff _ _ := by simp [rulesOf, OrderedMap.get?_eq_lookup]
  exists_type_iff _ := by simp [OrderedMap.get?_eq_lookup]
  start_eq := rfl
  priorities_eq := rfl

theorem Reflects.declare {declarations : List Declaration} {d next : Draft}
    (hd : d.Reflects declarations) {declaration : Declaration}
    (hnext : d.declare declaration = .ok next) : next.Reflects (declarations ++ [declaration]) := by
  obtain rfl := eq_add_of_declare hnext
  exact {
    mem_keys_iff name := by
      rw [mem_keys_add, hd.mem_keys_iff]
      simp [or_and_right, exists_or]
    exists_rule_iff left right := by
      rw [exists_rule_add, hd.exists_rule_iff]
      simp [or_and_right, exists_or]
    exists_type_iff name := by
      rw [exists_type_add, hd.exists_type_iff]
      simp [exists_or, eq_comm]
    start_eq := by
      rw [start_add, hd.start_eq, List.reverse_append]
      cases hstart : declaration.start? <;> simp [hstart]
    priorities_eq := by
      rw [priorities_add, hd.priorities_eq, List.filterMap_append]
      cases hpriority : declaration.priority? <;> simp [hpriority] }

theorem reflects_of_declareAll {declarations : List Declaration} {d : Draft}
    (hd : declareAll {} declarations = .ok d) : d.Reflects declarations :=
  foldlM_invariant (P := Reflects) (fun _ _ _ _ hkept hnext => hkept.declare hnext)
    reflects_empty hd

theorem mem_rulesOf_iff {d : Draft} {left : String} {rule : Rule} :
    rule ∈ d.rulesOf left ↔ ∃ rules, (left, rules) ∈ d.rules.toList ∧ rule ∈ rules.toList := by
  rw [rulesOf]
  constructor
  · intro hrule
    cases hfound : d.rules.get? left with
    | none => simp [hfound] at hrule
    | some rules =>
      exact ⟨rules, OrderedMap.get?_eq_some_iff.mp hfound, by simpa [hfound] using hrule⟩
  · rintro ⟨rules, hentry, hrule⟩
    rwa [OrderedMap.get?_eq_some_iff.mpr hentry, Option.getD_some]

theorem mem_mentioned_iff {d : Draft} {name : String} :
    name ∈ d.mentioned ↔ ∃ left, ∃ rule ∈ d.rulesOf left, name ∈ rule.right := by
  simp only [mentioned, ← OrderedMap.map_snd_toList, List.mem_flatMap, List.mem_map,
    mem_rulesOf_iff]
  constructor
  · rintro ⟨rules, ⟨⟨left, _⟩, hentry, rfl⟩, rule, hrule, hname⟩
    exact ⟨left, rule, ⟨_, hentry, hrule⟩, hname⟩
  · rintro ⟨left, rule, ⟨rules, hentry, hrule⟩, hname⟩
    exact ⟨rules, ⟨(left, rules), hentry, rfl⟩, rule, hrule, hname⟩

namespace Supports

variable {d : Draft} {g : Grammar} {v : Vocabulary} {start startType : String} {blocks : List Block}
  (h : d.Supports start startType v blocks g)

include h

theorem name_goal : (g.nonterminal .goal).name = goalName := by
  rw [h.eq_assemble]
  rfl

theorem name_succ {j : Nat} {name : String} (hj : d.rules.keys.toList[j]? = some name) :
    (g.nonterminal ⟨1 + j⟩).name = name := by
  have hnames := h.nonterminal_names
  rw [nonterminals_of_vocabulary h.keepsGoalFree h.vocabulary_eq] at hnames
  have hget := congrArg (·[1 + j]?) hnames
  simp only [List.getElem?_map, Array.getElem?_toList, Nat.add_comm 1 j,
    List.getElem?_cons_succ, hj, Option.map_eq_some_iff] at hget
  obtain ⟨n, hn, rfl⟩ := hget
  rw [Grammar.nonterminal, Array.getD_eq_getD_getElem?, Nat.add_comm 1 j, hn, Option.getD_some]

theorem name_start : (g.nonterminal g.start).name = start := by
  obtain ⟨j, hj⟩ := List.mem_iff_getElem?.mp h.start_mem
  have hplace : v.nonterminals.idx? start = some (j + 1) := by
    rw [Roster.idx?_eq_some_iff, nonterminals_of_vocabulary h.keepsGoalFree h.vocabulary_eq]
    exact hj
  have hstart : g.start = ⟨1 + j⟩ := by
    rw [h.eq_assemble, Nat.add_comm]
    simp [assemble, hplace]
  rw [hstart, h.name_succ hj]

theorem symbolName_resolve {name : String} (hname : name ∈ d.mentioned) :
    g.symbolName (v.resolve name) = name :=
  Grammar.symbolName_of_symbol? (h.symbol?_resolve hname)

theorem map_symbolName_resolve {entry : String × Array Rule} (hentry : entry ∈ d.rules.toList)
    {rule : Rule} (hrule : rule ∈ entry.2.toList) :
    (rule.right.map v.resolve).map g.symbolName = rule.right := by
  rw [List.map_map]
  refine (List.map_congr_left fun name hname => ?_).trans (List.map_id rule.right)
  exact h.symbolName_resolve (mem_mentioned hentry hrule hname)

/-- A production that was made of a rule has the names of the rule. -/
theorem productionNames_of_rule {j : Nat} {entry : String × Array Rule}
    (hentry : d.rules.toList[j]? = some entry) {rule : Rule} (hrule : rule ∈ entry.2.toList)
    {p : ProductionId} {action : String}
    (hp : g.production p = ⟨⟨1 + j⟩, (rule.right.map v.resolve).toArray, action⟩) :
    g.productionNames p = entry.1 :: rule.right := by
  have hkey : d.rules.keys.toList[j]? = some entry.1 := by
    rw [← OrderedMap.map_fst_toList, List.getElem?_map, hentry]
    rfl
  rw [Grammar.productionNames, hp, h.name_succ hkey]
  exact congrArg (entry.1 :: ·)
    (h.map_symbolName_resolve (List.mem_of_getElem? hentry) hrule)

/-- Except for the goal's, productions are by their names the rules. -/
theorem exists_production_iff (left : String) (right : List String) :
    (∃ p ∈ g.productionIds, p ≠ .goal ∧ g.productionNames p = left :: right) ↔
      ∃ rule ∈ d.rulesOf left, rule.right = right := by
  constructor
  · rintro ⟨p, hp, hgoal, hnames⟩
    obtain ⟨j, b, m, hj, hm, -⟩ := h.exists_block hp hgoal
    obtain ⟨symbols, action, hkept, hproduction⟩ := Block.getElem?_productions_iff.mp hm
    obtain ⟨hlt, rfl⟩ := List.getElem?_eq_some_iff.mp hj
    have hentries : j < d.rules.toList.length := h.made.length_eq ▸ hlt
    have hkey := List.mem_map_of_mem (f := Prod.fst) (List.mem_of_getElem? hkept)
    obtain ⟨rule, hrule, rfl⟩ := (h.made.get hentries hlt symbols).mp hkey
    have hsame := h.productionNames_of_rule (List.getElem?_eq_getElem hentries) hrule hproduction
    obtain ⟨rfl, rfl⟩ := List.cons.inj (hsame.symm.trans hnames)
    exact ⟨rule, mem_rulesOf_iff.mpr ⟨_, List.getElem_mem hentries, hrule⟩, rfl⟩
  · rintro ⟨rule, hrule, rfl⟩
    obtain ⟨rules, hentry, hrule⟩ := mem_rulesOf_iff.mp hrule
    obtain ⟨j, hj⟩ := List.mem_iff_getElem?.mp hentry
    obtain ⟨hlt, heq⟩ := List.getElem?_eq_some_iff.mp hj
    have hblocks : j < blocks.length := h.made.length_eq ▸ hlt
    have hkey := (h.made.get hlt hblocks (rule.right.map v.resolve)).mpr
      ⟨rule, by simpa [heq] using hrule, rfl⟩
    obtain ⟨⟨symbols, action⟩, hkept, rfl⟩ := List.mem_map.mp hkey
    obtain ⟨k, hk⟩ := List.mem_iff_getElem?.mp hkept
    have hblock := List.getElem?_eq_getElem hblocks
    obtain ⟨hp, hproduction⟩ := h.production_of_block hblock
      (Block.getElem?_productions_iff.mpr ⟨_, action, hk, rfl⟩)
    have hfirst := Block.first_le_of_mem h.consecutive (List.getElem_mem hblocks)
    refine ⟨_, hp, fun hgoal => ?_, h.productionNames_of_rule hj hrule hproduction⟩
    have hzero : (blocks[j]).first + k = 0 := congrArg ProductionId.index hgoal
    omega

/-- Behind the end of input the terminals are the other mentioned names, in ascending order. -/
theorem exists_terminal_names : ∃ names, g.terminals.toList.map Terminal.name =
    endOfInputName :: names ∧ names.Pairwise (fun x y => compare x y = .lt) ∧
      ∀ name, name ∈ names ↔ name ≠ endOfInputName ∧ name ∈ d.mentioned ∧
        name ∉ v.nonterminals.toList := by
  let others := Std.TreeSet.ofList (d.mentioned.filter fun name => !v.nonterminals.contains name)
  have hascending : others.toList.Pairwise fun x y => compare x y = .lt :=
    Std.TreeSet.ordered_toList
  have hnodup : others.toList.Nodup := nodup_of_pairwise_lt _ hascending
  have hnames : v.terminals.toList =
      endOfInputName :: others.toList.filter (· ∉ [endOfInputName]) := by
    rw [(eq_of_vocabulary h.vocabulary_eq).2]
    exact Roster.toList_addAll (r := Roster.add ∅ endOfInputName) hnodup
  refine ⟨_, h.terminal_names.trans hnames, hascending.filter _, fun name => ?_⟩
  simp only [List.mem_filter, others, Std.TreeSet.mem_toList, Std.TreeSet.mem_ofList,
    List.contains_iff_mem, Bool.not_eq_true', ← Bool.not_eq_true, Roster.contains_iff,
    List.mem_singleton, decide_eq_true_eq]
  exact and_comm

theorem priority_eq {t : TerminalId} (ht : t ∈ g.terminalIds) :
    (g.terminal t).priority = g.priorities.idxOf? (g.terminal t).name := by
  rw [Grammar.mem_terminalIds] at ht
  rw [Grammar.terminal, Array.getD_eq_getD_getElem?, Array.getElem?_eq_getElem ht, Option.getD_some]
  simp only [h.eq_assemble, assemble, Array.getElem_map]
  rfl

end Supports

end Draft

/-- The grammar has by name what was declared. -/
structure Grammar.Declared (declarations : List Declaration) (g : Grammar) : Prop where
  wellFormed : g.WellFormed
  name_goal : (g.nonterminal .goal).name = goalName
  exists_nonterminal_iff : ∀ name, (∃ n ∈ g.nonterminalIds, (g.nonterminal n).name = name) ↔
    name = goalName ∨ ∃ declaration ∈ declarations, declaration.nonterminal? = some name
  exists_production_iff : ∀ left right,
    (∃ p ∈ g.productionIds, p ≠ .goal ∧ g.productionNames p = left :: right) ↔
      ∃ declaration ∈ declarations, declaration.sides? = some (left, right)
  /-- The last declaration of a start symbol counts. -/
  name_start : ∀ name, declarations.reverse.findSome? Declaration.start? = some name →
    (g.nonterminal g.start).name = name
  /-- The end of input comes first, and the other mentioned names in ascending order. -/
  exists_terminal_names : ∃ names, g.terminals.toList.map Terminal.name = endOfInputName :: names ∧
    names.Pairwise (fun x y => compare x y = .lt) ∧
      ∀ name, name ∈ names ↔ name ≠ endOfInputName ∧
        (∃ left right, (∃ declaration ∈ declarations,
          declaration.sides? = some (left, right)) ∧ name ∈ right) ∧
        ¬ (name = goalName ∨ ∃ declaration ∈ declarations, declaration.nonterminal? = some name)
  priority_eq : ∀ t ∈ g.terminalIds,
    (g.terminal t).priority = g.priorities.idxOf? (g.terminal t).name
  priorities_eq : g.priorities = declarations.filterMap Declaration.priority?

theorem Grammar.exists_nonterminal_iff_mem {g : Grammar} {name : String} :
    (∃ n ∈ g.nonterminalIds, (g.nonterminal n).name = name) ↔
      name ∈ g.nonterminals.toList.map Nonterminal.name := by
  simp only [mem_nonterminalIds, List.mem_map, Array.mem_toList_iff, Array.mem_iff_getElem]
  constructor
  · rintro ⟨n, hn, rfl⟩
    exact ⟨_, ⟨n.index, hn, rfl⟩, by simp [nonterminal, hn]⟩
  · rintro ⟨_, ⟨i, hi, rfl⟩, rfl⟩
    exact ⟨⟨i⟩, hi, by simp [nonterminal, hi]⟩

theorem Grammar.declared_of_ofDeclarations {declarations : List Declaration} {g : Grammar}
    (hg : Grammar.ofDeclarations declarations = .ok g) : g.Declared declarations := by
  obtain ⟨d, hd, hbuild⟩ := exists_of_bind_eq_ok hg
  have hfree := Draft.keepsGoalFree_of_declareAll hd
  obtain ⟨hkeys, hrules, -, hstart, hpriorities⟩ := Draft.reflects_of_declareAll hd
  obtain ⟨start, startType, v, blocks, hname, h⟩ := Draft.exists_supports hfree hbuild
  have hnames : ∀ name, name ∈ v.nonterminals.toList ↔
      name = goalName ∨ ∃ declaration ∈ declarations, declaration.nonterminal? = some name := by
    intro name
    rw [Draft.nonterminals_of_vocabulary hfree h.vocabulary_eq, List.mem_cons, hkeys]
  exact {
    wellFormed := h.wellFormed
    name_goal := h.name_goal
    exists_nonterminal_iff name := by
      rw [exists_nonterminal_iff_mem, h.nonterminal_names, hnames]
    exists_production_iff left right := by rw [h.exists_production_iff, hrules]
    name_start name hlast := by
      rw [← hstart] at hlast
      rw [Draft.startName, hlast] at hname
      rw [h.name_start, Except.ok.inj hname]
    exists_terminal_names := by
      obtain ⟨names, hterminals, hascending, hmem⟩ := h.exists_terminal_names
      refine ⟨names, hterminals, hascending, fun name => ?_⟩
      rw [hmem, hnames, Draft.mem_mentioned_iff]
      simp only [← hrules]
      refine and_congr_right fun _ => and_congr_left fun _ => exists_congr fun left => ?_
      constructor
      · rintro ⟨rule, hrule, hname⟩
        exact ⟨rule.right, ⟨rule, hrule, rfl⟩, hname⟩
      · rintro ⟨_, ⟨rule, hrule, rfl⟩, hname⟩
        exact ⟨rule, hrule, hname⟩
    priority_eq _ ht := h.priority_eq ht
    priorities_eq := by
      rw [h.eq_assemble]
      exact hpriorities }

theorem Grammar.Declared.name_endOfInput {declarations : List Declaration} {g : Grammar}
    (hg : g.Declared declarations) : (g.terminal .endOfInput).name = endOfInputName := by
  obtain ⟨names, hnames, -⟩ := hg.exists_terminal_names
  have hfirst := congrArg List.head? hnames
  rw [List.head?_cons, List.head?_map, Option.map_eq_some_iff] at hfirst
  obtain ⟨terminal, hterminal, hname⟩ := hfirst
  rw [List.head?_eq_getElem?, Array.getElem?_toList] at hterminal
  rw [Grammar.terminal, Array.getD_eq_getD_getElem?]
  exact (congrArg (fun found => (Option.getD found default).name) hterminal).trans hname

namespace GrammarRecord

def nonterminals (r : GrammarRecord) : List String :=
  r.rules.map Prod.fst

/-- The two sides of every rule. -/
def sides (r : GrammarRecord) : List (String × List String) :=
  r.rules.flatMap fun entry => entry.2.map fun rule => (entry.1, rule.right)

section Declarations

variable (r : GrammarRecord)

/-- What is picked from the declarations comes from the parts of the record, one after the other. -/
theorem filterMap_declarations {α : Type} (pick : Declaration → Option α) :
    r.declarations.filterMap pick =
      r.rules.flatMap (fun entry => (pick (.nonterminal entry.1)).toList ++
        entry.2.filterMap fun rule => pick (.rule entry.1 rule.right rule.action)) ++
      (pick (.start r.start)).toList ++
      r.priorities.filterMap (fun terminal => pick (.priority terminal)) ++
      r.resultTypes.filterMap (fun entry => pick (.resultType entry.1 entry.2)) ++
      r.headerExtras.filterMap (fun line => pick (.headerExtra line)) ++
      (pick (.verbose r.verbose)).toList ++ (pick (.parserName r.parserName)).toList := by
  have hcons (d : Declaration) (ds : List Declaration) :
      (d :: ds).filterMap pick = (pick d).toList ++ ds.filterMap pick := by
    cases hpick : pick d <;> simp [hpick]
  simp only [declarations, ruleDeclarations, List.filterMap_append, List.filterMap_flatMap,
    List.filterMap_map, Function.comp_def, hcons, List.filterMap_nil, List.append_nil,
    List.append_assoc]

theorem exists_nonterminal_declared_iff (name : String) :
    (∃ declaration ∈ r.declarations, declaration.nonterminal? = some name) ↔
      name ∈ r.nonterminals := by
  rw [← List.mem_filterMap, filterMap_declarations]
  simp [Declaration.nonterminal?, eq_comm, or_iff_left_of_imp, nonterminals]

theorem exists_sides_declared_iff (left : String) (right : List String) :
    (∃ declaration ∈ r.declarations, declaration.sides? = some (left, right)) ↔
      (left, right) ∈ r.sides := by
  rw [← List.mem_filterMap, filterMap_declarations]
  simp [Declaration.sides?, sides]

theorem last_start_declared :
    r.declarations.reverse.findSome? Declaration.start? = some r.start := by
  rw [← List.head?_filterMap, List.filterMap_reverse, filterMap_declarations]
  simp [Declaration.start?]

theorem priorities_declared : r.declarations.filterMap Declaration.priority? = r.priorities := by
  rw [filterMap_declarations]
  simp [Declaration.priority?]

end Declarations

end GrammarRecord

end ShiftReduce
