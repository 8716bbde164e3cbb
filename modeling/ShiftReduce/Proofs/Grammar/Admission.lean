import ShiftReduce.Grammar.Load
import ShiftReduce.Proofs.Grammar.Accepted
import ShiftReduce.Proofs.Grammar.InOrder
import ShiftReduce.Proofs.Grammar.RuleCheck

/-!
# Which records are admitted

A record is refused for the first condition that it violates, in a fixed order: the name of the
goal, the start symbol's rules and its type, the number of nonterminals, the number of terminals,
and then the rules one by one. A record that violates none of them has a grammar.
-/

namespace ShiftReduce

namespace GrammarRecord

variable (r : GrammarRecord)

/-- The names on right-hand sides that are neither nonterminals nor reserved. -/
def terminalNames : List String :=
  (r.sides.flatMap Prod.snd).filter fun name =>
    name ∉ r.nonterminals ∧ name ≠ goalName ∧ name ≠ endOfInputName

/-- Neither a nonterminal nor the start symbol has the name of the goal. -/
def AvoidsGoal : Prop :=
  goalName ∉ r.nonterminals ∧ r.start ≠ goalName

def StartHasRules : Prop :=
  ∃ rules, (r.start, rules) ∈ r.rules ∧ rules ≠ []

def StartHasType : Prop :=
  ∃ type, (r.start, type) ∈ r.resultTypes

/-- The record violates no condition. -/
structure IsAdmissible : Prop where
  avoidsGoal : r.AvoidsGoal
  startHasRules : r.StartHasRules
  startHasType : r.StartHasType
  length_nonterminals_le : r.nonterminals.length ≤ 65535
  card_terminalNames_le : r.terminalNames.toFinset.card ≤ 65535
  rulesFit : RulesFit r.sides

/-- The first condition that the record violates, with the error that says so. -/
inductive FirstProblem : GrammarError → Prop
  | reservedName (hgoal : ¬ r.AvoidsGoal) : FirstProblem (.reservedName goalName)
  | missingStartRules (hgoal : r.AvoidsGoal) (hrules : ¬ r.StartHasRules) :
      FirstProblem (.missingStartRules r.start)
  | missingStartType (hgoal : r.AvoidsGoal) (hrules : r.StartHasRules) (htype : ¬ r.StartHasType) :
      FirstProblem (.missingStartType r.start)
  | tooManyNonterminals (hgoal : r.AvoidsGoal) (hrules : r.StartHasRules) (htype : r.StartHasType)
      (hmany : 65535 < r.nonterminals.length) : FirstProblem .tooManyNonterminals
  | tooManyTerminals (hgoal : r.AvoidsGoal) (hrules : r.StartHasRules) (htype : r.StartHasType)
      (hnonterminals : r.nonterminals.length ≤ 65535)
      (hmany : 65535 < r.terminalNames.toFinset.card) : FirstProblem .tooManyTerminals
  | rule (hgoal : r.AvoidsGoal) (hrules : r.StartHasRules) (htype : r.StartHasType)
      (hnonterminals : r.nonterminals.length ≤ 65535)
      (hterminals : r.terminalNames.toFinset.card ≤ 65535) {e : GrammarError}
      (he : FirstRuleProblem r.sides e) : FirstProblem e

theorem isAdmissible_or_exists_firstProblem : r.IsAdmissible ∨ ∃ e, r.FirstProblem e := by
  -- one condition after the other, each under those before it
  by_cases hgoal : r.AvoidsGoal
  swap
  · exact .inr ⟨_, .reservedName hgoal⟩
  by_cases hrules : r.StartHasRules
  swap
  · exact .inr ⟨_, .missingStartRules hgoal hrules⟩
  by_cases htype : r.StartHasType
  swap
  · exact .inr ⟨_, .missingStartType hgoal hrules htype⟩
  by_cases hnonterminals : 65535 < r.nonterminals.length
  · exact .inr ⟨_, .tooManyNonterminals hgoal hrules htype hnonterminals⟩
  by_cases hterminals : 65535 < r.terminalNames.toFinset.card
  · exact .inr ⟨_, .tooManyTerminals hgoal hrules htype (Nat.not_lt.mp hnonterminals) hterminals⟩
  rcases rulesFit_or_exists_firstRuleProblem r.sides with hfit | ⟨e, he⟩
  · exact .inl ⟨hgoal, hrules, htype, Nat.not_lt.mp hnonterminals, Nat.not_lt.mp hterminals, hfit⟩
  · exact .inr ⟨e, .rule hgoal hrules htype (Nat.not_lt.mp hnonterminals)
      (Nat.not_lt.mp hterminals) he⟩

end GrammarRecord

theorem Roster.size_eq_card {α : Type} [Ord α] [Std.TransOrd α] [Std.LawfulEqOrd α]
    [DecidableEq α] (r : Roster α) : r.size = r.toList.toFinset.card :=
  (List.toFinset_card_of_nodup r.nodup).symm

namespace Draft

theorem declare_eq_error {declaration : Declaration}
    (hgoal : declaration.nonterminal? = some goalName ∨ declaration.start? = some goalName)
    (d : Draft) : d.declare declaration = .error (.reservedName goalName) := by
  cases declaration with
  | nonterminal | rule | start =>
    obtain rfl : _ = goalName := by
      simpa [Declaration.nonterminal?, Declaration.start?] using hgoal
    simp [declare]
  | _ => simp [Declaration.nonterminal?, Declaration.start?] at hgoal

theorem eq_reservedName_of_declare {d : Draft} {declaration : Declaration} {e : GrammarError}
    (he : d.declare declaration = .error e) : e = .reservedName goalName := by
  cases declaration with
  | nonterminal | rule | start =>
    simp only [declare] at he
    split at he
    next hname => rw [← Except.error.inj he, hname]
    next => cases he
  | _ => cases he

/-- The name of the goal is refused wherever it is declared. -/
theorem declareAll_eq_error {declarations : List Declaration}
    (hgoal : ∃ declaration ∈ declarations,
      declaration.nonterminal? = some goalName ∨ declaration.start? = some goalName) (d : Draft) :
    d.declareAll declarations = .error (.reservedName goalName) := by
  induction declarations generalizing d with
  | nil =>
    obtain ⟨_, hmem, -⟩ := hgoal
    exact absurd hmem List.not_mem_nil
  | cons first rest ih =>
    rw [declareAll, List.foldlM_cons]
    cases hfirst : d.declare first with
    | error e =>
      rw [eq_reservedName_of_declare hfirst]
      rfl
    | ok next =>
      obtain ⟨declaration, hmem, hname⟩ := hgoal
      rcases List.mem_cons.mp hmem with rfl | hmem
      · rw [declare_eq_error hname] at hfirst
        cases hfirst
      · exact ih ⟨declaration, hmem, hname⟩ next

variable {d : Draft}

theorem hasRules_iff {name : String} :
    d.hasRules name = true ↔ ∃ rule, rule ∈ d.rulesOf name := by
  refine ⟨fun hrules => ?_, fun ⟨_, hrule⟩ => hasRules_of_mem_rulesOf hrule⟩
  rw [hasRules, Option.any_eq_true] at hrules
  obtain ⟨rules, hfound, hne⟩ := hrules
  rw [rulesOf, hfound, Option.getD_some]
  exact List.exists_mem_of_ne_nil _ (by simpa using hne)

/-- The rules of a draft are told by its nonterminals and the rules of each. -/
theorem toList_rules :
    d.rules.toList = d.rules.keys.toList.map fun name => (name, (d.rulesOf name).toArray) := by
  rw [← OrderedMap.map_fst_toList, List.map_map]
  refine (List.map_id _).symm.trans (List.map_congr_left fun entry hentry => ?_)
  obtain ⟨name, rules⟩ := entry
  simp [rulesOf, OrderedMap.get?_eq_some_iff.mpr hentry]

section Build

variable {start startType : String} (hstart : d.startName = .ok start)

include hstart

theorem build_of_not_hasRules (hrules : ¬ d.hasRules start = true) :
    d.build = .error (.missingStartRules start) := by
  simp [build, hstart, hrules, bind, Except.bind, throw, throwThe, MonadExceptOf.throw]

theorem build_of_get?_eq_none (hrules : d.hasRules start = true)
    (htype : d.resultTypes.get? start = none) : d.build = .error (.missingStartType start) := by
  simp [build, hstart, hrules, htype, bind, Except.bind, throw, throwThe, MonadExceptOf.throw]

/-- With rules and a type for the start symbol, symbols and productions are left to be numbered. -/
theorem build_eq (hrules : d.hasRules start = true)
    (htype : d.resultTypes.get? start = some startType) :
    d.build = d.vocabulary >>= fun v => d.rules.toList.foldlM (Block.append v) #[] >>= fun blocks =>
      pure (d.assemble start startType v blocks.toList) := by
  simp [build, hstart, hrules, htype, bind, Except.bind]

end Build

/-- The draft's names are counted as those of the vocabulary, without the reserved ones. -/
theorem vocabulary_eq (hd : d.KeepsGoalFree) {names : List String}
    (hnames : ∀ name, name ∈ names ↔ name ∈ d.mentioned ∧ name ∉ d.rules.keys.toList ∧
      name ≠ goalName ∧ name ≠ endOfInputName) :
    d.vocabulary = if 65535 < d.rules.keys.toList.length then .error .tooManyNonterminals
      else if 65535 < names.toFinset.card then .error .tooManyTerminals
      else .ok ⟨Vocabulary.nonterminalsOf d.rules.keys.toList, Vocabulary.terminalsOf
        (Vocabulary.nonterminalsOf d.rules.keys.toList) d.mentioned⟩ := by
  have hlist : (Vocabulary.nonterminalsOf d.rules.keys.toList).toList =
      goalName :: d.rules.keys.toList :=
    Roster.toList_ofList_of_nodup (List.nodup_cons.mpr ⟨hd.goalName_not_mem, d.rules.keys.nodup⟩)
  have hnonterminals : (Vocabulary.nonterminalsOf d.rules.keys.toList).size =
      d.rules.keys.toList.length + 1 := congrArg List.length hlist
  have hinsert : (Vocabulary.terminalsOf (Vocabulary.nonterminalsOf d.rules.keys.toList)
      d.mentioned).toList.toFinset = insert endOfInputName names.toFinset := by
    ext name
    rw [List.mem_toFinset, Vocabulary.mem_terminalsOf, Finset.mem_insert, List.mem_toFinset, hnames,
      hlist, List.mem_cons, not_or]
    by_cases hend : name = endOfInputName <;> simp [hend, and_comm]
  have hterminals : (Vocabulary.terminalsOf (Vocabulary.nonterminalsOf d.rules.keys.toList)
      d.mentioned).size = names.toFinset.card + 1 := by
    have hend : endOfInputName ∉ names.toFinset := by
      rw [List.mem_toFinset, hnames]
      exact fun hmem => hmem.2.2.2 rfl
    rw [Roster.size_eq_card, hinsert, Finset.card_insert_of_notMem hend]
  simp only [vocabulary, hnonterminals, hterminals, sizeLimit, gt_iff_lt, Nat.add_lt_add_iff_right]

end Draft

namespace GrammarRecord

section Lists

variable {r : GrammarRecord} (hkeys : r.nonterminals.Nodup)

include hkeys

theorem nonterminals_declarations : Declarations.nonterminals r.declarations = r.nonterminals := by
  have hdeclared : r.declarations.filterMap Declaration.nonterminal? =
      r.rules.flatMap fun entry => entry.1 :: entry.2.map fun _ => entry.1 := by
    rw [filterMap_declarations]
    simp [Declaration.nonterminal?]
  rw [Declarations.nonterminals, hdeclared]
  exact eraseDups_flatMap hkeys (by simp)

theorem rulesOf_declarations {entry : String × List Rule} (hentry : entry ∈ r.rules) :
    Declarations.rulesOf r.declarations entry.1 = entry.2 := by
  have hdeclared : Declarations.rulesOf r.declarations entry.1 =
      r.rules.flatMap fun other => if entry.1 = other.1 then other.2 else [] := by
    rw [Declarations.rulesOf, filterMap_declarations]
    simp only [Declaration.ruleOf?, Option.toList_none, List.nil_append, List.append_nil,
      List.filterMap_none]
    refine List.flatMap_congr fun other _ => ?_
    split
    next => simp
    next => simp
  -- nonterminals have one entry each, so the others contribute nothing
  obtain ⟨before, after, hrules⟩ := List.append_of_mem hentry
  have hfresh : ∀ other ∈ before ++ after, entry.1 ≠ other.1 := by
    rw [nonterminals, hrules, List.map_append, List.map_cons, List.nodup_middle,
      ← List.map_append, List.nodup_cons] at hkeys
    exact fun other hother heq => hkeys.1 (heq ▸ List.mem_map_of_mem hother)
  have hnone (others : List (String × List Rule)) (hothers : others ⊆ before ++ after) :
      (others.flatMap fun other => if entry.1 = other.1 then other.2 else []) = [] :=
    List.flatMap_eq_nil_iff.mpr fun other hother => if_neg (hfresh other (hothers hother))
  rw [hdeclared, hrules, List.flatMap_append, List.flatMap_cons, if_pos rfl,
    hnone before (List.subset_append_left _ _), hnone after (List.subset_append_right _ _),
    List.nil_append, List.append_nil]

end Lists

theorem avoidsGoal_iff {r : GrammarRecord} : r.AvoidsGoal ↔ ¬ ∃ declaration ∈ r.declarations,
    declaration.nonterminal? = some goalName ∨ declaration.start? = some goalName := by
  have hstart : (∃ declaration ∈ r.declarations, declaration.start? = some goalName) ↔
      r.start = goalName := by
    rw [← List.mem_filterMap, filterMap_declarations]
    simp [Declaration.start?, eq_comm]
  simp only [and_or_left, exists_or]
  rw [exists_nonterminal_declared_iff, hstart, not_or]
  rfl

/-- The draft has what the record says. -/
structure Holds (r : GrammarRecord) (d : Draft) : Prop where
  keepsGoalFree : d.KeepsGoalFree
  startName_eq : d.startName = .ok r.start
  keys_eq : d.rules.keys.toList = r.nonterminals
  sides_eq : Block.sidesOfEntries d.rules.toList = r.sides
  exists_rule_iff : ∀ left right, (∃ rule ∈ d.rulesOf left, rule.right = right) ↔
    (left, right) ∈ r.sides
  exists_type_iff : (∃ type, d.resultTypes.get? r.start = some type) ↔ r.StartHasType

theorem exists_holds {r : GrammarRecord} (hkeys : r.nonterminals.Nodup) (hgoal : r.AvoidsGoal) :
    ∃ d, Draft.declareAll {} r.declarations = .ok d ∧ r.Holds d := by
  have havoids := avoidsGoal_iff.mp hgoal
  obtain ⟨d, hd⟩ := Draft.exists_declareAll
    (fun declaration hmem hname => havoids ⟨declaration, hmem, .inl hname⟩)
    (fun declaration hmem hname => havoids ⟨declaration, hmem, .inr hname⟩)
  have hreflects := Draft.reflects_of_declareAll hd
  have hlists := Draft.lists_of_declareAll hd
  have hnames : d.rules.keys.toList = r.nonterminals :=
    hlists.keys_eq.trans (nonterminals_declarations hkeys)
  refine ⟨d, hd, {
    keepsGoalFree := Draft.keepsGoalFree_of_declareAll hd
    startName_eq := ?_
    keys_eq := hnames
    sides_eq := ?_
    exists_rule_iff left right := by
      rw [hreflects.exists_rule_iff, exists_sides_declared_iff]
    exists_type_iff := ?_ }⟩
  · rw [Draft.startName, hreflects.start_eq, last_start_declared]
  · rw [Draft.toList_rules, hnames, nonterminals, Block.sidesOfEntries, List.map_map,
      List.flatMap_map, sides]
    refine List.flatMap_congr fun entry hentry => ?_
    simp [Block.sidesOf, hlists.rulesOf_eq, rulesOf_declarations hkeys hentry]
  · rw [hreflects.exists_type_iff, StartHasType]
    simp [declarations, ruleDeclarations]

namespace Holds

variable {r : GrammarRecord} {d : Draft} (h : r.Holds d)

include h

theorem hasRules_iff : d.hasRules r.start = true ↔ r.StartHasRules := by
  have hsides : r.StartHasRules ↔ ∃ right, (r.start, right) ∈ r.sides := by
    simp only [StartHasRules, sides, List.mem_flatMap, List.mem_map, Prod.mk.injEq]
    constructor
    · rintro ⟨rules, hentry, hne⟩
      obtain ⟨rule, hrule⟩ := List.exists_mem_of_ne_nil _ hne
      exact ⟨rule.right, _, hentry, rule, hrule, rfl, rfl⟩
    · rintro ⟨_, entry, hentry, rule, hrule, hkey, -⟩
      exact ⟨entry.2, hkey ▸ hentry, List.ne_nil_of_mem hrule⟩
  rw [Draft.hasRules_iff, hsides]
  simp only [← h.exists_rule_iff]
  constructor
  · rintro ⟨rule, hrule⟩
    exact ⟨rule.right, rule, hrule, rfl⟩
  · rintro ⟨_, rule, hrule, -⟩
    exact ⟨rule, hrule⟩

theorem mem_terminalNames_iff (name : String) : name ∈ r.terminalNames ↔ name ∈ d.mentioned ∧
    name ∉ d.rules.keys.toList ∧ name ≠ goalName ∧ name ≠ endOfInputName := by
  have hmentioned : name ∈ r.sides.flatMap Prod.snd ↔ name ∈ d.mentioned := by
    rw [List.mem_flatMap, Draft.mem_mentioned_iff]
    constructor
    · rintro ⟨⟨left, right⟩, hsides, hname⟩
      obtain ⟨rule, hrule, rfl⟩ := (h.exists_rule_iff left right).mpr hsides
      exact ⟨left, rule, hrule, hname⟩
    · rintro ⟨left, rule, hrule, hname⟩
      exact ⟨_, (h.exists_rule_iff left rule.right).mp ⟨rule, hrule, rfl⟩, hname⟩
  rw [terminalNames, List.mem_filter, hmentioned, h.keys_eq, decide_eq_true_eq]

theorem vocabulary_eq : d.vocabulary =
    if 65535 < r.nonterminals.length then .error .tooManyNonterminals
    else if 65535 < r.terminalNames.toFinset.card then .error .tooManyTerminals
    else .ok ⟨Vocabulary.nonterminalsOf r.nonterminals,
      Vocabulary.terminalsOf (Vocabulary.nonterminalsOf r.nonterminals) d.mentioned⟩ := by
  rw [Draft.vocabulary_eq h.keepsGoalFree h.mem_terminalNames_iff, h.keys_eq]

theorem exists_vocabulary (hnonterminals : r.nonterminals.length ≤ 65535)
    (hterminals : r.terminalNames.toFinset.card ≤ 65535) : ∃ v, d.vocabulary = .ok v := by
  rw [h.vocabulary_eq, if_neg (Nat.not_lt.mpr hnonterminals), if_neg (Nat.not_lt.mpr hterminals)]
  exact ⟨_, rfl⟩

theorem exists_build_eq (hrules : r.StartHasRules) (htype : r.StartHasType) :
    ∃ type, d.build = d.vocabulary >>= fun v =>
      d.rules.toList.foldlM (Block.append v) #[] >>= fun blocks =>
        pure (d.assemble r.start type v blocks.toList) := by
  obtain ⟨type, htype⟩ := h.exists_type_iff.mpr htype
  exact ⟨type, Draft.build_eq h.startName_eq (h.hasRules_iff.mpr hrules) htype⟩

end Holds

theorem toGrammar_eq_build {r : GrammarRecord} {d : Draft}
    (hd : Draft.declareAll {} r.declarations = .ok d) : r.toGrammar = d.build := by
  rw [toGrammar, Grammar.ofDeclarations, hd]
  rfl

section Outcome

variable {r : GrammarRecord} (hkeys : r.nonterminals.Nodup)

include hkeys

theorem IsAdmissible.exists_toGrammar (hr : r.IsAdmissible) : ∃ g, r.toGrammar = .ok g := by
  obtain ⟨d, hd, h⟩ := exists_holds hkeys hr.avoidsGoal
  obtain ⟨type, hbuild⟩ := h.exists_build_eq hr.startHasRules hr.startHasType
  obtain ⟨v, hv⟩ := h.exists_vocabulary hr.length_nonterminals_le hr.card_terminalNames_le
  obtain ⟨blocks, hblocks⟩ := Draft.exists_blocks_of_rulesFit hv (h.sides_eq ▸ hr.rulesFit)
  simp [toGrammar_eq_build hd, hbuild, hv, hblocks, bind, Except.bind, pure, Except.pure]

theorem FirstProblem.toGrammar_eq {problem : GrammarError} (hproblem : r.FirstProblem problem) :
    r.toGrammar = .error problem := by
  cases hproblem with
  | reservedName hgoal =>
    rw [toGrammar, Grammar.ofDeclarations,
      Draft.declareAll_eq_error (of_not_not (avoidsGoal_iff.not.mp hgoal))]
    rfl
  | missingStartRules hgoal hrules =>
    obtain ⟨d, hd, h⟩ := exists_holds hkeys hgoal
    rw [toGrammar_eq_build hd]
    exact Draft.build_of_not_hasRules h.startName_eq (h.hasRules_iff.not.mpr hrules)
  | missingStartType hgoal hrules htype =>
    obtain ⟨d, hd, h⟩ := exists_holds hkeys hgoal
    have hnone : d.resultTypes.get? r.start = none :=
      Option.eq_none_iff_forall_ne_some.mpr fun type hfound =>
        htype (h.exists_type_iff.mp ⟨type, hfound⟩)
    rw [toGrammar_eq_build hd]
    exact Draft.build_of_get?_eq_none h.startName_eq (h.hasRules_iff.mpr hrules) hnone
  | tooManyNonterminals hgoal hrules htype hmany =>
    obtain ⟨d, hd, h⟩ := exists_holds hkeys hgoal
    obtain ⟨type, hbuild⟩ := h.exists_build_eq hrules htype
    rw [toGrammar_eq_build hd, hbuild, h.vocabulary_eq, if_pos hmany]
    rfl
  | tooManyTerminals hgoal hrules htype hnonterminals hmany =>
    obtain ⟨d, hd, h⟩ := exists_holds hkeys hgoal
    obtain ⟨type, hbuild⟩ := h.exists_build_eq hrules htype
    rw [toGrammar_eq_build hd, hbuild, h.vocabulary_eq, if_neg (Nat.not_lt.mpr hnonterminals),
      if_pos hmany]
    rfl
  | rule hgoal hrules htype hnonterminals hterminals he =>
    obtain ⟨d, hd, h⟩ := exists_holds hkeys hgoal
    obtain ⟨type, hbuild⟩ := h.exists_build_eq hrules htype
    obtain ⟨v, hv⟩ := h.exists_vocabulary hnonterminals hterminals
    have hblocks := Draft.blocks_eq_error hv (h.sides_eq ▸ he)
    simp [toGrammar_eq_build hd, hbuild, hv, hblocks, bind, Except.bind]

/-- A record with one entry for each nonterminal has a grammar exactly if it is admissible, and is
otherwise refused for what is first wrong with it. -/
theorem ofRecord_outcome : ((∃ g, Grammar.ofRecord r = .ok g) ↔ r.IsAdmissible) ∧
    ∀ e, Grammar.ofRecord r = .error e ↔
      ∃ problem, r.FirstProblem problem ∧ e = .grammar problem := by
  have hok (hr : r.IsAdmissible) : ∃ g, Grammar.ofRecord r = .ok g := by
    obtain ⟨g, hg⟩ := hr.exists_toGrammar hkeys
    exact ⟨g, by rw [Grammar.ofRecord, hg]; rfl⟩
  have herror {problem : GrammarError} (hproblem : r.FirstProblem problem) :
      Grammar.ofRecord r = .error (.grammar problem) := by
    rw [Grammar.ofRecord, hproblem.toGrammar_eq hkeys]
    rfl
  refine ⟨⟨fun ⟨g, hg⟩ => ?_, hok⟩, fun e => ⟨fun he => ?_, ?_⟩⟩
  · rcases r.isAdmissible_or_exists_firstProblem with hr | ⟨problem, hproblem⟩
    · exact hr
    · rw [herror hproblem] at hg
      cases hg
  · rcases r.isAdmissible_or_exists_firstProblem with hr | ⟨problem, hproblem⟩
    · obtain ⟨g, hg⟩ := hok hr
      rw [hg] at he
      cases he
    · exact ⟨problem, hproblem, Except.error.inj (he.symm.trans (herror hproblem))⟩
  · rintro ⟨problem, hproblem, rfl⟩
    exact herror hproblem

end Outcome

/-- A rule that is just too long, behind one that is repeated by another one. -/
def overlongRecord : GrammarRecord where
  rules := [("S", [⟨["x"], "first"⟩, ⟨["x"], "again"⟩, ⟨List.replicate 65536 "x", ""⟩])]
  start := "S"
  resultTypes := [("S", "int")]

theorem sides_overlongRecord : overlongRecord.sides =
    [("S", ["x"]), ("S", ["x"]), ("S", List.replicate 65536 "x")] := rfl

theorem terminalNames_overlongRecord : overlongRecord.terminalNames.toFinset ⊆ {"x"} := by
  intro name hname
  rw [List.mem_toFinset] at hname
  obtain ⟨rule, hrule, hname⟩ := List.mem_flatMap.mp (List.mem_of_mem_filter hname)
  have hall : ∀ other ∈ List.replicate 65536 "x", other = "x" := fun _ => List.eq_of_mem_replicate
  rw [sides_overlongRecord] at hrule
  generalize List.replicate 65536 "x" = long at hrule hall
  simp only [List.mem_cons, List.not_mem_nil, or_false] at hrule
  rcases hrule with rfl | rfl | rfl
  · simpa using hname
  · simpa using hname
  · simpa using hall name hname

theorem firstRuleProblem_overlongRecord :
    FirstRuleProblem overlongRecord.sides (.tooManySymbols "S" 65536) := by
  have hlength : (List.replicate 65536 "x").length = 65536 := List.length_replicate
  have hbefore : RulesFit [("S", ["x"]), ("S", ["x"])] := ⟨by simp, by simp⟩
  have hproblem := FirstRuleProblem.tooManySymbols _ [] "S" _ sides_overlongRecord hbefore
    (by rw [hlength]; decide)
  rwa [hlength] at hproblem

theorem overlongRecord_refused : overlongRecord.nonterminals.Nodup ∧
    Grammar.ofRecord overlongRecord = .error (.grammar (.tooManySymbols "S" 65536)) := by
  have hkeys : overlongRecord.nonterminals.Nodup := by decide
  have hgoal : overlongRecord.AvoidsGoal := ⟨by decide, by decide⟩
  have hrules : overlongRecord.StartHasRules := ⟨_, List.mem_cons_self, List.cons_ne_nil _ _⟩
  have htype : overlongRecord.StartHasType := ⟨"int", List.mem_cons_self⟩
  have hterminals := Finset.card_le_card terminalNames_overlongRecord
  have hproblem : overlongRecord.FirstProblem (.tooManySymbols "S" 65536) :=
    .rule hgoal hrules htype (by decide) (Nat.le_trans hterminals (by decide))
      firstRuleProblem_overlongRecord
  exact ⟨hkeys, ((ofRecord_outcome hkeys).2 _).mpr ⟨_, hproblem, rfl⟩⟩

end GrammarRecord

end ShiftReduce
