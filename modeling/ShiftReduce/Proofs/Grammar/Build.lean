import Std.Data.TreeSet.Lemmas
import ShiftReduce.Proofs.Grammar.Block
import ShiftReduce.Proofs.Grammar.Draft
import ShiftReduce.Proofs.Grammar.WellFormed

/-!
# Building yields well-formed grammars

A draft that passes all checks is put together from its vocabulary and its blocks. Names then find
the symbols they resolve to, and numbers find the productions of the blocks; from both follows
`wellFormed_of_ofDeclarations`.
-/

namespace ShiftReduce

/-- Finding a name among numbered things agrees with finding it in the roster of their names. -/
theorem findIdx?_name {α : Type} {things : Array α} {name : α → String} {r : Roster String}
    (hnames : things.toList.map name = r.toList) (x : String) :
    things.findIdx? (name · == x) = r.idx? x := by
  have hget (i : Nat) : things[i]?.map name = r.toList[i]? := by
    rw [← hnames, List.getElem?_map, Array.getElem?_toList]
  cases hfound : r.idx? x with
  | none =>
    refine Array.findIdx?_eq_none_iff.mpr fun thing hthing => beq_eq_false_iff_ne.mpr ?_
    rintro rfl
    refine Roster.idx?_eq_none_iff.mp hfound ?_
    rw [← hnames]
    exact List.mem_map_of_mem (Array.mem_toList_iff.mpr hthing)
  | some i =>
    have hi := Roster.idx?_eq_some_iff.mp hfound
    rw [← hget i, Option.map_eq_some_iff] at hi
    obtain ⟨thing, hthing, rfl⟩ := hi
    obtain ⟨hlt, heq⟩ := Array.getElem?_eq_some_iff.mp hthing
    refine Array.findIdx?_eq_some_iff_getElem.mpr ⟨hlt, by simp [heq], fun j hj => ?_⟩
    intro hname
    have hearlier : r.idx? (name things[i]) = some j := by
      rw [Roster.idx?_eq_some_iff, ← hget j, Array.getElem?_eq_getElem (by omega)]
      simpa [heq] using hname
    rw [heq, hfound] at hearlier
    simp only [Option.some.injEq] at hearlier
    omega

theorem Vocabulary.mem_terminalsOf {nonterminals : Roster String} {mentioned : List String}
    {name : String} : name ∈ (terminalsOf nonterminals mentioned).toList ↔
      name = endOfInputName ∨ name ∈ mentioned ∧ name ∉ nonterminals.toList := by
  rw [terminalsOf, Roster.mem_ofList, List.mem_cons, Std.TreeSet.mem_toList,
    Std.TreeSet.mem_ofList, List.contains_iff_mem, List.mem_filter, Bool.not_eq_true',
    ← Bool.not_eq_true, Roster.contains_iff]

namespace Draft

variable {d : Draft} {g : Grammar} {v : Vocabulary}

/-- What a draft that was built has passed, and what its grammar is put together from. -/
theorem exists_of_build (hg : d.build = .ok g) :
    ∃ start startType v blocks, d.startName = .ok start ∧ d.hasRules start = true ∧
      d.resultTypes.get? start = some startType ∧ d.vocabulary = .ok v ∧
      d.rules.toList.foldlM (Block.append v) #[] = .ok blocks ∧
      g = d.assemble start startType v blocks.toList := by
  unfold build at hg
  obtain ⟨start, hstart, hg⟩ := exists_of_bind_eq_ok hg
  cases hrules : d.hasRules start with
  | false => simp [hrules, throw, throwThe, MonadExceptOf.throw, bind, Except.bind] at hg
  | true =>
    cases htype : d.resultTypes.get? start with
    | none => simp [hrules, htype, throw, throwThe, MonadExceptOf.throw] at hg
    | some startType =>
      simp only [hrules, htype, Bool.not_true, Bool.false_eq_true, if_false] at hg
      obtain ⟨v, hv, hg⟩ := exists_of_bind_eq_ok hg
      obtain ⟨blocks, hblocks, hg⟩ := exists_of_bind_eq_ok hg
      exact ⟨start, startType, v, blocks, hstart, hrules, htype, hv, hblocks,
        (Except.ok.inj hg).symm⟩

theorem eq_of_vocabulary (hv : d.vocabulary = .ok v) :
    v.nonterminals = Vocabulary.nonterminalsOf d.rules.keys.toList ∧
      v.terminals = Vocabulary.terminalsOf v.nonterminals d.mentioned := by
  unfold vocabulary at hv
  dsimp only at hv
  split at hv
  next => cases hv
  next =>
    split at hv
    next => cases hv
    next =>
      obtain rfl := Except.ok.inj hv
      exact ⟨rfl, rfl⟩

theorem nonterminals_of_vocabulary (hd : d.KeepsGoalFree) (hv : d.vocabulary = .ok v) :
    v.nonterminals.toList = goalName :: d.rules.keys.toList := by
  rw [(eq_of_vocabulary hv).1]
  apply Roster.toList_ofList_of_nodup
  exact List.nodup_cons.mpr ⟨hd.goalName_not_mem, d.rules.keys.nodup⟩

theorem mem_terminals_of_vocabulary (hv : d.vocabulary = .ok v) {name : String}
    (hmentioned : name ∈ d.mentioned) (hname : name ∉ v.nonterminals.toList) :
    name ∈ v.terminals.toList := by
  rw [(eq_of_vocabulary hv).2, Vocabulary.mem_terminalsOf]
  exact .inr ⟨hmentioned, hname⟩

theorem mem_mentioned {entry : String × Array Rule} (hentry : entry ∈ d.rules.toList) {rule : Rule}
    (hrule : rule ∈ entry.2.toList) {name : String} (hname : name ∈ rule.right) :
    name ∈ d.mentioned := by
  have hvalue : entry.2 ∈ d.rules.values.toList := (List.of_mem_zip hentry).2
  exact List.mem_flatMap.mpr ⟨entry.2, hvalue, List.mem_flatMap.mpr ⟨rule, hrule, hname⟩⟩

/-- What a grammar is put together from: checked names, and blocks that follow the rules. -/
structure Supports (d : Draft) (start startType : String) (v : Vocabulary) (blocks : List Block)
    (g : Grammar) : Prop where
  keepsGoalFree : d.KeepsGoalFree
  start_mem : start ∈ d.rules.keys.toList
  vocabulary_eq : d.vocabulary = .ok v
  consecutive : Block.Consecutive 1 blocks
  made : List.Forall₂ (fun entry b => Block.IsMadeOf v entry.2.toList b) d.rules.toList blocks
  eq_assemble : g = d.assemble start startType v blocks

namespace Supports

variable {start startType : String} {blocks : List Block}
  (h : d.Supports start startType v blocks g)

include h

theorem terminal_names : g.terminals.toList.map Terminal.name = v.terminals.toList := by
  simp [h.eq_assemble, assemble, Roster.toList, terminalNamed, Function.comp_def]

theorem length_blocks : blocks.length = d.rules.keys.toList.length := by
  rw [← h.made.length_eq, ← OrderedMap.map_fst_toList, List.length_map]

theorem nonterminal_names : g.nonterminals.toList.map Nonterminal.name = v.nonterminals.toList := by
  rw [nonterminals_of_vocabulary h.keepsGoalFree h.vocabulary_eq]
  simp only [h.eq_assemble, assemble, List.map_cons, List.map_zipWith, nonterminalNamed]
  have hkeys := List.map_fst_zip (Nat.le_of_eq h.length_blocks.symm)
  rw [List.zip_eq_zipWith, List.map_zipWith] at hkeys
  exact congrArg (goalName :: ·) hkeys

theorem symbol?_eq (name : String) : g.symbol? name =
    match v.nonterminals.idx? name with
    | some i => some (.nonterminal ⟨i⟩)
    | none => (v.terminals.idx? name).map fun i => .terminal ⟨i⟩ := by
  unfold Grammar.symbol?
  cases hfound : v.nonterminals.idx? name with
  | none => simp only [findIdx?_name h.nonterminal_names, findIdx?_name h.terminal_names, hfound]
  | some i => simp only [findIdx?_name h.nonterminal_names, hfound]

theorem symbol?_resolve {name : String} (hname : name ∈ d.mentioned) :
    g.symbol? name = some (v.resolve name) := by
  rw [h.symbol?_eq, Vocabulary.resolve]
  cases hnonterminal : v.nonterminals.idx? name with
  | some i => rfl
  | none =>
    cases hterminal : v.terminals.idx? name with
    | some i => rfl
    | none =>
      have hmem := mem_terminals_of_vocabulary h.vocabulary_eq hname
        (Roster.idx?_eq_none_iff.mp hnonterminal)
      exact absurd hmem (Roster.idx?_eq_none_iff.mp hterminal)

theorem symbol?_nonterminal {n : NonterminalId} (hn : n ∈ g.nonterminalIds) :
    g.symbol? (g.nonterminal n).name = some (.nonterminal n) := by
  have hlt := Grammar.mem_nonterminalIds.mp hn
  have hfound : v.nonterminals.idx? (g.nonterminal n).name = some n.index := by
    rw [Roster.idx?_eq_some_iff, ← h.nonterminal_names, List.getElem?_map, Array.getElem?_toList,
      Array.getElem?_eq_getElem hlt]
    simp [Grammar.nonterminal, hlt]
  rw [h.symbol?_eq, hfound]

theorem toList_productions : g.productions.toList =
    ⟨.goal, #[.nonterminal g.start], ""⟩ :: Block.declared 1 blocks := by
  rw [h.eq_assemble]
  rfl

/-- There is a terminal at least, and the first one is the end of input. -/
theorem endOfInput_mem : TerminalId.endOfInput ∈ g.terminalIds := by
  have hend : endOfInputName ∈ v.terminals.toList := by
    rw [(eq_of_vocabulary h.vocabulary_eq).2]
    exact Roster.mem_ofList.mpr List.mem_cons_self
  rw [Grammar.mem_terminalIds, ← Array.length_toList, ← List.length_map (f := Terminal.name),
    h.terminal_names]
  exact List.length_pos_of_mem hend

theorem goal_mem : ProductionId.goal ∈ g.productionIds := by
  rw [Grammar.mem_productionIds, ← Array.length_toList, h.toList_productions]
  exact Nat.succ_pos _

theorem goal_production : g.production .goal = ⟨.goal, #[.nonterminal g.start], ""⟩ := by
  rw [h.eq_assemble]
  rfl

theorem production_succ {k : Nat} {production : Production}
    (hk : (Block.declared 1 blocks)[k]? = some production) :
    ⟨k + 1⟩ ∈ g.productionIds ∧ g.production ⟨k + 1⟩ = production := by
  have hget : g.productions[k + 1]? = some production := by
    rw [← Array.getElem?_toList, h.toList_productions, List.getElem?_cons_succ, hk]
  refine ⟨Grammar.mem_productionIds.mpr (Array.getElem?_eq_some_iff.mp hget).1, ?_⟩
  rw [Grammar.production, Array.getD_eq_getD_getElem?, hget, Option.getD_some]

theorem productions_nonterminal_succ (j : Nat) :
    (g.nonterminal ⟨j + 1⟩).productions = (blocks[j]?.map Block.ids).getD [] := by
  simp only [h.eq_assemble, assemble, Grammar.nonterminal, Array.getD_eq_getD_getElem?,
    List.getElem?_toArray, List.getElem?_cons_succ, List.getElem?_zipWith]
  cases hb : blocks[j]? with
  | none => cases d.rules.keys.toList[j]? <;> rfl
  | some b =>
    have hj : j < d.rules.keys.toList.length :=
      h.length_blocks ▸ (List.getElem?_eq_some_iff.mp hb).1
    simp [List.getElem?_eq_getElem hj, nonterminalNamed]

/-- A production other than the goal's stands in some block. -/
theorem exists_block {p : ProductionId} (hp : p ∈ g.productionIds) (hgoal : p ≠ .goal) :
    ∃ (j : Nat) (b : Block) (m : Nat), blocks[j]? = some b ∧
      (b.productions ⟨1 + j⟩)[m]? = some (g.production p) ∧ p.index = b.first + m := by
  obtain ⟨index⟩ := p
  cases index with
  | zero => exact absurd rfl hgoal
  | succ k =>
    rw [Grammar.mem_productionIds, ← Array.length_toList, h.toList_productions] at hp
    have hk := List.getElem?_eq_getElem (Nat.lt_of_succ_lt_succ hp)
    obtain ⟨j, b, m, hj, hm, hnumber⟩ := Block.exists_block_of_getElem?_declared h.consecutive hk
    refine ⟨j, b, m, hj, ?_, (Nat.add_comm k 1).trans hnumber⟩
    rw [(h.production_succ hk).2, hm]

/-- What stands in a block is a production of the grammar. -/
theorem production_of_block {j m : Nat} {b : Block} {production : Production}
    (hj : blocks[j]? = some b) (hm : (b.productions ⟨1 + j⟩)[m]? = some production) :
    ⟨b.first + m⟩ ∈ g.productionIds ∧ g.production ⟨b.first + m⟩ = production := by
  have hfirst := Block.first_le_of_mem h.consecutive (List.mem_of_getElem? hj)
  obtain ⟨k, hk⟩ : ∃ k, b.first + m = k + 1 := ⟨b.first + m - 1, by omega⟩
  rw [hk]
  exact h.production_succ
    (Block.getElem?_declared_of_block h.consecutive hj hm (Nat.add_comm 1 k ▸ hk.symm))

/-- Whatever a production mentions is found by some name. -/
theorem exists_name_of_mentions {x : Symbol} (hx : g.Mentions x) :
    ∃ name, g.symbol? name = some x := by
  obtain ⟨p, hp, hx⟩ := hx
  by_cases hgoal : p = .goal
  · rw [hgoal, h.goal_production] at hx
    obtain rfl := Array.mem_singleton.mp hx
    have hstart : start ∈ v.nonterminals.toList := by
      rw [nonterminals_of_vocabulary h.keepsGoalFree h.vocabulary_eq]
      exact List.mem_cons_of_mem _ h.start_mem
    obtain ⟨i, hi⟩ := List.mem_iff_getElem?.mp hstart
    have hfound := Roster.idx?_eq_some_iff.mpr hi
    refine ⟨start, ?_⟩
    rw [h.symbol?_eq, hfound, h.eq_assemble]
    simp [assemble, hfound]
  · obtain ⟨j, b, m, hj, hm, -⟩ := h.exists_block hp hgoal
    obtain ⟨right, action, hentry, hproduction⟩ := Block.getElem?_productions_iff.mp hm
    obtain ⟨hlt, rfl⟩ := List.getElem?_eq_some_iff.mp hj
    have hentries : j < d.rules.toList.length := h.made.length_eq ▸ hlt
    have hkey := List.mem_map_of_mem (f := Prod.fst) (List.mem_of_getElem? hentry)
    obtain ⟨rule, hrule, hright⟩ := (h.made.get hentries hlt right).mp hkey
    rw [hproduction] at hx
    obtain ⟨name, hname, rfl⟩ := List.mem_map.mp (hright ▸ List.mem_toArray.mp hx)
    exact ⟨name, h.symbol?_resolve (mem_mentioned (List.getElem_mem hentries) hrule hname)⟩

theorem mem_productions_goal_iff (p : ProductionId) :
    p ∈ (g.nonterminal .goal).productions ↔
      p ∈ g.productionIds ∧ (g.production p).left = .goal := by
  have hgoal : p ∈ (g.nonterminal .goal).productions ↔ p = .goal := by
    rw [h.eq_assemble]
    exact List.mem_singleton
  rw [hgoal]
  constructor
  · rintro rfl
    exact ⟨h.goal_mem, congrArg Production.left h.goal_production⟩
  · rintro ⟨hp, hleft⟩
    by_contra hne
    obtain ⟨j, b, m, -, hm, -⟩ := h.exists_block hp hne
    rw [Block.left_of_getElem?_productions hm] at hleft
    have hindex := congrArg NonterminalId.index hleft
    simp [NonterminalId.goal] at hindex

theorem mem_productions_succ_iff (j : Nat) (p : ProductionId) :
    p ∈ (g.nonterminal ⟨j + 1⟩).productions ↔
      p ∈ g.productionIds ∧ (g.production p).left = ⟨j + 1⟩ := by
  rw [h.productions_nonterminal_succ]
  constructor
  · intro hmem
    cases hb : blocks[j]? with
    | none => simp [hb] at hmem
    | some b =>
      rw [hb] at hmem
      obtain ⟨m, hm, hindex⟩ := Block.mem_ids.mp hmem
      rw [← Block.length_productions b ⟨1 + j⟩] at hm
      have hentry := List.getElem?_eq_getElem hm
      have hblock := h.production_of_block hb hentry
      rw [← hindex] at hblock
      refine ⟨hblock.1, ?_⟩
      rw [hblock.2, Block.left_of_getElem?_productions hentry, Nat.add_comm]
  · rintro ⟨hp, hleft⟩
    have hne : p ≠ .goal := by
      rintro rfl
      rw [h.goal_production] at hleft
      exact absurd (congrArg NonterminalId.index hleft) (Nat.succ_ne_zero j).symm
    obtain ⟨i, b, m, hi, hm, hindex⟩ := h.exists_block hp hne
    obtain rfl : i = j := by
      rw [Block.left_of_getElem?_productions hm, NonterminalId.mk.injEq] at hleft
      omega
    rw [hi]
    have hlt := (List.getElem?_eq_some_iff.mp hm).1
    rw [Block.length_productions] at hlt
    exact Block.mem_ids.mpr ⟨m, hlt, hindex⟩

theorem mem_productions_iff (n : NonterminalId) (p : ProductionId) :
    p ∈ (g.nonterminal n).productions ↔ p ∈ g.productionIds ∧ (g.production p).left = n := by
  obtain ⟨index⟩ := n
  cases index with
  | zero => exact h.mem_productions_goal_iff p
  | succ j => exact h.mem_productions_succ_iff j p

theorem eq_goal_of_left {p : ProductionId} (hp : p ∈ g.productionIds)
    (hleft : (g.production p).left = .goal) : p = .goal := by
  have hmem := (h.mem_productions_goal_iff p).mpr ⟨hp, hleft⟩
  rw [h.eq_assemble] at hmem
  exact List.mem_singleton.mp hmem

theorem left_mem {p : ProductionId} (hp : p ∈ g.productionIds) :
    (g.production p).left ∈ g.nonterminalIds := by
  have hsize : g.nonterminals.size = blocks.length + 1 := by
    simp [h.eq_assemble, assemble, h.length_blocks]
  rw [Grammar.mem_nonterminalIds, hsize]
  by_cases hgoal : p = .goal
  · rw [hgoal, h.goal_production]
    exact Nat.succ_pos _
  · obtain ⟨j, b, m, hj, hm, -⟩ := h.exists_block hp hgoal
    have hlt := (List.getElem?_eq_some_iff.mp hj).1
    rw [Block.left_of_getElem?_productions hm, Nat.add_comm]
    exact Nat.succ_lt_succ hlt

theorem eq_of_sides {p q : ProductionId} (hp : p ∈ g.productionIds) (hq : q ∈ g.productionIds)
    (hleft : (g.production p).left = (g.production q).left)
    (hright : (g.production p).right = (g.production q).right) : p = q := by
  by_cases hpgoal : p = .goal
  · subst hpgoal
    exact (h.eq_goal_of_left hq (by rw [← hleft, h.goal_production])).symm
  by_cases hqgoal : q = .goal
  · subst hqgoal
    exact h.eq_goal_of_left hp (by rw [hleft, h.goal_production])
  obtain ⟨i, b, k, hi, hk, hpindex⟩ := h.exists_block hp hpgoal
  obtain ⟨j, c, m, hj, hm, hqindex⟩ := h.exists_block hq hqgoal
  obtain rfl : i = j := by
    rw [Block.left_of_getElem?_productions hk, Block.left_of_getElem?_productions hm,
      NonterminalId.mk.injEq] at hleft
    omega
  obtain rfl : b = c := Option.some.inj (hi.symm.trans hj)
  obtain ⟨rightp, actionp, hentryp, heqp⟩ := Block.getElem?_productions_iff.mp hk
  obtain ⟨rightq, actionq, hentryq, heqq⟩ := Block.getElem?_productions_iff.mp hm
  obtain rfl : rightp = rightq := by simpa [heqp, heqq] using hright
  -- the right-hand sides of a block are its keys, so one of them has one place only
  have hkey : (b.actions.toList.map Prod.fst)[k]? = (b.actions.toList.map Prod.fst)[m]? := by
    simp [List.getElem?_map, hentryp, hentryq]
  have hlt : k < (b.actions.toList.map Prod.fst).length := by
    rw [List.length_map]
    exact (List.getElem?_eq_some_iff.mp hentryp).1
  have hsame := (List.getElem?_inj hlt b.actions.nodup_keys).mp hkey
  obtain ⟨pindex⟩ := p
  obtain ⟨qindex⟩ := q
  simp only [ProductionId.mk.injEq] at hpindex hqindex ⊢
  omega

theorem wellFormed : g.WellFormed where
  endOfInput_mem := h.endOfInput_mem
  goal_mem := h.goal_mem
  goal_production := h.goal_production
  eq_goal_of_left _ hp := h.eq_goal_of_left hp
  mem_productions_iff := h.mem_productions_iff
  left_mem _ hp := h.left_mem hp
  eq_of_sides _ hp _ hq := h.eq_of_sides hp hq
  symbol?_nonterminal _ hn := h.symbol?_nonterminal hn
  symbol?_mentioned x hx := by
    obtain ⟨name, hname⟩ := h.exists_name_of_mentions hx
    rw [Grammar.symbolName_of_symbol? hname, hname]

end Supports

/-- The parts that a grammar was put together from support it. -/
theorem supports (hd : d.KeepsGoalFree) {start startType : String} {blocks : Array Block}
    (hrules : d.hasRules start = true) (hv : d.vocabulary = .ok v)
    (hblocks : d.rules.toList.foldlM (Block.append v) #[] = .ok blocks)
    (heq : g = d.assemble start startType v blocks.toList) :
    d.Supports start startType v blocks.toList g := by
  obtain ⟨hconsecutive, hmade⟩ := Block.follow_of_foldlM hblocks
  exact ⟨hd, mem_keys_of_hasRules hrules, hv, hconsecutive, hmade, heq⟩

theorem exists_supports (hd : d.KeepsGoalFree) (hg : d.build = .ok g) :
    ∃ start startType v blocks, d.startName = .ok start ∧
      d.Supports start startType v blocks g := by
  obtain ⟨start, startType, v, blocks, hstart, hrules, -, hv, hblocks, heq⟩ := exists_of_build hg
  exact ⟨start, startType, v, blocks.toList, hstart, supports hd hrules hv hblocks heq⟩

theorem wellFormed_of_build (hd : d.KeepsGoalFree) (hg : d.build = .ok g) : g.WellFormed := by
  obtain ⟨start, startType, v, blocks, -, hsupports⟩ := exists_supports hd hg
  exact hsupports.wellFormed

end Draft

/-- Every grammar that was built from declarations is well-formed. -/
theorem Grammar.wellFormed_of_ofDeclarations {declarations : List Declaration} {g : Grammar}
    (hg : Grammar.ofDeclarations declarations = .ok g) : g.WellFormed := by
  obtain ⟨d, hd, hbuild⟩ := exists_of_bind_eq_ok hg
  exact Draft.wellFormed_of_build (Draft.keepsGoalFree_of_declareAll hd) hbuild

/-- Words of nested brackets, a small grammar that can be built. -/
def bracketDeclarations : List Declaration :=
  [.rule "Word" ["(", "Word", ")", "Word"] "", .rule "Word" [] "", .resultType "Word" "Tree",
    .start "Word"]

def brackets : Grammar :=
  (Grammar.ofDeclarations bracketDeclarations).toOption.getD default

theorem ofDeclarations_brackets : Grammar.ofDeclarations bracketDeclarations = .ok brackets := by
  obtain ⟨g, hg⟩ := exists_of_isOk (x := Grammar.ofDeclarations bracketDeclarations)
    (by decide +kernel)
  rw [brackets, hg]
  rfl

end ShiftReduce
