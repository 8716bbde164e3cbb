import ShiftReduce.Proofs.Grammar.InOrder
import ShiftReduce.Proofs.Text.ByteOrder

/-!
# How a grammar represents its declarations

Numbers follow the order of declaration. The goal and the end of input come first, then nonterminals
by first declaration, terminals by the bytes of their names, and the rules of each nonterminal in
turn. Declarations that were refused have no part in it.
-/

namespace ShiftReduce

/-- The name of the goal is refused for a nonterminal and for the start symbol. -/
def Declaration.isAccepted : Declaration → Bool
  | nonterminal name => name != goalName
  | rule left _ _ => left != goalName
  | start name => name != goalName
  | _ => true

namespace Draft

/-- The draft after a declaration, be it refused or not. -/
def attempt (d : Draft) (declaration : Declaration) : Draft :=
  match d.declare declaration with
  | .ok next => next
  | .error _ => d

/-- The draft after all of some declarations, any of which may be refused. -/
def attemptAll (declarations : List Declaration) : Draft :=
  declarations.foldl attempt {}

theorem declare_of_isAccepted (d : Draft) {declaration : Declaration}
    (haccepted : declaration.isAccepted = true) :
    d.declare declaration = .ok (d.attempt declaration) := by
  cases declaration with
  | nonterminal | rule | start =>
    have hname := bne_iff_ne.mp haccepted
    simp [attempt, declare, hname]
  | _ => rfl

theorem attempt_of_not_isAccepted (d : Draft) {declaration : Declaration}
    (hrefused : ¬ declaration.isAccepted = true) : d.attempt declaration = d := by
  cases declaration with
  | nonterminal | rule | start =>
    have hname := of_not_not (bne_iff_ne.not.mp hrefused)
    simp [attempt, declare, hname]
  | _ => exact absurd rfl hrefused

/-- Refused declarations might as well not have been made. -/
theorem declareAll_filter_isAccepted (d : Draft) (declarations : List Declaration) :
    d.declareAll (declarations.filter Declaration.isAccepted) =
      .ok (declarations.foldl attempt d) := by
  induction declarations generalizing d with
  | nil => rfl
  | cons first rest ih =>
    rw [List.filter_cons, List.foldl_cons]
    split
    next haccepted =>
      rw [declareAll, List.foldlM_cons, declare_of_isAccepted d haccepted]
      exact ih _
    next hrefused => rw [ih, attempt_of_not_isAccepted d hrefused]

end Draft

theorem Grammar.ofDeclarations_filter_isAccepted (declarations : List Declaration) :
    Grammar.ofDeclarations (declarations.filter Declaration.isAccepted) =
      (Draft.attemptAll declarations).build := by
  rw [Grammar.ofDeclarations, Draft.declareAll_filter_isAccepted]
  rfl

namespace Grammar

/-- A production in the words of its declaration: its left-hand side, its right-hand side and its
action. -/
def words (g : Grammar) (production : Production) : String × List String × String :=
  ((g.nonterminal production.left).name, production.right.toList.map g.symbolName,
    production.action)

/-- A symbol that a name can mean: a nonterminal, or a terminal if no nonterminal has its name. -/
def IsMeant (g : Grammar) : Symbol → Prop
  | .nonterminal n => n ∈ g.nonterminalIds
  | .terminal t =>
    t ∈ g.terminalIds ∧ ∀ n ∈ g.nonterminalIds, (g.nonterminal n).name ≠ (g.terminal t).name

/-- The grammar has what was declared at the numbers that the order of declaration gives it. -/
structure Represents (declarations : List Declaration) (g : Grammar) : Prop where
  /-- The goal comes first, then the declared nonterminals by first declaration. -/
  nonterminal_names : g.nonterminals.toList.map Nonterminal.name =
    goalName :: Declarations.nonterminals declarations
  nodup_nonterminals : (goalName :: Declarations.nonterminals declarations).Nodup
  /-- The end of input comes first, then the other mentioned names that are no nonterminals, in
  ascending order of their bytes. -/
  exists_terminal_names : ∃ names, g.terminals.toList.map Terminal.name = endOfInputName :: names ∧
    names.Pairwise (fun x y => encoded x < encoded y) ∧
      ∀ name, name ∈ names ↔ name ≠ endOfInputName ∧
        (∃ left, ∃ rule ∈ Declarations.rulesOf declarations left, name ∈ rule.right) ∧
        name ∉ goalName :: Declarations.nonterminals declarations
  start_mem : g.start ∈ g.nonterminalIds ∧ g.start ≠ .goal
  start_eq : Declarations.start? declarations = some (g.nonterminal g.start).name
  /-- The goal has the type of the start symbol. -/
  exists_goal_type : ∃ type, (g.nonterminal .goal).resultType = some type ∧
    Declarations.type? declarations (g.nonterminal g.start).name = some type
  type_eq : ∀ n ∈ g.nonterminalIds, n ≠ .goal →
    (g.nonterminal n).resultType = Declarations.type? declarations (g.nonterminal n).name
  /-- Production 0 is the only one of the goal. -/
  goal_production : g.production .goal = ⟨.goal, #[.nonterminal g.start], ""⟩
  goal_productions : (g.nonterminal .goal).productions = [.goal]
  /-- Then come the declared rules by nonterminal, without those that repeat an earlier one. -/
  words_eq : g.productions.toList.map g.words =
    (goalName, [(g.nonterminal g.start).name], "") ::
      (Declarations.nonterminals declarations).flatMap fun left =>
        (distinctRules (Declarations.rulesOf declarations left)).map fun rule =>
          (left, rule.right, rule.action)
  /-- The productions listed with a nonterminal are all that have it on the left, in order. -/
  productions_eq : ∀ n, (g.nonterminal n).productions =
    g.productionIds.filter fun p => (g.production p).left = n
  left_mem : ∀ p ∈ g.productionIds, (g.production p).left ∈ g.nonterminalIds
  /-- A name on a right-hand side means the nonterminal of that name, and a terminal only if there
  is no such nonterminal. -/
  isMeant : ∀ p ∈ g.productionIds, ∀ x ∈ (g.production p).right, g.IsMeant x

end Grammar

theorem pairwise_map_productionId {places : List Nat} (hplaces : places.Pairwise (· < ·)) :
    (places.map ProductionId.mk).Pairwise fun p q => compare p q = .lt :=
  List.pairwise_map.mpr (hplaces.imp fun hlt => Nat.compare_eq_lt.mpr hlt)

namespace Draft

theorem start_or_head_of_startName {d : Draft} {start : String} (hstart : d.startName = .ok start) :
    d.start.or d.rules.keys.toList.head? = some start := by
  cases hdeclared : d.start with
  | some name =>
    rw [startName, hdeclared] at hstart
    rw [Option.some_or, Except.ok.inj hstart]
  | none =>
    cases hkeys : d.rules.keys.toList with
    | nil => simp [startName, hdeclared, hkeys] at hstart
    | cons name rest =>
      simp only [startName, hdeclared, hkeys] at hstart
      rw [Option.none_or, List.head?_cons, Except.ok.inj hstart]

theorem toList_eq_rulesOf {d : Draft} {entry : String × Array Rule}
    (hentry : entry ∈ d.rules.toList) : entry.2.toList = d.rulesOf entry.1 := by
  rw [rulesOf, OrderedMap.get?_eq_some_iff.mpr hentry, Option.getD_some]

namespace Supports

variable {d : Draft} {g : Grammar} {v : Vocabulary} {start startType : String} {blocks : List Block}
  (h : d.Supports start startType v blocks g)

include h

/-- Behind the goal stand the nonterminals of the draft, each with its block. -/
theorem exists_nonterminalNamed {n : NonterminalId} (hn : n ∈ g.nonterminalIds)
    (hgoal : n ≠ .goal) : ∃ name b, g.nonterminal n = d.nonterminalNamed name b := by
  obtain ⟨index⟩ := n
  cases index with
  | zero => exact absurd rfl hgoal
  | succ j =>
    have hsize : g.nonterminals.size = blocks.length + 1 := by
      simp [h.eq_assemble, assemble, h.length_blocks]
    rw [Grammar.mem_nonterminalIds, hsize] at hn
    have hblock := Nat.lt_of_succ_lt_succ hn
    have hkey : j < d.rules.keys.toList.length := h.length_blocks ▸ hblock
    refine ⟨d.rules.keys.toList[j], blocks[j], ?_⟩
    simp only [h.eq_assemble, assemble, Grammar.nonterminal, Array.getD_eq_getD_getElem?,
      List.getElem?_toArray, List.getElem?_cons_succ, List.getElem?_zipWith,
      List.getElem?_eq_getElem hkey, List.getElem?_eq_getElem hblock, Option.getD_some]

theorem start_ne_goal : g.start ≠ .goal := by
  intro hgoal
  have hname := h.name_start
  rw [hgoal, h.name_goal] at hname
  exact h.keepsGoalFree.goalName_not_mem (hname ▸ h.start_mem)

theorem resultType_eq {n : NonterminalId} (hn : n ∈ g.nonterminalIds) (hgoal : n ≠ .goal) :
    (g.nonterminal n).resultType = d.resultTypes.get? (g.nonterminal n).name := by
  obtain ⟨name, b, hnamed⟩ := h.exists_nonterminalNamed hn hgoal
  rw [hnamed]
  rfl

theorem pairwise_productions (n : NonterminalId) :
    (g.nonterminal n).productions.Pairwise fun p q => compare p q = .lt := by
  obtain ⟨index⟩ := n
  cases index with
  | zero =>
    rw [h.eq_assemble]
    exact List.pairwise_singleton _ _
  | succ j =>
    rw [h.productions_nonterminal_succ]
    cases blocks[j]? with
    | none => exact .nil
    | some b => exact pairwise_map_productionId List.pairwise_lt_range'

theorem productions_eq (n : NonterminalId) : (g.nonterminal n).productions =
    g.productionIds.filter fun p => (g.production p).left = n := by
  refine eq_of_pairwise_lt compare (h.pairwise_productions n)
    ((pairwise_map_productionId List.pairwise_lt_range).filter _) fun p => ?_
  rw [h.mem_productions_iff, List.mem_filter, decide_eq_true_eq]

/-- The rules that a block keeps are those with a right-hand side of their own. -/
theorem toList_actions {entry : String × Array Rule} (hentry : entry ∈ d.rules.toList) {b : Block}
    (hb : b.Holds v entry.2.toList) : b.actions.toList =
      (distinctRules entry.2.toList).map fun rule => (rule.right.map v.resolve, rule.action) := by
  rw [hb, eraseDupsBy_map, distinctRules]
  refine congrArg (List.map _) (eraseDupsBy_congr fun rule hrule known hknown => ?_)
  rw [Bool.eq_iff_iff, beq_iff_eq, beq_iff_eq]
  constructor
  · intro heq
    have hnames := congrArg (List.map g.symbolName) heq
    rwa [h.map_symbolName_resolve hentry hrule, h.map_symbolName_resolve hentry hknown] at hnames
  · exact fun heq => congrArg (List.map v.resolve) heq

theorem map_words_block {entry : String × Array Rule} (hentry : entry ∈ d.rules.toList) {b : Block}
    (hb : b.Holds v entry.2.toList) {left : NonterminalId}
    (hname : (g.nonterminal left).name = entry.1) : (b.productions left).map g.words =
      (distinctRules entry.2.toList).map fun rule => (entry.1, rule.right, rule.action) := by
  rw [Block.productions, h.toList_actions hentry hb, List.map_map, List.map_map]
  refine List.map_congr_left fun rule hrule => ?_
  have hright := h.map_symbolName_resolve hentry (mem_of_mem_eraseDupsBy hrule)
  simp only [Function.comp_apply, Grammar.words, hname, hright]

/-- The productions of blocks that follow the rules are the rules, nonterminal by nonterminal. -/
theorem map_words_declared {entries : List (String × Array Rule)} {kept : List Block} {left : Nat}
    (hholds : List.Forall₂ (fun entry b => Block.Holds v entry.2.toList b) entries kept)
    (hentries : ∀ entry ∈ entries, entry ∈ d.rules.toList)
    (hnames : ∀ j entry, entries[j]? = some entry → (g.nonterminal ⟨left + j⟩).name = entry.1) :
    (Block.declared left kept).map g.words = entries.flatMap fun entry =>
      (distinctRules (d.rulesOf entry.1)).map fun rule => (entry.1, rule.right, rule.action) := by
  induction hholds generalizing left with
  | nil => rfl
  | @cons entry b entries kept hb _ ih =>
    have hentry := hentries entry List.mem_cons_self
    have hname : (g.nonterminal ⟨left⟩).name = entry.1 := hnames 0 entry rfl
    rw [Block.declared_cons, List.map_append, List.flatMap_cons,
      h.map_words_block hentry hb hname, toList_eq_rulesOf hentry]
    refine congrArg (_ ++ ·) (ih (fun other hother => hentries other (.tail _ hother)) ?_)
    intro j other hother
    rw [Nat.add_assoc, Nat.add_comm 1 j]
    exact hnames (j + 1) other hother

theorem map_words_productions
    (hholds : List.Forall₂ (fun entry b => Block.Holds v entry.2.toList b) d.rules.toList blocks) :
    g.productions.toList.map g.words = (goalName, [start], "") ::
      d.rules.keys.toList.flatMap fun left =>
        (distinctRules (d.rulesOf left)).map fun rule => (left, rule.right, rule.action) := by
  have hgoal : g.words ⟨.goal, #[.nonterminal g.start], ""⟩ = (goalName, [start], "") := by
    simp [Grammar.words, Grammar.symbolName, h.name_goal, h.name_start]
  have hnames : ∀ j entry, d.rules.toList[j]? = some entry →
      (g.nonterminal ⟨1 + j⟩).name = entry.1 := by
    intro j entry hentry
    apply h.name_succ
    rw [← OrderedMap.map_fst_toList, List.getElem?_map, hentry, Option.map_some]
  rw [h.toList_productions, List.map_cons, hgoal,
    h.map_words_declared hholds (fun _ hentry => hentry) hnames, ← OrderedMap.map_fst_toList,
    List.flatMap_map]

end Supports

end Draft

namespace Grammar

theorem WellFormed.isMeant {g : Grammar} (hg : g.WellFormed) {x : Symbol} (hx : g.Mentions x) :
    g.IsMeant x := by
  have hsymbol := hg.hasSymbol_of_mentions hx
  cases x with
  | nonterminal n => exact hsymbol
  | terminal t =>
    refine ⟨hsymbol, fun n hn hname => ?_⟩
    have hfound : g.symbol? (g.terminal t).name = some (.terminal t) := hg.symbol?_mentioned _ hx
    rw [← hname, hg.symbol?_nonterminal n hn] at hfound
    cases hfound

/-- Whatever calls were refused, the grammar represents the others. -/
theorem represents_of_attemptAll {declarations : List Declaration} {g : Grammar}
    (hg : (Draft.attemptAll declarations).build = .ok g) :
    g.Represents (declarations.filter Declaration.isAccepted) := by
  rw [← ofDeclarations_filter_isAccepted] at hg
  obtain ⟨d, hd, hbuild⟩ := exists_of_bind_eq_ok hg
  have hreflects := Draft.reflects_of_declareAll hd
  obtain ⟨hkeys, hrules, htypes⟩ := Draft.lists_of_declareAll hd
  obtain ⟨start, startType, v, blocks, hstart, hhas, htype, hv, hblocks, heq⟩ :=
    Draft.exists_of_build hbuild
  have h := Draft.supports (Draft.keepsGoalFree_of_declareAll hd) hhas hv hblocks heq
  have hwf := h.wellFormed
  have hnames : v.nonterminals.toList =
      goalName :: Declarations.nonterminals (declarations.filter Declaration.isAccepted) := by
    rw [Draft.nonterminals_of_vocabulary h.keepsGoalFree hv, hkeys]
  exact {
    nonterminal_names := h.nonterminal_names.trans hnames
    nodup_nonterminals := hnames ▸ v.nonterminals.nodup
    exists_terminal_names := by
      obtain ⟨names, hterminals, hascending, hmem⟩ := h.exists_terminal_names
      refine ⟨names, hterminals, hascending.imp encoded_lt_of_compare, fun name => ?_⟩
      rw [hmem, hnames, Draft.mem_mentioned_iff]
      simp only [hrules]
    start_mem := ⟨hwf.hasSymbol_of_mentions hwf.mentions_start, h.start_ne_goal⟩
    start_eq := by
      rw [h.name_start, ← Draft.start_or_head_of_startName hstart, hreflects.start_eq, hkeys]
      rfl
    exists_goal_type := by
      rw [h.name_start, ← htypes]
      exact ⟨startType, by rw [h.eq_assemble]; rfl, htype⟩
    type_eq n hn hgoal := by rw [h.resultType_eq hn hgoal, htypes]
    goal_production := h.goal_production
    goal_productions := by rw [h.eq_assemble]; rfl
    words_eq := by
      rw [h.name_start, h.map_words_productions (Block.holds_of_foldlM hblocks), hkeys]
      simp only [hrules]
    productions_eq := h.productions_eq
    left_mem := hwf.left_mem
    isMeant p hp x hx := hwf.isMeant ⟨p, hp, hx⟩ }

/-- Declarations of two nonterminals in turn, some of them refused, repeated or replaced. -/
def tangledDeclarations : List Declaration :=
  [.rule "List" ["List", ",", "item"] "append", .start goalName, .rule "Row" ["List", ";"] "row",
    .rule goalName ["x"] "", .rule "List" ["item"] "first", .nonterminal "List",
    .rule "List" ["List", ",", "item"] "again", .nonterminal goalName, .resultType "List" "int",
    .start "Row", .resultType "List" "Items", .start "List"]

def tangled : Grammar :=
  (Draft.attemptAll tangledDeclarations).build.toOption.getD default

theorem tangled_represents : (Draft.attemptAll tangledDeclarations).build = .ok tangled ∧
    tangled.Represents (tangledDeclarations.filter Declaration.isAccepted) := by
  have hg : (Draft.attemptAll tangledDeclarations).build = .ok tangled :=
    eq_ok_getD_of_isOk (by decide +kernel)
  exact ⟨hg, represents_of_attemptAll hg⟩

end Grammar

end ShiftReduce
