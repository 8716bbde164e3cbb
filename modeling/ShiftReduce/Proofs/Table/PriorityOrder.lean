import Mathlib.Data.List.Find
import ShiftReduce.Proofs.Collection.FirstOccurrence
import ShiftReduce.Proofs.Renumbering.DeclarationOrder
import ShiftReduce.Proofs.Table.ConflictReport

/-!
# The order of priorities

Of the priorities of a grammar only the order counts in which they first name the terminals in use.
Ranks change when a name is added or repeated, but all comparisons of ranks come out the same, and
with them the table.
-/

namespace ShiftReduce

/-- The lists have the same of some names, and put those in the same order. -/
structure RankAlike (used : String → Prop) (ps qs : List String) : Prop where
  mem_iff : ∀ name, used name → (name ∈ qs ↔ name ∈ ps)
  idxOf_le_iff : ∀ a b, used a → used b → (qs.idxOf a ≤ qs.idxOf b ↔ ps.idxOf a ≤ ps.idxOf b)

/-- The place of the first of some names that is in a list, or the place behind the list. -/
def leadingPlace (ps names : List String) : Nat :=
  (names.findSome? ps.idxOf?).getD ps.length

theorem leadingPlace_eq (ps names : List String) :
    leadingPlace ps names = (names.find? (· ∈ ps)).elim ps.length ps.idxOf := by
  unfold leadingPlace
  induction names with
  | nil => rfl
  | cons name names ih =>
    by_cases hmem : name ∈ ps
    · simp [idxOf?_of_mem hmem, hmem]
    · simpa [List.findSome?_cons, List.idxOf?_eq_none_iff.mpr hmem, hmem] using ih

namespace RankAlike

variable {used : String → Prop} {ps qs : List String}

/-- A list ranks names like what remains of it without repetitions and without other names. -/
theorem eraseDups_filter {keep : String → Bool} (hkeep : ∀ name, used name → keep name = true)
    (ps : List String) : RankAlike used ps (ps.filter keep).eraseDups where
  mem_iff name hname := by simp [hkeep name hname]
  idxOf_le_iff a b ha hb := by
    rw [idxOf_eraseDups_le_iff, idxOf_filter_le_iff ps (hkeep a ha) (hkeep b hb)]

theorem leadingPlace_le_iff (hrank : RankAlike used ps qs) {xs ys : List String}
    (hxs : ∀ name ∈ xs, used name) (hys : ∀ name ∈ ys, used name) :
    leadingPlace qs xs ≤ leadingPlace qs ys ↔ leadingPlace ps xs ≤ leadingPlace ps ys := by
  have hfind {names : List String} (hnames : ∀ name ∈ names, used name) :
      names.find? (· ∈ qs) = names.find? (· ∈ ps) :=
    List.find?_congr fun name hname => decide_eq_decide.mpr (hrank.mem_iff name (hnames name hname))
  have hfound {names : List String} (hnames : ∀ name ∈ names, used name) {name : String}
      (hname : names.find? (· ∈ ps) = some name) :
      used name ∧ ps.idxOf name < ps.length ∧ qs.idxOf name < qs.length := by
    have hused := hnames name (List.mem_of_find?_eq_some hname)
    have hmem : name ∈ ps := by simpa using List.find?_some hname
    exact ⟨hused, List.idxOf_lt_length_iff.mpr hmem,
      List.idxOf_lt_length_iff.mpr ((hrank.mem_iff name hused).mpr hmem)⟩
  simp only [leadingPlace_eq, hfind hxs, hfind hys]
  cases hx : xs.find? (· ∈ ps) with
  | none =>
    cases hy : ys.find? (· ∈ ps) with
    | none => simp
    | some y =>
      obtain ⟨-, hps, hqs⟩ := hfound hys hy
      simp only [Option.elim_none, Option.elim_some]
      omega
  | some x =>
    obtain ⟨hused, hps, hqs⟩ := hfound hxs hx
    cases hy : ys.find? (· ∈ ps) with
    | none =>
      simp only [Option.elim_none, Option.elim_some]
      omega
    | some y => exact hrank.idxOf_le_iff x y hused (hfound hys hy).1

end RankAlike

/-- A name that some right-hand side mentions and that is not a nonterminal's. -/
def NamesTerminal (declarations : List Declaration) (name : String) : Prop :=
  (∃ left right, (∃ d ∈ declarations, d.sides? = some (left, right)) ∧ name ∈ right) ∧
    ¬ (name = goalName ∨ ∃ d ∈ declarations, d.nonterminal? = some name)

/-- The terminals on the right-hand side of a production, by name. -/
def Grammar.terminalNames (g : Grammar) (p : ProductionId) : List String :=
  (g.production p).right.toList.filterMap fun
    | .terminal t => some (g.terminal t).name
    | .nonterminal _ => none

theorem Grammar.mem_productionIds_of_mem_right {g : Grammar} {p : ProductionId} {x : Symbol}
    (hx : x ∈ (g.production p).right.toList) : p ∈ g.productionIds := by
  by_contra hp
  rw [production_of_not_mem hp] at hx
  cases hx

namespace Grammar.Declared

variable {declarations : List Declaration} {g : Grammar} (hg : g.Declared declarations)

include hg

theorem rank_eq_leadingPlace (p : ProductionId) :
    g.rank p = leadingPlace g.priorities (g.terminalNames p) := by
  rw [rank, leadingPlace, terminalNames, ← List.head?_filterMap, ← List.head?_filterMap,
    List.filterMap_filterMap]
  refine congrArg (fun ranks => (List.head? ranks).getD _) (List.filterMap_congr fun x hx => ?_)
  cases x with
  | nonterminal n => rfl
  | terminal t =>
    have hmentions := mentions_of_mem (mem_productionIds_of_mem_right hx) hx
    exact hg.priority_eq t (hg.wellFormed.mem_terminalIds_of_mentions hmentions)

theorem namesTerminal_of_mem {p : ProductionId} {name : String} (hname : name ∈ g.terminalNames p) :
    NamesTerminal declarations name := by
  obtain ⟨x, hx, hname⟩ := List.mem_filterMap.mp hname
  cases x with
  | nonterminal n => cases hname
  | terminal t =>
    obtain rfl := Option.some.inj hname
    have hp := mem_productionIds_of_mem_right hx
    have hgoal : p ≠ .goal := by
      rintro rfl
      rw [hg.wellFormed.goal_production] at hx
      simp at hx
    have hright := List.mem_map_of_mem (f := g.symbolName) hx
    have hsides := (hg.exists_production_iff _ _).mp ⟨p, hp, hgoal, rfl⟩
    refine ⟨⟨_, _, hsides, hright⟩, fun hdeclared => ?_⟩
    -- the name of a nonterminal is never read as a terminal
    obtain ⟨n, hn, hname⟩ := (hg.exists_nonterminal_iff _).mpr hdeclared
    have hfound := hg.wellFormed.symbol?_mentioned _ (mentions_of_mem hp hx)
    rw [symbolName, ← hname, hg.wellFormed.symbol?_nonterminal n hn] at hfound
    cases hfound

end Grammar.Declared

/-- Nothing is renumbered. -/
def Renumbering.refl : Renumbering where
  nonterminal := .refl _
  production := .refl _

namespace Renumbering

@[simp] theorem refl_symbol : refl.symbol = id :=
  refl.symbol_eq_id rfl

@[simp] theorem refl_action : refl.action = id := by
  funext action
  cases action <;> rfl

theorem refl_production (p : ProductionId) : refl.production p = p := rfl

end Renumbering

namespace Grammar

variable {g h : Grammar}

theorem terminalNames_unranked (p : ProductionId) :
    g.unranked.terminalNames p = g.terminalNames p := by
  refine List.filterMap_congr fun x _ => ?_
  cases x with
  | terminal t =>
    have hname : (g.unranked.terminal t).name = (g.terminal t).name := by
      rw [terminal_unranked]
      rfl
    exact congrArg some hname
  | nonterminal n => rfl

/-- Nothing is renumbered between grammars that differ in their priorities alone, if these rank the
terminals in use alike. -/
theorem carries_refl {ds es : List Declaration} (hg : g.Declared ds) (hh : h.Declared es)
    (hsame : h.unranked = g.unranked)
    (hrank : RankAlike (NamesTerminal ds) g.priorities h.priorities) :
    Renumbering.refl.Carries g h := by
  have hnonterminals : h.nonterminals = g.nonterminals := by
    change h.unranked.nonterminals = g.unranked.nonterminals
    rw [hsame]
  have hproductions : h.productions = g.productions := by
    change h.unranked.productions = g.unranked.productions
    rw [hsame]
  have hproduction (p : ProductionId) : h.production p = g.production p := by
    rw [production, hproductions, production]
  have hnames (p : ProductionId) : h.terminalNames p = g.terminalNames p := by
    rw [← terminalNames_unranked, hsame, terminalNames_unranked]
  exact {
    source_wellFormed := hg.wellFormed
    target_wellFormed := hh.wellFormed
    terminal_name t := by
      have hname := congrArg (fun k => (terminal k t).name) hsame
      rwa [terminal_unranked, terminal_unranked] at hname
    nonterminal_name n := by
      rw [nonterminal, hnonterminals]
      rfl
    nonterminal_goal := rfl
    production_goal := rfl
    mem_nonterminalIds_iff n := by
      rw [nonterminalIds, hnonterminals]
      rfl
    mem_productionIds_iff p := by
      rw [productionIds, hproductions]
      rfl
    left p := by
      rw [Renumbering.refl_production, hproduction]
      rfl
    right p := by
      rw [Renumbering.refl_production, hproduction, Renumbering.refl_symbol, Array.map_id]
    rank_le_iff p q := by
      simp only [Renumbering.refl_production, hg.rank_eq_leadingPlace, hh.rank_eq_leadingPlace,
        hnames]
      exact hrank.leadingPlace_le_iff (fun _ => hg.namesTerminal_of_mem)
        fun _ => hg.namesTerminal_of_mem }

theorem table_eq_of_carries_refl (hσ : Renumbering.refl.Carries g h) :
    h.compile.table = g.compile.table := by
  have hrows : h.compile.table.rows.toList = g.compile.table.rows.toList := by
    rw [← List.forall₂_eq_eq_eq]
    refine hσ.rows.flip.imp fun row' row hrow => ?_
    have hactions : row'.actions = row.actions := by
      simpa [Renumbering.MapsRow] using hrow
    exact congrArg Row.mk hactions
  exact congrArg ParseTable.mk (Array.toList_inj.mp hrows)

theorem plans_unranked (g : Grammar) : g.unranked.plans = g.plans := by
  have hnames : g.unranked.handlerNames = g.handlerNames := by
    have hplain : g.unranked.plainName = g.plainName := by
      funext p
      simp only [plainName, symbolName_unranked]
      rfl
    rw [handlerNames, hplain]
    rfl
  funext a
  rw [plans, hnames]
  rfl

theorem artifact_unranked (g : Grammar) : g.unranked.artifact = g.artifact := by
  have hentry : Artifact.entry g.unranked = Artifact.entry g := by
    funext plans slot
    rw [Artifact.entry, symbolName_unranked]
    rfl
  have hrow : Artifact.row g.unranked = Artifact.row g := by
    funext plans row
    rw [Artifact.row, hentry]
    rfl
  funext table plans
  rw [artifact, hrow]
  rfl

/-- The grammars differ in their priorities at most, and their parsers are the same. -/
structure ParsesLike (h g : Grammar) : Prop where
  unranked_eq : h.unranked = g.unranked
  automaton_eq : h.compile.automaton = g.compile.automaton
  /-- The slots of every row are the same in the same order. -/
  table_eq : h.compile.table = g.compile.table
  conflicts_eq : h.conflicts = g.conflicts
  artifact_eq : h.compile.artifact = g.compile.artifact

theorem exists_parsesLike {ds es : List Declaration} (hg : ofDeclarations ds = .ok g)
    (hsame : es.filter (!·.isPriority) = ds.filter (!·.isPriority))
    (hrank : RankAlike (NamesTerminal ds) (ds.filterMap Declaration.priority?)
      (es.filterMap Declaration.priority?)) :
    ∃ h, ofDeclarations es = .ok h ∧ h.ParsesLike g := by
  obtain ⟨h, hh, hunranked, hconflicts⟩ := (reportsConflicts hg).conflicts_eq es hsame
  have hgdeclared := declared_of_ofDeclarations hg
  have hhdeclared := declared_of_ofDeclarations hh
  rw [← hgdeclared.priorities_eq, ← hhdeclared.priorities_eq] at hrank
  have hautomaton : h.automaton = g.automaton := by
    rw [← h.automaton_unranked, hunranked, g.automaton_unranked]
  have htable := table_eq_of_carries_refl (carries_refl hgdeclared hhdeclared hunranked hrank)
  have hplans : h.plans = g.plans := by rw [← h.plans_unranked, hunranked, g.plans_unranked]
  have hartifact : h.artifact = g.artifact := by
    rw [← h.artifact_unranked, hunranked, g.artifact_unranked]
  refine ⟨h, hh, hunranked, hautomaton, htable, hconflicts, ?_⟩
  change h.artifact h.compile.table (h.plans h.automaton) =
    g.artifact g.compile.table (g.plans g.automaton)
  rw [hartifact, htable, hplans, hautomaton]

end Grammar

namespace GrammarRecord

variable (r : GrammarRecord)

/-- The name is on a right-hand side and is not a nonterminal's. -/
def usesTerminal (name : String) : Bool :=
  name ≠ goalName && name ∉ r.nonterminals && r.sides.any fun side => name ∈ side.2

/-- The first mentions of terminals in use among the priorities. Repetitions are left out, and so
are nonterminals and names that are not in use. -/
def usedPriorities : List String :=
  (r.priorities.filter r.usesTerminal).eraseDups

def withUsedPriorities : GrammarRecord :=
  { r with priorities := r.usedPriorities }

theorem usesTerminal_of_namesTerminal {name : String} (hname : NamesTerminal r.declarations name) :
    r.usesTerminal name = true := by
  obtain ⟨⟨left, right, hsides, hmem⟩, hnot⟩ := hname
  rw [exists_sides_declared_iff] at hsides
  rw [exists_nonterminal_declared_iff, not_or] at hnot
  simp only [usesTerminal, Bool.and_eq_true, decide_eq_true_eq, List.any_eq_true]
  exact ⟨⟨hnot.1, hnot.2⟩, (left, right), hsides, hmem⟩

theorem filter_declarations_withUsedPriorities :
    r.withUsedPriorities.declarations.filter (!·.isPriority) =
      r.declarations.filter (!·.isPriority) := by
  have hpriorities (names : List String) :
      (names.map Declaration.priority).filter (!·.isPriority) = [] := by
    simp [List.filter_map, Function.comp_def, Declaration.isPriority]
  simp only [declarations, List.filter_append, hpriorities]
  rfl

end GrammarRecord

/-- Only the order matters in which the priorities of a record first name the terminals in use. -/
theorem toGrammar_withUsedPriorities {r : GrammarRecord} {g : Grammar} (hg : r.toGrammar = .ok g) :
    ∃ h, r.withUsedPriorities.toGrammar = .ok h ∧ h.ParsesLike g := by
  refine Grammar.exists_parsesLike hg r.filter_declarations_withUsedPriorities ?_
  rw [GrammarRecord.priorities_declared, GrammarRecord.priorities_declared]
  exact RankAlike.eraseDups_filter (fun _ => r.usesTerminal_of_namesTerminal) r.priorities

/-- Sums and products whose priorities name a nonterminal, a terminal that is not in use, and one
operator twice. -/
def crowdedPriorities : GrammarRecord where
  rules := [("E", [⟨["E", "+", "E"], ""⟩, ⟨["E", "*", "E"], ""⟩, ⟨["num"], ""⟩])]
  start := "E"
  priorities := ["E", "*", "?", "+", "*"]
  resultTypes := [("E", "int")]

theorem crowdedPriorities_parsesLike : crowdedPriorities.usedPriorities = ["*", "+"] ∧
    ∃ g, crowdedPriorities.toGrammar = .ok g ∧
      ∃ h, crowdedPriorities.withUsedPriorities.toGrammar = .ok h ∧ h.ParsesLike g := by
  obtain ⟨g, hg⟩ : ∃ g, crowdedPriorities.toGrammar = .ok g := exists_of_isOk (by decide +kernel)
  exact ⟨by decide +kernel, g, hg, toGrammar_withUsedPriorities hg⟩

end ShiftReduce
