import ShiftReduce.Analysis.Basic
import ShiftReduce.Automaton.Basic
import ShiftReduce.Grammar.Build

/-!
# Grammars without their priorities

Priorities are kept with terminals and in a list of their own. Declarations of priorities change
nothing else in a grammar, and neither the automaton nor the sets of a grammar depend on them.
-/

namespace ShiftReduce

def Declaration.isPriority : Declaration → Bool
  | priority _ => true
  | _ => false

def Terminal.unranked (t : Terminal) : Terminal :=
  { t with priority := none }

/-- The grammar with no priorities. -/
def Grammar.unranked (g : Grammar) : Grammar :=
  { g with terminals := g.terminals.map Terminal.unranked, priorities := [] }

namespace Draft

def unranked (d : Draft) : Draft :=
  { d with priorities := #[] }

variable (d : Draft)

theorem declare_unranked {declaration : Declaration} (hother : declaration.isPriority = false) :
    d.unranked.declare declaration = (d.declare declaration).map unranked := by
  cases declaration with
  | nonterminal | rule | start =>
    simp only [declare]
    split <;> rfl
  | priority => cases hother
  | resultType | headerExtra | verbose | parserName => rfl

/-- Without the declarations of priorities the same draft results, but for its priorities. -/
theorem declareAll_filter_not_isPriority (declarations : List Declaration) :
    d.unranked.declareAll (declarations.filter fun declaration => !declaration.isPriority) =
      (d.declareAll declarations).map unranked := by
  induction declarations generalizing d with
  | nil => rfl
  | cons first rest ih =>
    have hcons (next : Draft) : next.declareAll (first :: rest) =
        (next.declare first).bind fun next => next.declareAll rest := rfl
    cases hfirst : first.isPriority with
    | true =>
      obtain ⟨terminal, rfl⟩ : ∃ terminal, first = .priority terminal := by
        cases first with
        | priority terminal => exact ⟨terminal, rfl⟩
        | _ => cases hfirst
      exact ih { d with priorities := d.priorities.push terminal }
    | false =>
      rw [List.filter_cons_of_pos (by simp [hfirst]), hcons, declareAll, List.foldlM_cons,
        declare_unranked d hfirst]
      cases d.declare first with
      | error e => rfl
      | ok next => exact ih next

theorem assemble_unranked (start startType : String) (v : Vocabulary) (blocks : List Block) :
    d.unranked.assemble start startType v blocks =
      (d.assemble start startType v blocks).unranked := by
  simp only [assemble, Grammar.unranked, Array.map_map]
  rfl

theorem build_unranked : d.unranked.build = d.build.map Grammar.unranked := by
  have hstart : d.unranked.startName = d.startName := rfl
  have hrules (name : String) : d.unranked.hasRules name = d.hasRules name := rfl
  have htypes : d.unranked.resultTypes = d.resultTypes := rfl
  have hv : d.unranked.vocabulary = d.vocabulary := rfl
  have hentries : d.unranked.rules = d.rules := rfl
  simp only [build, hstart, hrules, htypes, hv, hentries, bind, Except.bind]
  cases d.startName with
  | error e => rfl
  | ok start =>
    dsimp only
    cases d.hasRules start with
    | false => rfl
    | true =>
      cases d.resultTypes.get? start with
      | none => rfl
      | some startType =>
        cases d.vocabulary with
        | error e => rfl
        | ok v =>
          dsimp only
          cases d.rules.toList.foldlM (Block.append v) #[] with
          | error e => rfl
          | ok blocks => exact congrArg Except.ok (d.assemble_unranked start startType v _)

end Draft

theorem Grammar.ofDeclarations_filter_not_isPriority (declarations : List Declaration) :
    Grammar.ofDeclarations (declarations.filter fun declaration => !declaration.isPriority) =
      (Grammar.ofDeclarations declarations).map Grammar.unranked := by
  have hdraft :
      Draft.declareAll {} (declarations.filter fun declaration => !declaration.isPriority) =
        (Draft.declareAll {} declarations).map Draft.unranked :=
    Draft.declareAll_filter_not_isPriority {} declarations
  rw [Grammar.ofDeclarations, Grammar.ofDeclarations, hdraft]
  cases Draft.declareAll {} declarations with
  | error e => rfl
  | ok d => exact d.build_unranked

namespace Grammar

variable (g : Grammar)

theorem terminal_unranked (t : TerminalId) : g.unranked.terminal t = (g.terminal t).unranked := by
  simp only [terminal, unranked, Array.getD_eq_getD_getElem?, Array.getElem?_map]
  cases g.terminals[t.index]? with
  | none => rfl
  | some t => rfl

theorem symbolName_unranked : g.unranked.symbolName = g.symbolName := by
  funext x
  cases x with
  | terminal t =>
    rw [symbolName, terminal_unranked]
    rfl
  | nonterminal n => rfl

theorem productionNames_unranked : g.unranked.productionNames = g.productionNames := by
  funext p
  rw [productionNames, symbolName_unranked]
  rfl

theorem compare_unranked : Item.compare g.unranked = Item.compare g := by
  funext a b
  rw [Item.compare, productionNames_unranked]
  rfl

theorem closure_unranked : closure g.unranked = closure g := by
  funext kernel
  rw [closure, sortItems, compare_unranked]
  rfl

theorem successors_unranked : successors g.unranked = successors g := by
  funext items
  rw [successors, nextSymbols, closure_unranked, symbolName_unranked]
  rfl

theorem automaton_unranked : g.unranked.automaton = g.automaton := by
  have hstart : Search.start g.unranked = Search.start g := by
    rw [Search.start, initialItems, closure_unranked]
    rfl
  have hstep : Search.step g.unranked = Search.step g := by
    funext s
    rw [Search.step, successors_unranked]
    rfl
  have hbound : Search.bound g.unranked = Search.bound g := rfl
  simp only [automaton, Search.run, hstart, hstep, hbound]

theorem analysis_unranked : g.unranked.analysis = g.analysis := by
  have hsize : g.unranked.terminals.size = g.terminals.size := Array.size_map
  have hnulls : g.unranked.nullables = g.nullables := rfl
  have hfirsts : g.unranked.firstsWith = g.firstsWith := by
    funext nulls
    rw [firstsWith, firstBound, hsize]
    rfl
  have hfollows : g.unranked.followsWith = g.followsWith := by
    funext nulls firsts
    rw [followsWith, followBound, hsize]
    rfl
  unfold analysis
  simp only [hfirsts, hfollows, hnulls]

end Grammar

end ShiftReduce
