import ShiftReduce.Proofs.Automaton.Search
import ShiftReduce.Proofs.Lookups.Basic
import ShiftReduce.Proofs.Loops.Passes
import ShiftReduce.Proofs.Loops.Worklist
import ShiftReduce.Report.Compilation

/-!
# Compilation without bounds

The search for item sets takes them from a stack, where sets that are found already are pushed again
and again. Its steps need closures, each of which is a loop of its own. All loops that compiling a
grammar runs through end, so it has a result for every grammar that was built from declarations.
-/

namespace ShiftReduce

variable {g : Grammar}

section Search

variable (g : Grammar)

noncomputable def successorsLoop (items : List Item) : Option (List (Symbol × List Item)) :=
  let groups := group (·.next? g) items
  (nextSymbols g items).mapM fun x => do
    let target ← closureLoop g ((groupOf groups x).map Item.advance)
    return (x, target)

/-- A step of the search that waits for the closures it needs. -/
noncomputable def Search.stepLoop (s : Search) : Option (Loop.Step Search) :=
  match s.pending with
  | [] => some (.last s)
  | items :: rest =>
    if s.found.contains items then some (.next { s with pending := rest })
    else do
      let next ← successorsLoop g items
      return .next {
        found := s.found.insert items next
        pending := next.reverse.map Prod.snd ++ rest }

noncomputable def searchLoop : Option (OrderedMap (List Item) (List (Symbol × List Item))) := do
  let initial ← closureLoop g [Item.start .goal]
  let s ← Loop.forever (Search.stepLoop g) { found := ∅, pending := [initial] }
  return s.found

end Search

theorem successorsLoop_eq (hg : g.WellFormed) {items : List Item} (hitems : g.HasItems items) :
    successorsLoop g items = some (successors g items) := by
  refine mapM_eq_some fun x _ => ?_
  rw [groupOf_group]
  exact congrArg (·.bind fun target => some (x, target))
    (closureLoop_eq hg (hasItems_passed hitems x))

theorem Search.Sound.stepLoop_eq (hg : g.WellFormed) {s : Search} (hs : Sound g s) :
    stepLoop g s = some (Search.step g s) := by
  unfold stepLoop Search.step
  cases hpending : s.pending with
  | nil => rfl
  | cons items rest =>
    have hreached := hs.reached_of_pending items (hpending ▸ List.mem_cons_self)
    simp only [successorsLoop_eq hg (hreached.hasItems hg)]
    split <;> rfl

theorem searchLoop_eq (hg : g.WellFormed) : searchLoop g = some (Search.run g) := by
  have hforever := Loop.forever_eq_run (Search.step g) (P := Search.Sound g)
    (fun _ hs => hs.stepLoop_eq hg) (fun _ _ hs hnext => (hs.step hg hnext).1)
    (Search.sound_start hg) (Search.step_of_pending_nil (Search.sound_last hg).2)
  rw [searchLoop, closureLoop_eq hg hg.hasItems_goal]
  exact congrArg (·.bind fun s => some s.found) hforever

namespace Grammar

section Loops

variable (g : Grammar)

noncomputable def analysisLoop : Option Analysis := do
  let nullables ← g.nullableLoop ∅
  let firsts ← g.firstLoop nullables
  let follows ← g.followLoop nullables firsts
  return { nullables, firsts, follows }

noncomputable def automatonLoop : Option Automaton := do
  let found ← searchLoop g
  return { states :=
    (found.toList.map fun (items, next) => State.ofItems found.keys items next).toArray }

/-- Compiles a grammar with loops that know no bounds. -/
noncomputable def compileLoop : Option Compilation := do
  let analysis ← g.analysisLoop
  let automaton ← g.automatonLoop
  let tabulation := g.tabulate automaton analysis
  let plans := g.plans automaton
  return {
    automaton
    table := tabulation.table
    artifact := g.artifact tabulation.table plans
    diagnostics := g.diagnostics analysis automaton tabulation.conflicts }

end Loops

theorem analysisLoop_eq (hg : g.WellFormed) : g.analysisLoop = some g.analysis := by
  simp only [analysisLoop, nullableLoop_eq, firstLoop_eq hg.inRange, followLoop_eq hg.inRange]
  rfl

theorem automatonLoop_eq (hg : g.WellFormed) : g.automatonLoop = some g.automaton := by
  rw [automatonLoop, searchLoop_eq hg]
  rfl

theorem compileLoop_eq (hg : g.WellFormed) : g.compileLoop = some g.compile := by
  rw [compileLoop, analysisLoop_eq hg, automatonLoop_eq hg]
  rfl

/-- Every loop comes to an end, and with it the compilation. -/
structure LoopsEnd (g : Grammar) : Prop where
  nullables_end : ∀ seed, g.nullableLoop seed = some (g.nullableClosure seed)
  firsts_end : ∀ nulls, g.firstLoop nulls = some (g.firstsWith nulls)
  follows_end : ∀ nulls firsts, g.followLoop nulls firsts = some (g.followsWith nulls firsts)
  /-- The kernel may have any items, even of productions that do not exist. -/
  closure_ends : ∀ kernel, ∃ items, closureLoop g kernel = some items
  closure_eq : ∀ kernel, g.HasItems kernel → closureLoop g kernel = some (closure g kernel)
  search_ends : searchLoop g = some (Search.run g)
  compile_ends : g.compileLoop = some g.compile

end Grammar

theorem loopsEnd {declarations : List Declaration}
    (hg : Grammar.ofDeclarations declarations = .ok g) : g.LoopsEnd := by
  have hwf := Grammar.wellFormed_of_ofDeclarations hg
  exact {
    nullables_end := Grammar.nullableLoop_eq
    firsts_end := Grammar.firstLoop_eq hwf.inRange
    follows_end := Grammar.followLoop_eq hwf.inRange
    closure_ends := fun kernel => by
      obtain ⟨items, hitems, -⟩ := exists_closureLoop hwf kernel
      exact ⟨_, hitems⟩
    closure_eq := fun _ hkernel => closureLoop_eq hwf hkernel
    search_ends := searchLoop_eq hwf
    compile_ends := Grammar.compileLoop_eq hwf }

/-- A grammar with cycles and left recursion, where `S` is nullable by itself and `U` derives
nothing at all. -/
def tangledDeclarations : List Declaration :=
  [.rule "S" ["S", "S"] "", .rule "S" ["A"] "", .rule "S" [] "", .rule "A" ["S"] "",
    .rule "A" ["A", "a"] "", .rule "U" ["U", "u"] "", .resultType "S" "int", .start "S"]

theorem tangled_loopsEnd : ∃ g, Grammar.ofDeclarations tangledDeclarations = .ok g ∧
    g.LoopsEnd := by
  obtain ⟨g, hg⟩ : ∃ g, Grammar.ofDeclarations tangledDeclarations = .ok g :=
    exists_of_isOk (by decide +kernel)
  exact ⟨g, hg, loopsEnd hg⟩

end ShiftReduce
