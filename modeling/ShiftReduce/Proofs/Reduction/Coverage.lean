import ShiftReduce.Proofs.Automaton.Reachable
import ShiftReduce.Proofs.Reduction.Plans

/-!
# Plans cover the reachable productions

The states complete the productions of the reachable nonterminals, whether or not these derive any
text. Each of the productions but the goal's gets one thunk, and one handler if its left-hand side
has a type. So no Reduce entry of the table is without its thunk.
-/

namespace ShiftReduce

variable {g : Grammar}

/-- A production to plan for: of a reachable nonterminal, and not the goal's. -/
structure Grammar.IsPlanned (g : Grammar) (p : ProductionId) : Prop where
  mem : p ∈ g.productionIds
  ne_goal : p ≠ .goal
  reachable : g.Reachable (g.production p).left

theorem Automaton.mem_reductions_iff_isPlanned (hg : g.WellFormed) {p : ProductionId} :
    p ∈ g.automaton.reductions g ↔ g.IsPlanned p := by
  rw [mem_reductions_iff]
  constructor
  · rintro ⟨hgoal, q, hq, item, hitem, -, rfl⟩
    obtain ⟨symbols, hreached⟩ := (exists_mem_items_iff hg).mp ⟨q, hq, hitem⟩
    exact ⟨hasItems_items hg hq item hitem, hgoal, hreached.reachable hg⟩
  · rintro ⟨hp, hgoal, hreachable⟩
    obtain ⟨q, hq, hitem⟩ :=
      (exists_mem_items_iff_reachable hg hp (Nat.le_refl _)).mpr hreachable
    exact ⟨hgoal, q, hq, _, hitem, decide_eq_true (Nat.le_refl _), rfl⟩

/-- Sorting by name ascends, with equal names side by side. -/
theorem pairwise_sortByName {α : Type} (name : α → String) (xs : List α) :
    (sortByName name xs).Pairwise fun x y => name x ≤ name y := by
  have hascending : (sortByName name xs).Pairwise fun x y => (compareOn name x y).isLE = true :=
    pairwise_sortBy_isLE xs
  refine hascending.imp fun hle => ?_
  exact (isLE_compareOfLessAndEq String.le_antisymm String.not_le String.le_total).mp hle

section Members

variable (a : Automaton)

theorem perm_thunk_productions :
    ((g.plans a).thunks.map Thunk.production).Perm (a.reductions g) := by
  refine ((perm_sortBy _ _).map Thunk.production).trans (.of_eq ?_)
  rw [List.map_map, List.map_map]
  exact List.map_id _

theorem eq_thunk_of_mem {thunk : Thunk} (hthunk : thunk ∈ (g.plans a).thunks) :
    thunk = g.thunk thunk.production ((g.plans a).handlerName thunk.production) := by
  rw [Grammar.plans, mem_sortByName, List.map_map, List.mem_map] at hthunk
  obtain ⟨p, -, rfl⟩ := hthunk
  rfl

theorem handler?_eq_some_of_mem {handler : Handler} (hhandler : handler ∈ (g.plans a).handlers) :
    g.handler? handler.production ((g.plans a).handlerName handler.production) = some handler := by
  rw [Grammar.plans, mem_sortByName, List.filterMap_map, List.mem_filterMap] at hhandler
  obtain ⟨p, -, hp⟩ := hhandler
  have hproduction : handler.production = p := by
    obtain ⟨_, -, rfl⟩ := Option.map_eq_some_iff.mp hp
    rfl
  rw [hproduction]
  exact hp

/-- The typed productions among those that are reduced. -/
theorem perm_handler_productions : ((g.plans a).handlers.map Handler.production).Perm
    ((a.reductions g).filter fun p =>
      (g.nonterminal (g.production p).left).resultType.isSome) := by
  refine ((perm_sortBy _ _).map Handler.production).trans (.of_eq ?_)
  rw [List.filterMap_map, List.map_filterMap, ← List.filterMap_eq_filter]
  refine List.filterMap_congr fun p _ => ?_
  cases htype : (g.nonterminal (g.production p).left).resultType with
  | none => simp [Grammar.handler?, Option.guard, htype]
  | some type => simp [Grammar.handler?, Option.guard, htype]

theorem pairwise_thunks : (g.plans a).thunks.Pairwise fun t u => t.name ≤ u.name :=
  pairwise_sortByName Thunk.name _

theorem pairwise_handlers : (g.plans a).handlers.Pairwise fun h k => h.name ≤ k.name :=
  pairwise_sortByName Handler.name _

end Members

/-- The plans are those of the reachable productions, one for each, by name. -/
structure PlansCoverReachable (g : Grammar) : Prop where
  /-- The states have a production with every marker or with none. -/
  exists_mem_items_iff : ∀ p ∈ g.productionIds, ∀ marker ≤ (g.production p).right.size,
    (∃ q < g.automaton.states.size, ⟨p, marker⟩ ∈ (g.automaton.state q).items) ↔
      g.Reachable (g.production p).left
  mem_thunk_productions_iff : ∀ p,
    p ∈ (g.plans g.automaton).thunks.map Thunk.production ↔ g.IsPlanned p
  nodup_thunk_productions : ((g.plans g.automaton).thunks.map Thunk.production).Nodup
  eq_thunk : ∀ thunk ∈ (g.plans g.automaton).thunks,
    thunk = g.thunk thunk.production ((g.plans g.automaton).handlerName thunk.production)
  thunks_ascend : (g.plans g.automaton).thunks.Pairwise fun t u => t.name ≤ u.name
  mem_handler_productions_iff : ∀ p,
    p ∈ (g.plans g.automaton).handlers.map Handler.production ↔
      g.IsPlanned p ∧ (g.nonterminal (g.production p).left).resultType.isSome
  nodup_handler_productions : ((g.plans g.automaton).handlers.map Handler.production).Nodup
  handler?_eq_some : ∀ handler ∈ (g.plans g.automaton).handlers,
    g.handler? handler.production ((g.plans g.automaton).handlerName handler.production) =
      some handler
  handlers_ascend : (g.plans g.automaton).handlers.Pairwise fun h k => h.name ≤ k.name
  exists_thunk_of_reduce : ∀ q x p, g.compile.table.action? q x = some (.reduce p) →
    ∃ thunk ∈ (g.plans g.automaton).thunks,
      thunk.production = p ∧ thunk.name = (g.plans g.automaton).thunkName p

theorem plansCoverReachable {declarations : List Declaration}
    (hg : Grammar.ofDeclarations declarations = .ok g) : PlansCoverReachable g := by
  have hwf := Grammar.wellFormed_of_ofDeclarations hg
  have hnodup := g.automaton.nodup_reductions (g := g)
  exact {
    exists_mem_items_iff p hp marker hmarker :=
      Automaton.exists_mem_items_iff_reachable hwf hp hmarker
    mem_thunk_productions_iff p := by
      rw [(perm_thunk_productions g.automaton).mem_iff,
        Automaton.mem_reductions_iff_isPlanned hwf]
    nodup_thunk_productions := (perm_thunk_productions g.automaton).nodup_iff.mpr hnodup
    eq_thunk thunk hthunk := eq_thunk_of_mem g.automaton hthunk
    thunks_ascend := pairwise_thunks g.automaton
    mem_handler_productions_iff p := by
      rw [(perm_handler_productions g.automaton).mem_iff, List.mem_filter,
        Automaton.mem_reductions_iff_isPlanned hwf]
    nodup_handler_productions :=
      (perm_handler_productions g.automaton).nodup_iff.mpr (hnodup.filter _)
    handler?_eq_some handler hhandler := handler?_eq_some_of_mem g.automaton hhandler
    handlers_ascend := pairwise_handlers g.automaton
    exists_thunk_of_reduce q x p hreduce := by
      have hp := (perm_thunk_productions g.automaton).mem_iff.mpr
        (mem_reductions_of_reduce hreduce)
      obtain ⟨thunk, hthunk, rfl⟩ := List.mem_map.mp hp
      exact ⟨thunk, hthunk, rfl, congrArg Thunk.name (eq_thunk_of_mem g.automaton hthunk)⟩ }

/-- `A` is reached and derives no text, `B` is not reached, and neither `A` nor `B` has a type. -/
def unreachedDeclarations : List Declaration :=
  [.rule "S" ["x"] "", .rule "S" ["A", "x"] "", .rule "A" ["A", "y"] "", .rule "B" ["S"] "",
    .resultType "S" "int", .start "S"]

def unreached : Grammar :=
  (Grammar.ofDeclarations unreachedDeclarations).toOption.getD default

theorem unreached_plansCoverReachable :
    Grammar.ofDeclarations unreachedDeclarations = .ok unreached ∧
      PlansCoverReachable unreached ∧
      (unreached.plans unreached.automaton).thunks.map Thunk.production = [⟨3⟩, ⟨2⟩, ⟨1⟩] ∧
      (unreached.plans unreached.automaton).handlers.map Handler.production = [⟨2⟩, ⟨1⟩] := by
  have hg : Grammar.ofDeclarations unreachedDeclarations = .ok unreached :=
    eq_ok_getD_of_isOk (by decide +kernel)
  exact ⟨hg, plansCoverReachable hg, by decide +kernel, by decide +kernel⟩

end ShiftReduce
