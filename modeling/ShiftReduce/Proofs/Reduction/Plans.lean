import ShiftReduce.Proofs.Artifact.Rows
import ShiftReduce.Proofs.Reduction.Names

/-!
# What a name in the artifact stands for

A Reduce entry names a thunk, and a thunk names its handler. Each name stands for one production
when the handler names are different, and then only.
-/

namespace ShiftReduce

variable {g : Grammar}

namespace Automaton

theorem nodup_reductions (a : Automaton) : (a.reductions g).Nodup :=
  nodup_distinct _

theorem mem_toList_states {a : Automaton} {s : State} :
    s ∈ a.states.toList ↔ ∃ q < a.states.size, a.state q = s := by
  rw [Array.mem_toList_iff, Array.mem_iff_getElem]
  constructor
  · rintro ⟨q, hq, rfl⟩
    exact ⟨q, hq, by simp [Automaton.state, hq]⟩
  · rintro ⟨q, hq, rfl⟩
    exact ⟨q, hq, by simp [Automaton.state, hq]⟩

/-- Reduced are the productions but the goal's that are complete in some state. -/
theorem mem_reductions_iff {a : Automaton} {p : ProductionId} :
    p ∈ a.reductions g ↔ p ≠ .goal ∧ ∃ q < a.states.size, ∃ item ∈ (a.state q).items,
      item.isComplete g = true ∧ item.production = p := by
  simp only [reductions, mem_distinct, List.mem_map, List.mem_filter, List.mem_flatMap,
    mem_toList_states, Bool.and_eq_true, decide_eq_true_eq]
  constructor
  · rintro ⟨item, ⟨⟨s, ⟨q, hq, rfl⟩, hitem⟩, hgoal, hcomplete⟩, rfl⟩
    exact ⟨hgoal, q, hq, item, hitem, hcomplete, rfl⟩
  · rintro ⟨hgoal, q, hq, item, hitem, hcomplete, rfl⟩
    exact ⟨item, ⟨⟨_, ⟨q, hq, rfl⟩, hitem⟩, hgoal, hcomplete⟩, rfl⟩

theorem mem_declaredIds_of_mem_reductions (hg : g.WellFormed) {p : ProductionId}
    (hp : p ∈ g.automaton.reductions g) : p ∈ g.declaredIds := by
  obtain ⟨hgoal, q, hq, item, hitem, -, rfl⟩ := mem_reductions_iff.mp hp
  exact Grammar.mem_declaredIds_iff.mpr ⟨hasItems_items hg hq item hitem, hgoal⟩

end Automaton

theorem mem_reductions_of_reduce {q : StateId} {x : Symbol} {p : ProductionId}
    (hreduce : g.compile.table.action? q x = some (.reduce p)) :
    p ∈ g.automaton.reductions g := by
  obtain ⟨hgoal, t, item, -, hready, hp⟩ := ParseTable.exists_ready_of_reduce hreduce
  exact Automaton.mem_reductions_iff.mpr
    ⟨hgoal, q, hready.lt_size, item, hready.mem_items, hready.complete, hp⟩

namespace Artifact

theorem perm_thunks : g.compile.artifact.thunks.Perm
    ((g.automaton.reductions g).map fun p => g.thunk p (nameIn g.handlerNames p)) := by
  simp only [Grammar.compile, Grammar.artifact, Grammar.plans, List.map_map]
  exact perm_sortBy _ _

theorem perm_handlers : g.compile.artifact.handlers.Perm
    ((g.automaton.reductions g).filterMap fun p => g.handler? p (nameIn g.handlerNames p)) := by
  simp only [Grammar.compile, Grammar.artifact, Grammar.plans, List.filterMap_map]
  exact perm_sortBy _ _

end Artifact

/-- In the artifact each name of a handler or a thunk stands for one production. -/
structure NamesIdentify (g : Grammar) : Prop where
  /-- No two productions have the same handler name. -/
  nodup_names : g.handlerNames.toList.Nodup
  /-- No two handlers share a name. -/
  nodup_handlers : (g.compile.artifact.handlers.map Handler.name).Nodup
  /-- No two thunks share a name. -/
  nodup_thunks : (g.compile.artifact.thunks.map Thunk.name).Nodup
  /-- The thunk that a Reduce entry names is the one of the reduced production and no other. -/
  thunk_iff : ∀ q, ∀ e ∈ g.compile.artifact.rowOf q, ∀ left arity name,
    e.action = .reduce left arity name →
      ∃ x p, g.compile.table.action? q x = some (.reduce p) ∧
        e = Artifact.entry g (g.plans g.automaton) (x, .reduce p) ∧
        ∀ thunk, thunk ∈ g.compile.artifact.thunks ∧ thunk.name = name ↔
          thunk = g.thunk p (g.handlerName p)

section Identify

variable (hg : g.WellFormed) (hapart : g.NamesApart)

include hg hapart

/-- Different productions that are reduced have different handler names. -/
theorem pairwise_handlerName_reductions : (g.automaton.reductions g).Pairwise fun p other =>
    nameIn g.handlerNames p ≠ nameIn g.handlerNames other := by
  refine (Automaton.nodup_reductions g.automaton).imp_of_mem fun {p other} hp hother hne heq => ?_
  have hp := Automaton.mem_declaredIds_of_mem_reductions hg hp
  have hother := Automaton.mem_declaredIds_of_mem_reductions hg hother
  rw [Grammar.nameIn_handlerNames hp, Grammar.nameIn_handlerNames hother] at heq
  have hnodup := Grammar.nodup_handlerNames_iff.mpr hapart
  rw [Grammar.toList_handlerNames] at hnodup
  exact hne (List.inj_on_of_nodup_map hnodup hp hother heq)

theorem nodup_handlers : (g.compile.artifact.handlers.map Handler.name).Nodup := by
  rw [(Artifact.perm_handlers.map _).nodup_iff, List.Nodup, List.pairwise_map,
    List.pairwise_filterMap]
  refine (pairwise_handlerName_reductions hg hapart).imp ?_
  intro p other hne handler hhandler handler' hhandler'
  obtain ⟨_, -, rfl⟩ := Option.map_eq_some_iff.mp hhandler
  obtain ⟨_, -, rfl⟩ := Option.map_eq_some_iff.mp hhandler'
  exact hne

theorem nodup_thunks : (g.compile.artifact.thunks.map Thunk.name).Nodup := by
  rw [(Artifact.perm_thunks.map _).nodup_iff, List.map_map, List.Nodup, List.pairwise_map]
  refine (pairwise_handlerName_reductions hg hapart).imp fun hne heq => hne ?_
  exact (String.append_left_inj _).mp heq

/-- The thunk that a Reduce entry names is the one of the reduced production and no other. -/
theorem exists_thunk_of_entry {q : StateId} {e : TableEntry}
    (he : e ∈ g.compile.artifact.rowOf q) {left name : String} {arity : Nat}
    (haction : e.action = .reduce left arity name) :
    ∃ x p, g.compile.table.action? q x = some (.reduce p) ∧
      e = Artifact.entry g (g.plans g.automaton) (x, .reduce p) ∧
      ∀ thunk, thunk ∈ g.compile.artifact.thunks ∧ thunk.name = name ↔
        thunk = g.thunk p (g.handlerName p) := by
  obtain ⟨x, action, hentry, rfl⟩ := Artifact.mem_rowOf_iff.mp he
  cases action with
  | shift => cases haction
  | accept => cases haction
  | reduce p =>
    refine ⟨x, p, hentry, rfl, ?_⟩
    have hp := mem_reductions_of_reduce hentry
    have hname := Grammar.nameIn_handlerNames (Automaton.mem_declaredIds_of_mem_reductions hg hp)
    have hthunk : g.thunk p (g.handlerName p) ∈ g.compile.artifact.thunks :=
      Artifact.perm_thunks.mem_iff.mpr (List.mem_map.mpr ⟨p, hp, by rw [hname]⟩)
    obtain ⟨-, -, rfl⟩ := EntryAction.reduce.inj haction
    have hsame : (g.thunk p (g.handlerName p)).name = (g.plans g.automaton).thunkName p :=
      congrArg thunkName hname.symm
    intro thunk
    constructor
    · rintro ⟨hmem, heq⟩
      exact List.inj_on_of_nodup_map (nodup_thunks hg hapart) hmem hthunk (heq.trans hsame.symm)
    · rintro rfl
      exact ⟨hthunk, hsame⟩

end Identify

/-- Names identify productions unless a numbered name is the plain name of another production. -/
theorem namesIdentify_iff {declarations : List Declaration}
    (hg : Grammar.ofDeclarations declarations = .ok g) : NamesIdentify g ↔ g.NamesApart := by
  have hwf := Grammar.wellFormed_of_ofDeclarations hg
  constructor
  · intro hidentify
    exact Grammar.nodup_handlerNames_iff.mp hidentify.nodup_names
  · intro hapart
    exact {
      nodup_names := Grammar.nodup_handlerNames_iff.mpr hapart
      nodup_handlers := nodup_handlers hwf hapart
      nodup_thunks := nodup_thunks hwf hapart
      thunk_iff q e he left arity name haction := exists_thunk_of_entry hwf hapart he haction }

/-- A grammar in which two productions share a plain name. -/
def joinedDeclarations : List Declaration :=
  [.rule "S" ["a_b"] "", .rule "S" ["a", "b"] "", .rule "S" ["c"] "", .resultType "S" "int",
    .start "S"]

def joined : Grammar :=
  (Grammar.ofDeclarations joinedDeclarations).toOption.getD default

theorem joined_namesIdentify :
    Grammar.ofDeclarations joinedDeclarations = .ok joined ∧ NamesIdentify joined := by
  have hg : Grammar.ofDeclarations joinedDeclarations = .ok joined :=
    eq_ok_getD_of_isOk (by decide +kernel)
  exact ⟨hg, (namesIdentify_iff hg).mpr (by decide +kernel)⟩

/-- A grammar in which a third production has a numbered name as its plain name. -/
def clashingDeclarations : List Declaration :=
  [.rule "S" ["a_b"] "", .rule "S" ["a", "b"] "", .rule "S" ["a_b_0"] "", .resultType "S" "int",
    .start "S"]

def clashing : Grammar :=
  (Grammar.ofDeclarations clashingDeclarations).toOption.getD default

/-- The first and the third production have one handler name, two Reduce entries name one thunk, and
two thunks have that name. -/
theorem clashing_not_identified :
    Grammar.ofDeclarations clashingDeclarations = .ok clashing ∧
      nameIn clashing.handlerNames ⟨1⟩ = "reduce_S_from_a_b_0" ∧
      nameIn clashing.handlerNames ⟨3⟩ = "reduce_S_from_a_b_0" ∧
      clashing.compile.artifact.rowOf 1 =
        [⟨"SCAN_EOF", true, .reduce "S" 1 "reduce_S_from_a_b_0__thunk"⟩] ∧
      clashing.compile.artifact.rowOf 2 =
        [⟨"SCAN_EOF", true, .reduce "S" 1 "reduce_S_from_a_b_0__thunk"⟩] ∧
      clashing.compile.artifact.thunks.map Thunk.name =
        ["reduce_S_from_a_b_0__thunk", "reduce_S_from_a_b_0__thunk",
          "reduce_S_from_a_b_1__thunk"] :=
  ⟨eq_ok_getD_of_isOk (by decide +kernel), by decide +kernel, by decide +kernel, by decide +kernel,
    by decide +kernel, by decide +kernel⟩

end ShiftReduce
