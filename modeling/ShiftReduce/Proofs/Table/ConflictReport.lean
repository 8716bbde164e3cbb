import ShiftReduce.Proofs.Grammar.Unranked
import ShiftReduce.Proofs.Table.Conflicts

/-!
# The report of conflicts

The completions of a state are installed in the order of their items, the goal's last. On a terminal
the first of those that are ready stays, and each of the others is reported against it, once. The
report is ordered by state, then by the place of the other production, then by terminal. Priorities
have no part in it.
-/

namespace ShiftReduce

variable {g : Grammar}

/-- The order of completions in a state: that of their items, with the goal's behind all others. -/
def CompletesBefore (g : Grammar) (p r : ProductionId) : Prop :=
  p ≠ .goal ∧ (r = .goal ∨ (g.completed p).compare g (g.completed r) = .lt)

namespace CompletesBefore

variable {p r : ProductionId}

theorem asymm (hbefore : CompletesBefore g p r) : ¬ CompletesBefore g r p := by
  rintro ⟨hr, hp⟩
  have hlt := hbefore.2.resolve_left hr
  exact Std.OrientedCmp.not_lt_of_lt hlt (hp.resolve_left hbefore.1)

theorem ne (hbefore : CompletesBefore g p r) : p ≠ r :=
  fun heq => (heq ▸ hbefore).asymm (heq ▸ hbefore)

end CompletesBefore

namespace IsReachedSet

variable {items : List Item} (hitems : IsReachedSet g items)

include hitems

theorem pairwise_completions :
    (Filling.completions g items).Pairwise (CompletesBefore g) := by
  have hcomplete : ((items.filter (·.isComplete g)).map Item.production).Pairwise fun p r =>
      (g.completed p).compare g (g.completed r) = .lt := by
    refine List.pairwise_map.mpr ((hitems.ascending.filter _).imp_of_mem fun ha hb hlt => ?_)
    obtain ⟨ha, hadone⟩ := List.mem_filter.mp ha
    obtain ⟨hb, hbdone⟩ := List.mem_filter.mp hb
    rwa [hitems.eq_completed ha hadone, hitems.eq_completed hb hbdone] at hlt
  have hgoals := (List.nodup_append.mp hitems.nodup_completions).2.1
  refine List.pairwise_append.mpr ⟨?_, ?_, ?_⟩
  · refine (hcomplete.filter _).imp_of_mem fun hp _ hlt => ?_
    exact ⟨of_decide_eq_true (List.mem_filter.mp hp).2, .inr hlt⟩
  · -- the goal is there once at most
    refine (List.nodup_iff_pairwise_ne.mp hgoals).imp_of_mem fun hp hr hne => ?_
    have hpgoal := of_decide_eq_true (List.mem_filter.mp hp).2
    exact absurd (hpgoal.trans (of_decide_eq_true (List.mem_filter.mp hr).2).symm) hne
  · intro p hp r hr
    exact ⟨of_decide_eq_true (List.mem_filter.mp hp).2,
      .inl (of_decide_eq_true (List.mem_filter.mp hr).2)⟩

end IsReachedSet

namespace Filling

variable {id : StateId} {follows : TerminalFamily} {ps : List ProductionId} {t : TerminalId}

/-- Of productions in order the reduction is the one before all others that have the terminal. -/
theorem reduction?_eq_some_iff (hps : ps.Pairwise (CompletesBefore g)) {p : ProductionId} :
    reduction? g follows ps t = some p ↔
      (p ∈ ps ∧ t ∈ follows.get (g.production p).left) ∧
        ∀ r ∈ ps, t ∈ follows.get (g.production r).left → r ≠ p → CompletesBefore g p r := by
  have hfirst {q : ProductionId} (hq : reduction? g follows ps t = some q) :
      ∀ r ∈ ps, t ∈ follows.get (g.production r).left → r ≠ q → CompletesBefore g q r := by
    obtain ⟨-, before, after, rfl, hnone⟩ := List.find?_eq_some_iff_append.mp hq
    intro r hr hfollow hne
    rcases List.mem_append.mp hr with hr | hr
    · exact absurd (hnone r hr) (by simp [hfollow])
    · have hafter := (List.pairwise_append.mp hps).2.1
      exact (List.pairwise_cons.mp hafter).1 r ((List.mem_cons.mp hr).resolve_left hne)
  constructor
  · exact fun hp => ⟨mem_of_reduction? hp, hfirst hp⟩
  · rintro ⟨⟨hp, hfollow⟩, hbefore⟩
    obtain ⟨q, hq⟩ := exists_reduction? hp hfollow
    obtain ⟨hmem, hqfollow⟩ := mem_of_reduction? hq
    by_contra hne
    have hpq : p ≠ q := fun heq => hne (heq ▸ hq)
    exact (hbefore q hmem hqfollow hpq.symm).asymm (hfirst hq p hp hfollow hpq)

/-- What is installed before a production is the first of all, unless this is the production. -/
theorem reduction?_before_iff (hps : ps.Nodup) {before : List ProductionId}
    {p current : ProductionId} (hfront : before ++ [p] <+: ps)
    (hp : t ∈ follows.get (g.production p).left) :
    reduction? g follows before t = some current ↔
      reduction? g follows ps t = some current ∧ current ≠ p := by
  obtain ⟨after, rfl⟩ := hfront
  have hnot : p ∉ before := by
    intro hmem
    rw [List.append_assoc] at hps
    exact (List.nodup_append.mp hps).2.2 p hmem p List.mem_cons_self rfl
  have hwhole : reduction? g follows (before ++ [p] ++ after) t =
      (reduction? g follows before t).or (some p) := by
    simp [reduction?, List.find?_append, hp]
  rw [hwhole]
  cases hbefore : reduction? g follows before t with
  | none => simp [eq_comm]
  | some first =>
    have hne : first ≠ p := fun heq => hnot (heq ▸ (mem_of_reduction? hbefore).1)
    rw [Option.some_or, Option.some_inj]
    exact ⟨fun heq => ⟨heq, heq ▸ hne⟩, And.left⟩

end Filling

/-- A production has a completed item in a state and the terminal in FOLLOW of its left-hand
side. -/
def CompletesOn (g : Grammar) (q : StateId) (t : TerminalId) (p : ProductionId) : Prop :=
  ∃ item, Ready g q t item ∧ item.production = p

theorem completesOn_iff {q : StateId} {t : TerminalId} {p : ProductionId} : CompletesOn g q t p ↔
    p ∈ Filling.completions g (g.automaton.state q).items ∧
      t ∈ g.analysis.follows.get (g.production p).left := by
  rw [mem_completions]
  constructor
  · rintro ⟨item, hready, rfl⟩
    exact ⟨⟨item, hready.mem_items, hready.complete, rfl⟩, hready.mem_follow⟩
  · rintro ⟨⟨item, hitem, hcomplete, rfl⟩, hfollow⟩
    exact ⟨item, ⟨hitem, hcomplete, hfollow⟩, rfl⟩

/-- Two productions compete for a terminal in a state, and the current one is the first of all that
do. -/
structure CompetesWithFirst (g : Grammar) (c : Conflict) (t : TerminalId) : Prop where
  symbol_eq : c.symbol = .terminal t
  other_ne_current : c.other ≠ c.current
  other_completes : CompletesOn g c.state t c.other
  current_completes : CompletesOn g c.state t c.current
  current_first : ∀ p, CompletesOn g c.state t p → p ≠ c.current → CompletesBefore g c.current p

theorem mem_conflicts_iff_competesWithFirst (hg : g.WellFormed) {c : Conflict} :
    c ∈ g.conflicts ↔ ∃ t, CompetesWithFirst g c t := by
  rw [mem_conflicts_iff]
  obtain ⟨q, x, first, other⟩ := c
  constructor
  · rintro ⟨hq, before, p, hfront, hc⟩
    have hset := Automaton.isReachedSet_items hg hq
    obtain ⟨t, hfollow, current, hcurrent, heq⟩ := Filling.mem_clashes.mp hc
    cases heq
    have hother := hfront.subset (List.mem_append_right before List.mem_cons_self)
    obtain ⟨hcurrent, hne⟩ :=
      (Filling.reduction?_before_iff hset.nodup_completions hfront hfollow).mp hcurrent
    obtain ⟨hmem, hfirst⟩ := (Filling.reduction?_eq_some_iff hset.pairwise_completions).mp hcurrent
    refine ⟨t, rfl, hne.symm, completesOn_iff.mpr ⟨hother, hfollow⟩, completesOn_iff.mpr hmem, ?_⟩
    intro r hr
    obtain ⟨hr, hrfollow⟩ := completesOn_iff.mp hr
    exact hfirst r hr hrfollow
  · rintro ⟨t, hc⟩
    obtain rfl : x = .terminal t := hc.symbol_eq
    obtain ⟨item, hready, -⟩ := hc.other_completes
    have hset := Automaton.isReachedSet_items hg hready.lt_size
    obtain ⟨hother, hfollow⟩ := completesOn_iff.mp hc.other_completes
    obtain ⟨before, after, hsplit⟩ := List.append_of_mem hother
    have hfront : before ++ [other] <+: Filling.completions g (g.automaton.state q).items :=
      ⟨after, by rw [hsplit, List.append_assoc, List.singleton_append]⟩
    have hfirst := (Filling.reduction?_eq_some_iff hset.pairwise_completions).mpr
      ⟨completesOn_iff.mp hc.current_completes, fun r hr hrfollow =>
        hc.current_first r (completesOn_iff.mpr ⟨hr, hrfollow⟩)⟩
    have hcurrent := (Filling.reduction?_before_iff hset.nodup_completions hfront hfollow).mpr
      ⟨hfirst, hc.other_ne_current.symm⟩
    exact ⟨hready.lt_size, before, other, hfront,
      Filling.mem_clashes.mpr ⟨t, hfollow, first, hcurrent, rfl⟩⟩

/-- The order of the report. -/
def Conflict.Precedes (g : Grammar) (c d : Conflict) : Prop :=
  c.state < d.state ∨ c.state = d.state ∧
    (CompletesBefore g c.other d.other ∨ c.other = d.other ∧
      ∃ t u, c.symbol = .terminal t ∧ d.symbol = .terminal u ∧ t.index < u.index)

theorem Conflict.Precedes.ne {c d : Conflict} (hprecedes : Precedes g c d) : c ≠ d := by
  rintro rfl
  rcases hprecedes with hstate | ⟨-, hother | ⟨-, t, u, ht, hu, hlt⟩⟩
  · exact Nat.lt_irrefl _ hstate
  · exact hother.ne rfl
  · obtain rfl := Symbol.terminal.inj (ht.symm.trans hu)
    exact Nat.lt_irrefl _ hlt

namespace Filling

variable {id : StateId} {follows : TerminalFamily}

theorem pairwise_clashes (before : List ProductionId) (p : ProductionId) :
    (clashes g id follows before p).Pairwise (Conflict.Precedes g) := by
  refine List.Pairwise.filterMap _ ?_ (TerminalSet.pairwise_toList _)
  intro t u hlt c hc d hd
  obtain ⟨current, -, rfl⟩ := Option.map_eq_some_iff.mp hc
  obtain ⟨current', -, rfl⟩ := Option.map_eq_some_iff.mp hd
  exact .inr ⟨rfl, .inr ⟨rfl, t, u, rfl, rfl, hlt⟩⟩

theorem pairwise_conflicts_foldl_reduceBy {ps : List ProductionId}
    (hps : ps.Pairwise (CompletesBefore g)) :
    (ps.foldl (reduceBy g id follows) {}).conflicts.toList.Pairwise (Conflict.Precedes g) := by
  induction ps using List.reverseRecOn with
  | nil => exact List.Pairwise.nil
  | append_singleton ps p ih =>
    obtain ⟨hps, -, hbefore⟩ := List.pairwise_append.mp hps
    rw [toList_conflicts_foldl_reduceBy_concat]
    refine List.pairwise_append.mpr ⟨ih hps, pairwise_clashes ps p, fun c hc d hd => ?_⟩
    -- the earlier conflicts are those of earlier productions
    obtain ⟨before, r, hfront, hc⟩ := mem_conflicts_foldl_reduceBy.mp (Array.mem_toList_iff.mp hc)
    have hr := hfront.subset (List.mem_append_right before List.mem_cons_self)
    obtain ⟨t, -, current, -, rfl⟩ := mem_clashes.mp hc
    obtain ⟨u, -, current', -, rfl⟩ := mem_clashes.mp hd
    exact .inr ⟨rfl, .inl (hbefore r hr p List.mem_cons_self)⟩

end Filling

theorem pairwise_conflicts (hg : g.WellFormed) : g.conflicts.Pairwise (Conflict.Precedes g) := by
  rw [g.conflicts_eq_flatMap, List.pairwise_flatMap]
  constructor
  · intro q hq
    exact Filling.pairwise_conflicts_foldl_reduceBy
      (Automaton.isReachedSet_items hg (List.mem_range.mp hq)).pairwise_completions
  · refine List.pairwise_lt_range.imp fun hlt c hc d hd => .inl ?_
    obtain ⟨_, _, -, hc⟩ := Filling.mem_conflicts_foldl_reduceBy.mp (Array.mem_toList_iff.mp hc)
    obtain ⟨_, _, -, hd⟩ := Filling.mem_conflicts_foldl_reduceBy.mp (Array.mem_toList_iff.mp hd)
    rwa [Filling.state_of_mem_clashes hc, Filling.state_of_mem_clashes hd]

theorem Grammar.conflicts_unranked (g : Grammar) : g.unranked.conflicts = g.conflicts := by
  have hcompletions : Filling.completions g.unranked = Filling.completions g := rfl
  have hreduceBy : Filling.reduceBy g.unranked = Filling.reduceBy g := rfl
  rw [conflicts_eq_flatMap, conflicts_eq_flatMap, g.automaton_unranked, g.analysis_unranked,
    hcompletions, hreduceBy]

/-- The report is complete, exact, ordered and free of repetition. The same declarations with any
other priorities among them make a grammar with the same report. -/
structure ReportsConflicts (declarations : List Declaration) (g : Grammar) : Prop where
  mem_iff : ∀ c, c ∈ g.conflicts ↔ ∃ t, CompetesWithFirst g c t
  nodup : g.conflicts.Nodup
  ordered : g.conflicts.Pairwise (Conflict.Precedes g)
  conflicts_eq : ∀ others : List Declaration,
    others.filter (!·.isPriority) = declarations.filter (!·.isPriority) →
      ∃ h, Grammar.ofDeclarations others = .ok h ∧ h.unranked = g.unranked ∧
        h.conflicts = g.conflicts

theorem reportsConflicts {declarations : List Declaration}
    (hg : Grammar.ofDeclarations declarations = .ok g) : ReportsConflicts declarations g := by
  have hwf := Grammar.wellFormed_of_ofDeclarations hg
  have hordered := pairwise_conflicts hwf
  refine ⟨fun c => mem_conflicts_iff_competesWithFirst hwf,
    List.nodup_iff_pairwise_ne.mpr (hordered.imp Conflict.Precedes.ne), hordered, ?_⟩
  intro others hsame
  have hunranked := Grammar.ofDeclarations_filter_not_isPriority others
  rw [hsame, Grammar.ofDeclarations_filter_not_isPriority, hg] at hunranked
  cases hothers : Grammar.ofDeclarations others with
  | error e =>
    rw [hothers] at hunranked
    cases hunranked
  | ok h =>
    rw [hothers] at hunranked
    have heq : g.unranked = h.unranked := Except.ok.inj hunranked
    exact ⟨h, rfl, heq.symm, by rw [← h.conflicts_unranked, ← heq, g.conflicts_unranked]⟩

/-- Three empty productions compete for `x`, and a shift takes it in the end. -/
def competingDeclarations : List Declaration :=
  [.rule "S" ["A", "x"] "", .rule "S" ["B", "x"] "", .rule "S" ["C", "x"] "",
    .rule "S" ["x", "y"] "", .rule "A" [] "", .rule "B" [] "", .rule "C" [] "", .priority "y",
    .priority "x", .resultType "S" "int", .start "S"]

def competing : Grammar :=
  (Grammar.ofDeclarations competingDeclarations).toOption.getD default

theorem competing_reportsConflicts :
    Grammar.ofDeclarations competingDeclarations = .ok competing ∧
      ReportsConflicts competingDeclarations competing ∧
      competing.conflicts = [⟨0, .terminal ⟨1⟩, ⟨5⟩, ⟨6⟩⟩, ⟨0, .terminal ⟨1⟩, ⟨5⟩, ⟨7⟩⟩] ∧
      competing.compile.table.action? 0 (.terminal ⟨1⟩) = some (.shift 1) := by
  have hg : Grammar.ofDeclarations competingDeclarations = .ok competing :=
    eq_ok_getD_of_isOk (by decide +kernel)
  exact ⟨hg, reportsConflicts hg, by decide +kernel, by decide +kernel⟩

end ShiftReduce
