import ShiftReduce.Proofs.Table.ConflictFree

/-!
# Tables without reported conflicts

A conflict is met when a reduction finds its slot taken by another one. That does not happen in a
state where no two productions are ready on one terminal.
-/

namespace ShiftReduce

variable {g : Grammar}

namespace Filling

variable {id : StateId} {follows : TerminalFamily}

theorem conflicts_reduceOn {p : ProductionId} {f : Filling} {t : TerminalId}
    (hfree : f.slots.get? (.terminal t) = none) : (reduceOn id p f t).conflicts = f.conflicts := by
  rw [reduceOn, hfree]

theorem conflicts_foldl_reduceOn {p : ProductionId} {ts : List TerminalId} (hts : ts.Nodup)
    {f : Filling} (hfree : ∀ t ∈ ts, f.slots.get? (.terminal t) = none) :
    (ts.foldl (reduceOn id p) f).conflicts = f.conflicts := by
  induction ts generalizing f with
  | nil => rfl
  | cons first rest ih =>
    obtain ⟨hfirst, hrest⟩ := List.nodup_cons.mp hts
    rw [List.foldl_cons, ih hrest, conflicts_reduceOn (hfree first List.mem_cons_self)]
    intro t ht
    have hne : t ≠ first := fun heq => hfirst (heq ▸ ht)
    rw [get?_reduceOn, hfree t (List.mem_cons_of_mem first ht), Option.none_or, if_neg]
    exact fun heq => hne (Symbol.terminal.inj heq)

theorem conflicts_reduceBy {p : ProductionId} {f : Filling}
    (hfree : ∀ t ∈ follows.get (g.production p).left, f.slots.get? (.terminal t) = none) :
    (reduceBy g id follows f p).conflicts = f.conflicts :=
  conflicts_foldl_reduceOn (TerminalSet.nodup_toList _) fun t ht =>
    hfree t (TerminalSet.mem_toList.mp ht)

theorem get?_reduceBy_of_not_mem {p : ProductionId} {f : Filling} {t : TerminalId}
    (ht : t ∉ follows.get (g.production p).left) :
    (reduceBy g id follows f p).slots.get? (.terminal t) = f.slots.get? (.terminal t) := by
  rw [reduceBy, get?_foldl_reduceOn, if_neg, Option.or_none]
  simpa using ht

theorem conflicts_foldl_reduceBy {ps : List ProductionId}
    (hps : ps.Pairwise fun p q => ∀ t ∈ follows.get (g.production p).left,
      t ∉ follows.get (g.production q).left) {f : Filling}
    (hfree : ∀ p ∈ ps, ∀ t ∈ follows.get (g.production p).left,
      f.slots.get? (.terminal t) = none) :
    (ps.foldl (reduceBy g id follows) f).conflicts = f.conflicts := by
  induction ps generalizing f with
  | nil => rfl
  | cons first rest ih =>
    obtain ⟨hfirst, hrest⟩ := List.pairwise_cons.mp hps
    rw [List.foldl_cons, ih hrest, conflicts_reduceBy (hfree first List.mem_cons_self)]
    intro p hp t ht
    have hnot : t ∉ follows.get (g.production first).left := fun hmem => hfirst p hp t hmem ht
    rw [get?_reduceBy_of_not_mem hnot]
    exact hfree p (List.mem_cons_of_mem first hp) t ht

theorem conflicts_shiftBy (s : State) (f : Filling) (item : Item) :
    (shiftBy g s f item).conflicts = f.conflicts := by
  unfold shiftBy
  split
  next => rfl
  next =>
    split
    next => rfl
    next => dsimp only; split <;> rfl

theorem conflicts_foldl_shiftBy (s : State) (items : List Item) (f : Filling) :
    (items.foldl (shiftBy g s) f).conflicts = f.conflicts := by
  induction items generalizing f with
  | nil => rfl
  | cons item rest ih => rw [List.foldl_cons, ih, conflicts_shiftBy]

end Filling

/-- The item of a production with the marker behind everything. -/
def Grammar.completed (g : Grammar) (p : ProductionId) : Item :=
  ⟨p, (g.production p).right.size⟩

namespace IsReachedSet

variable {items : List Item} (hitems : IsReachedSet g items)

include hitems

theorem eq_completed {item : Item} (hitem : item ∈ items) (hcomplete : item.isComplete g = true) :
    item = g.completed item.production := by
  obtain ⟨symbols, hholds⟩ := hitems.holds
  obtain ⟨-, -, hle, -⟩ := ((hholds item).mp hitem).exists_start
  have hmarker := Nat.le_antisymm hle (of_decide_eq_true hcomplete)
  cases item
  exact congrArg (Item.mk _) hmarker

/-- A production is complete in one item of a reached set at most. -/
theorem nodup_completions : (Filling.completions g items).Nodup := by
  have hnodup : ((items.filter (·.isComplete g)).map Item.production).Nodup := by
    refine (hitems.ascending.nodup.filter _).map_on fun item hitem other hother hsame => ?_
    obtain ⟨hitem, hcomplete⟩ := List.mem_filter.mp hitem
    obtain ⟨hother, hdone⟩ := List.mem_filter.mp hother
    rw [hitems.eq_completed hitem hcomplete, hsame, ← hitems.eq_completed hother hdone]
  refine List.nodup_append.mpr ⟨hnodup.filter _, hnodup.filter _, ?_⟩
  rintro p hother _ hgoal rfl
  have hne : p ≠ .goal := of_decide_eq_true (List.mem_filter.mp hother).2
  exact hne (of_decide_eq_true (List.mem_filter.mp hgoal).2)

end IsReachedSet

theorem ReadyAlone.conflicts_ofState (hg : g.WellFormed) {q : StateId}
    (hq : q < g.automaton.states.size) (halone : ReadyAlone g q) :
    (Filling.ofState g q g.analysis.follows (g.automaton.state q)).conflicts = #[] := by
  have hnodup := (Automaton.isReachedSet_items hg hq).nodup_completions
  have hdisjoint : (Filling.completions g (g.automaton.state q).items).Pairwise fun p r =>
      ∀ t ∈ g.analysis.follows.get (g.production p).left,
        t ∉ g.analysis.follows.get (g.production r).left := by
    refine (List.nodup_iff_pairwise_ne.mp hnodup).imp_of_mem fun hp hr hne t hfirst hsecond => ?_
    obtain ⟨item, hitem, hcomplete, rfl⟩ := mem_completions.mp hp
    obtain ⟨other, hother, hdone, rfl⟩ := mem_completions.mp hr
    exact hne (halone t other item ⟨hother, hdone, hsecond⟩ ⟨hitem, hcomplete, hfirst⟩)
  rw [Filling.ofState, Filling.conflicts_foldl_shiftBy, Filling.conflicts_foldl_reduceBy hdisjoint]
  exact fun _ _ _ _ => rfl

theorem conflicts_eq_nil_of_readyAlone (hg : g.WellFormed)
    (halone : ∀ q < g.automaton.states.size, ReadyAlone g q) :
    g.compile.diagnostics.conflicts = [] := by
  simp only [Grammar.compile, Grammar.diagnostics, Grammar.tabulate, List.map_eq_nil_iff,
    List.flatMap_eq_nil_iff, Array.mem_toList_iff, Array.mem_mapIdx]
  rintro _ ⟨q, hq, rfl⟩
  rw [← Automaton.state_eq_getElem hq, (halone q hq).conflicts_ofState hg hq]

theorem ConflictFree.conflicts_eq_nil (hg : g.WellFormed) (hfree : ConflictFree g) :
    g.compile.diagnostics.conflicts = [] :=
  conflicts_eq_nil_of_readyAlone hg fun _ hq => hfree.readyAlone hg hq

end ShiftReduce
