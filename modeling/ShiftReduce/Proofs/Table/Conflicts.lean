import ShiftReduce.Proofs.Table.NoConflicts

/-!
# Which conflicts are reported

When the completions of a state are installed one after the other, each of them clashes on a
terminal with the first before it that has the terminal in FOLLOW. The clashes in this order are all
conflicts that are reported; shifts report none.
-/

namespace ShiftReduce

variable {g : Grammar}

namespace Filling

variable {id : StateId} {follows : TerminalFamily}

/-- The conflict of a production with whatever holds the slot of a terminal. -/
def clash? (id : StateId) (p : ProductionId) (f : Filling) (t : TerminalId) : Option Conflict :=
  (f.slots.get? (.terminal t)).map fun slot => ⟨id, .terminal t, slot.owner, p⟩

/-- The conflicts of a production with those whose completions were installed before it. -/
def clashes (g : Grammar) (id : StateId) (follows : TerminalFamily) (before : List ProductionId)
    (p : ProductionId) : List Conflict :=
  (follows.get (g.production p).left).toList.filterMap fun t =>
    (reduction? g follows before t).map fun current => ⟨id, .terminal t, current, p⟩

theorem toList_conflicts_reduceOn (p : ProductionId) (f : Filling) (t : TerminalId) :
    (reduceOn id p f t).conflicts.toList = f.conflicts.toList ++ (clash? id p f t).toList := by
  unfold reduceOn clash?
  split
  next hfree => simp [hfree]
  next slot hslot => simp [hslot]

theorem clash?_reduceOn_of_ne {p : ProductionId} {f : Filling} {t u : TerminalId} (hne : u ≠ t) :
    clash? id p (reduceOn id p f t) u = clash? id p f u := by
  rw [clash?, get?_reduceOn, if_neg fun heq => hne (Symbol.terminal.inj heq), Option.or_none]
  rfl

theorem toList_conflicts_foldl_reduceOn {p : ProductionId} {ts : List TerminalId} (hts : ts.Nodup)
    (f : Filling) : (ts.foldl (reduceOn id p) f).conflicts.toList =
      f.conflicts.toList ++ ts.filterMap (clash? id p f) := by
  induction ts generalizing f with
  | nil => simp
  | cons first rest ih =>
    obtain ⟨hfirst, hrest⟩ := List.nodup_cons.mp hts
    -- the slots of the other terminals are as they were before
    have hsame : rest.filterMap (clash? id p (reduceOn id p f first)) =
        rest.filterMap (clash? id p f) :=
      List.filterMap_congr fun t ht => clash?_reduceOn_of_ne fun heq => hfirst (heq ▸ ht)
    rw [List.foldl_cons, ih hrest, hsame, toList_conflicts_reduceOn, List.append_assoc]
    cases hclash : clash? id p f first <;> simp [hclash]

/-- After some completions the next one reports its clashes with them. -/
theorem toList_conflicts_foldl_reduceBy_concat (before : List ProductionId) (p : ProductionId) :
    ((before ++ [p]).foldl (reduceBy g id follows) {}).conflicts.toList =
      (before.foldl (reduceBy g id follows) {}).conflicts.toList ++
        clashes g id follows before p := by
  rw [List.foldl_append, List.foldl_cons, List.foldl_nil, reduceBy,
    toList_conflicts_foldl_reduceOn (TerminalSet.nodup_toList _), clashes]
  refine congrArg _ (List.filterMap_congr fun t _ => ?_)
  have hslot : (before.foldl (reduceBy g id follows) {}).slots.get? (.terminal t) =
      reductionSlot g follows before (.terminal t) := get?_foldl_reduceBy before {} (.terminal t)
  rw [clash?, hslot, reductionSlot, Option.map_map]
  rfl

theorem mem_conflicts_foldl_reduceBy {ps : List ProductionId} {c : Conflict} :
    c ∈ (ps.foldl (reduceBy g id follows) {}).conflicts ↔
      ∃ before p, before ++ [p] <+: ps ∧ c ∈ clashes g id follows before p := by
  rw [← Array.mem_toList_iff]
  induction ps using List.reverseRecOn with
  | nil => simp
  | append_singleton ps last ih =>
    rw [toList_conflicts_foldl_reduceBy_concat, List.mem_append, ih]
    constructor
    · rintro (⟨before, p, hprefix, hc⟩ | hc)
      · exact ⟨before, p, hprefix.trans (List.prefix_append ps [last]), hc⟩
      · exact ⟨ps, last, List.prefix_rfl, hc⟩
    · rintro ⟨before, p, hprefix, hc⟩
      rcases List.prefix_concat_iff.mp hprefix with heq | hearlier
      · obtain ⟨rfl, hlast⟩ := List.append_inj' heq rfl
        obtain rfl := List.singleton_inj.mp hlast
        exact .inr hc
      · exact .inl ⟨before, p, hearlier, hc⟩

theorem mem_clashes {before : List ProductionId} {p : ProductionId} {c : Conflict} :
    c ∈ clashes g id follows before p ↔
      ∃ t ∈ follows.get (g.production p).left, ∃ current,
        reduction? g follows before t = some current ∧ c = ⟨id, .terminal t, current, p⟩ := by
  simp only [clashes, List.mem_filterMap, TerminalSet.mem_toList, Option.map_eq_some_iff,
    eq_comm (b := c)]

theorem state_of_mem_clashes {before : List ProductionId} {p : ProductionId} {c : Conflict}
    (hc : c ∈ clashes g id follows before p) : c.state = id := by
  obtain ⟨t, -, current, -, rfl⟩ := mem_clashes.mp hc
  rfl

end Filling

/-- The conflicts that are reported for the table of a grammar. -/
def Grammar.conflicts (g : Grammar) : List Conflict :=
  (g.tabulate g.automaton g.analysis).conflicts

/-- The conflicts in a state are those of its completions. -/
theorem Grammar.conflicts_eq_flatMap (g : Grammar) :
    g.conflicts = (List.range g.automaton.states.size).flatMap fun q =>
      ((Filling.completions g (g.automaton.state q).items).foldl
        (Filling.reduceBy g q g.analysis.follows) {}).conflicts.toList := by
  have hfillings : (g.automaton.states.mapIdx fun q s =>
      Filling.ofState g q g.analysis.follows s).toList = (List.range g.automaton.states.size).map
        fun q => Filling.ofState g q g.analysis.follows (g.automaton.state q) := by
    refine List.ext_getElem (by simp) fun q hq _ => ?_
    have hq : q < g.automaton.states.size := by simpa using hq
    simp [Automaton.state_eq_getElem hq]
  rw [Grammar.conflicts, Grammar.tabulate, hfillings, List.flatMap_map]
  simp only [Filling.ofState, Filling.conflicts_foldl_shiftBy]

theorem mem_conflicts_iff {c : Conflict} : c ∈ g.conflicts ↔
    c.state < g.automaton.states.size ∧ ∃ before p,
      before ++ [p] <+: Filling.completions g (g.automaton.state c.state).items ∧
        c ∈ Filling.clashes g c.state g.analysis.follows before p := by
  simp only [g.conflicts_eq_flatMap, List.mem_flatMap, List.mem_range, Array.mem_toList_iff,
    Filling.mem_conflicts_foldl_reduceBy]
  constructor
  · rintro ⟨q, hq, before, p, hprefix, hc⟩
    obtain rfl := Filling.state_of_mem_clashes hc
    exact ⟨hq, before, p, hprefix, hc⟩
  · rintro ⟨hq, hc⟩
    exact ⟨c.state, hq, hc⟩

end ShiftReduce
