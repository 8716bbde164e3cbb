import ShiftReduce.Proofs.Automaton.Search
import ShiftReduce.Proofs.Grammar.Build

/-!
# The automaton is the determinized item automaton

Following transitions from state 0 computes the set of items that the item automaton reaches. The
numbers of the states are the places of their item sets in the result of the search, so different
states have different sets.
-/

namespace ShiftReduce

variable {g : Grammar}

/-- The state to which the transitions over some symbols lead from state 0. -/
def Automaton.run? (a : Automaton) (symbols : List Symbol) : Option StateId :=
  symbols.foldlM (fun q x => (a.state q).target? x) 0

theorem Automaton.run?_concat (a : Automaton) (symbols : List Symbol) (x : Symbol) :
    a.run? (symbols ++ [x]) = (a.run? symbols).bind fun q => (a.state q).target? x := by
  rw [run?, List.foldlM_append]
  simp [run?]

theorem Automaton.state_eq_getElem {a : Automaton} {q : StateId} (hq : q < a.states.size) :
    a.state q = a.states[q] := by
  rw [state, Array.getD_eq_getD_getElem?, Array.getElem?_eq_getElem hq, Option.getD_some]

/-- The sets that a search has found are the initial one, reached sets, and all their successors. -/
structure Search.Complete (g : Grammar) (known : Roster (List Item)) : Prop where
  reached : ∀ items ∈ known.toList, IsReachedSet g items
  goto_mem : ∀ items ∈ known.toList, ∀ x ∈ nextSymbols g items, goto g items x ∈ known.toList
  head_eq : known.toList.head? = some (initialItems g)

theorem Search.complete_run (hg : g.WellFormed) : Search.Complete g (Search.run g).keys := by
  obtain ⟨s, hs, hpending, hrun⟩ := Search.exists_last hg
  rw [hrun]
  refine ⟨hs.reached_of_found, fun items hitems x hx => ?_, ?_⟩
  · rcases hs.goto_met items hitems x hx with hfound | hmet
    · exact hfound
    · rw [hpending] at hmet
      exact absurd hmet List.not_mem_nil
  · rcases hs.initial_met with hhead | ⟨-, hsingle⟩
    · exact hhead
    · rw [hpending] at hsingle
      cases hsingle

/-- Each found set becomes a state, at the same place. -/
theorem Grammar.toList_states (hg : g.WellFormed) : g.automaton.states.toList =
    (Search.run g).keys.toList.map fun items =>
      State.ofItems (Search.run g).keys items (successors g items) := by
  have hnext : ∀ entry ∈ (Search.run g).toList, entry.2 = successors g entry.1 := by
    obtain ⟨s, hs, -, hrun⟩ := Search.exists_last hg
    rw [hrun]
    exact hs.eq_successors
  rw [← OrderedMap.map_fst_toList, List.map_map]
  apply List.map_congr_left
  rintro ⟨items, next⟩ hentry
  obtain rfl : next = successors g items := hnext _ hentry
  rfl

theorem Grammar.state_of_getElem? (hg : g.WellFormed) {q : StateId} {items : List Item}
    (hitems : (Search.run g).keys.toList[q]? = some items) : g.automaton.state q =
      State.ofItems (Search.run g).keys items (successors g items) := by
  rw [Automaton.state, Array.getD_eq_getD_getElem?, ← Array.getElem?_toList,
    Grammar.toList_states hg, List.getElem?_map, hitems]
  rfl

/-- Numbers of states are places in the result of the search. -/
theorem Grammar.getElem?_items_iff (hg : g.WellFormed) {q : StateId} {items : List Item} :
    (Search.run g).keys.toList[q]? = some items ↔
      q < g.automaton.states.size ∧ (g.automaton.state q).items = items := by
  have hsize : g.automaton.states.size = (Search.run g).keys.toList.length := by
    rw [← Array.length_toList, Grammar.toList_states hg, List.length_map]
  constructor
  · intro hitems
    rw [Grammar.state_of_getElem? hg hitems, hsize]
    exact ⟨(List.getElem?_eq_some_iff.mp hitems).1, rfl⟩
  · rintro ⟨hlt, rfl⟩
    rw [hsize] at hlt
    rw [Grammar.state_of_getElem? hg (List.getElem?_eq_getElem hlt), List.getElem?_eq_getElem hlt]
    rfl

namespace Automaton

variable (hg : g.WellFormed) {q r : StateId}

include hg

theorem getElem?_items (hq : q < g.automaton.states.size) :
    (Search.run g).keys.toList[q]? = some (g.automaton.state q).items :=
  (Grammar.getElem?_items_iff hg).mpr ⟨hq, rfl⟩

theorem isReachedSet_items (hq : q < g.automaton.states.size) :
    IsReachedSet g (g.automaton.state q).items :=
  (Search.complete_run hg).reached _ (List.mem_of_getElem? (getElem?_items hg hq))

/-- The items of states are items of the grammar's productions. -/
theorem hasItems_items (hq : q < g.automaton.states.size) :
    g.HasItems (g.automaton.state q).items :=
  (isReachedSet_items hg hq).hasItems hg

theorem initial_state :
    0 < g.automaton.states.size ∧ (g.automaton.state 0).items = initialItems g := by
  rw [← Grammar.getElem?_items_iff hg, ← List.head?_eq_getElem?]
  exact (Search.complete_run hg).head_eq

/-- Different states have different items. -/
theorem eq_of_mem_items_iff (hq : q < g.automaton.states.size) (hr : r < g.automaton.states.size)
    (hmem : ∀ item, item ∈ (g.automaton.state q).items ↔ item ∈ (g.automaton.state r).items) :
    q = r := by
  have hitems : (g.automaton.state q).items = (g.automaton.state r).items :=
    (isReachedSet_items hg hq).ascending.eq_of_mem_iff (isReachedSet_items hg hr).ascending hmem
  have hlt := (List.getElem?_eq_some_iff.mp (getElem?_items hg hq)).1
  refine (List.getElem?_inj hlt (Search.run g).keys.nodup).mp ?_
  rw [getElem?_items hg hq, getElem?_items hg hr, hitems]

theorem nodup_nextSymbols {items : List Item} (hitems : g.HasItems items) :
    (nextSymbols g items).Nodup :=
  nodup_of_pairwise_lt (compareOn g.symbolName) (pairwise_nextSymbols hg hitems)

/-- A state's transitions are its successors, which are looked up among all item sets. -/
theorem toList_transitions (hq : q < g.automaton.states.size) :
    (g.automaton.state q).transitions.toList = (nextSymbols g (g.automaton.state q).items).map
      fun x => (x, ((Search.run g).keys.idx? (goto g (g.automaton.state q).items x)).getD 0) := by
  have hstate := Grammar.state_of_getElem? hg (getElem?_items hg hq)
  -- without repeated symbols, storing the successors under them loses none
  have hnodup := nodup_nextSymbols hg ((isReachedSet_items hg hq).hasItems hg)
  generalize (g.automaton.state q).items = items at hstate hnodup ⊢
  rw [hstate, State.ofItems, successors_eq, List.map_map]
  apply OrderedMap.toList_ofList_of_nodup
  simpa [Function.comp_def] using hnodup

/-- The state that holds a successor, by its number. -/
theorem idx?_goto (hq : q < g.automaton.states.size) {x : Symbol}
    (hx : x ∈ nextSymbols g (g.automaton.state q).items) :
    ∃ i, (Search.run g).keys.idx? (goto g (g.automaton.state q).items x) = some i ∧
      i < g.automaton.states.size ∧
        (g.automaton.state i).items = goto g (g.automaton.state q).items x := by
  have hknown := List.mem_of_getElem? (getElem?_items hg hq)
  obtain ⟨i, hi⟩ := List.mem_iff_getElem?.mp ((Search.complete_run hg).goto_mem _ hknown x hx)
  exact ⟨i, Roster.idx?_eq_some_iff.mpr hi, (Grammar.getElem?_items_iff hg).mp hi⟩

theorem mem_transitions_iff (hq : q < g.automaton.states.size) {x : Symbol} :
    (x, r) ∈ (g.automaton.state q).transitions.toList ↔
      x ∈ nextSymbols g (g.automaton.state q).items ∧ r < g.automaton.states.size ∧
        (g.automaton.state r).items = goto g (g.automaton.state q).items x := by
  rw [toList_transitions hg hq, List.mem_map]
  constructor
  · rintro ⟨y, hy, heq⟩
    obtain ⟨rfl, rfl⟩ := Prod.mk.inj heq
    obtain ⟨i, hi, hitems⟩ := idx?_goto hg hq hy
    rw [hi]
    exact ⟨hy, hitems⟩
  · rintro ⟨hx, hr, hitems⟩
    obtain ⟨i, hi, hlt, hgoto⟩ := idx?_goto hg hq hx
    have heq : i = r := by
      apply eq_of_mem_items_iff hg hlt hr
      intro item
      rw [hitems, hgoto]
    exact ⟨x, hx, by rw [hi, heq]; rfl⟩

/-- Transitions follow `goto` from state to state. -/
theorem target?_eq_some_iff (hq : q < g.automaton.states.size) {x : Symbol} :
    (g.automaton.state q).target? x = some r ↔ x ∈ nextSymbols g (g.automaton.state q).items ∧
      r < g.automaton.states.size ∧
        (g.automaton.state r).items = goto g (g.automaton.state q).items x := by
  rw [State.target?, OrderedMap.get?_eq_some_iff, mem_transitions_iff hg hq]

theorem exists_target_iff (hq : q < g.automaton.states.size) {x : Symbol} :
    (∃ r, (g.automaton.state q).target? x = some r) ↔
      ∃ item ∈ (g.automaton.state q).items, item.next? g = some x := by
  rw [← mem_nextSymbols]
  constructor
  · rintro ⟨r, hr⟩
    exact ((target?_eq_some_iff hg hq).mp hr).1
  · intro hx
    obtain ⟨i, -, hi⟩ := idx?_goto hg hq hx
    exact ⟨i, (target?_eq_some_iff hg hq).mpr ⟨hx, hi⟩⟩

/-- A run over some symbols ends in a state with just the items that they lead to. -/
theorem holdsReached_of_run? {symbols : List Symbol} (hrun : g.automaton.run? symbols = some q) :
    q < g.automaton.states.size ∧ HoldsReached g symbols (g.automaton.state q).items := by
  induction symbols using List.reverseRecOn generalizing q with
  | nil =>
    obtain rfl : 0 = q := Option.some.inj hrun
    obtain ⟨hpos, hitems⟩ := initial_state hg
    exact ⟨hpos, hitems ▸ HoldsReached.initial hg⟩
  | append_singleton symbols x ih =>
    rw [run?_concat, Option.bind_eq_some_iff] at hrun
    obtain ⟨p, hp, htarget⟩ := hrun
    obtain ⟨hlt, hholds⟩ := ih hp
    obtain ⟨-, hq, hitems⟩ := (target?_eq_some_iff hg hlt).mp htarget
    exact ⟨hq, hitems ▸ hholds.goto hg x⟩

/-- Where the item automaton reaches something there is a state for it. -/
theorem exists_run?_of_reaches {symbols : List Symbol} {item : Item}
    (hitem : Reaches g symbols item) : ∃ q, g.automaton.run? symbols = some q := by
  induction symbols using List.reverseRecOn generalizing item with
  | nil => exact ⟨0, rfl⟩
  | append_singleton symbols x ih =>
    obtain ⟨passed, hpassed, hnext, -⟩ := Reaches.concat_iff.mp hitem
    obtain ⟨q, hq⟩ := ih hpassed
    obtain ⟨hlt, hholds⟩ := holdsReached_of_run? hg hq
    rw [run?_concat, hq, Option.bind_some]
    exact (exists_target_iff hg hlt).mpr ⟨passed, (hholds passed).mpr hpassed, hnext⟩

/-- And no state is empty. -/
theorem exists_reaches_of_run? {symbols : List Symbol} (hrun : g.automaton.run? symbols = some q) :
    ∃ item, Reaches g symbols item := by
  obtain ⟨hlt, hholds⟩ := holdsReached_of_run? hg hrun
  obtain ⟨item, hitem⟩ := List.exists_mem_of_ne_nil _ (isReachedSet_items hg hlt).ne_nil
  exact ⟨item, (hholds item).mp hitem⟩

/-- Every state is the end of some run. -/
theorem exists_run? (hq : q < g.automaton.states.size) :
    ∃ symbols, g.automaton.run? symbols = some q := by
  obtain ⟨symbols, hholds⟩ := (isReachedSet_items hg hq).holds
  obtain ⟨item, hitem⟩ := List.exists_mem_of_ne_nil _ (isReachedSet_items hg hq).ne_nil
  obtain ⟨r, hr⟩ := exists_run?_of_reaches hg ((hholds item).mp hitem)
  obtain ⟨hlt, hsame⟩ := holdsReached_of_run? hg hr
  refine ⟨symbols, ?_⟩
  rw [hr, eq_of_mem_items_iff hg hlt hq fun item => (hsame item).trans (hholds item).symm]

end Automaton

/-- An automaton that does on sets of items what the item automaton does on items. -/
structure Determinizes (g : Grammar) (a : Automaton) : Prop where
  isSome_run?_iff : ∀ symbols, (a.run? symbols).isSome ↔ ∃ item, Reaches g symbols item
  mem_items_iff : ∀ symbols q, a.run? symbols = some q →
    ∀ item, item ∈ (a.state q).items ↔ Reaches g symbols item
  exists_run? : ∀ q < a.states.size, ∃ symbols, a.run? symbols = some q
  eq_of_mem_items_iff : ∀ q < a.states.size, ∀ r < a.states.size,
    (∀ item, item ∈ (a.state q).items ↔ item ∈ (a.state r).items) → q = r
  /-- State 0 is the closure of the goal's start item. -/
  initial_state : 0 < a.states.size ∧ (a.state 0).items = closure g [.start .goal]
  /-- A transition leads to the set that `goto` yields, which is not empty. -/
  mem_transitions_iff : ∀ q < a.states.size, ∀ x r, (x, r) ∈ (a.state q).transitions.toList ↔
    goto g (a.state q).items x ≠ [] ∧ r < a.states.size ∧
      (a.state r).items = goto g (a.state q).items x
  /-- No set that `goto` yields is without a transition to it. -/
  exists_transition : ∀ q < a.states.size, ∀ x, goto g (a.state q).items x ≠ [] →
    ∃ r, (x, r) ∈ (a.state q).transitions.toList
  transitions_ascend : ∀ q < a.states.size,
    (a.state q).transitions.toList.Pairwise fun e f => g.symbolName e.1 < g.symbolName f.1

theorem Grammar.WellFormed.determinizes (hg : g.WellFormed) : Determinizes g g.automaton where
  isSome_run?_iff symbols := by
    rw [Option.isSome_iff_exists]
    constructor
    · rintro ⟨q, hq⟩
      exact Automaton.exists_reaches_of_run? hg hq
    · rintro ⟨item, hitem⟩
      exact Automaton.exists_run?_of_reaches hg hitem
  mem_items_iff _ _ hrun := (Automaton.holdsReached_of_run? hg hrun).2
  exists_run? _ hq := Automaton.exists_run? hg hq
  eq_of_mem_items_iff _ hq _ hr := Automaton.eq_of_mem_items_iff hg hq hr
  initial_state := Automaton.initial_state hg
  mem_transitions_iff q hq x r := by
    have hitems := (Automaton.isReachedSet_items hg hq).hasItems hg
    rw [Automaton.mem_transitions_iff hg hq, Ne, goto_eq_nil_iff hg hitems, not_not]
  exists_transition q hq x hx := by
    have hitems := (Automaton.isReachedSet_items hg hq).hasItems hg
    rw [Ne, goto_eq_nil_iff hg hitems, not_not] at hx
    obtain ⟨r, -, hr⟩ := Automaton.idx?_goto hg hq hx
    exact ⟨r, (Automaton.mem_transitions_iff hg hq).mpr ⟨hx, hr⟩⟩
  transitions_ascend q hq := by
    have hitems := (Automaton.isReachedSet_items hg hq).hasItems hg
    rw [Automaton.toList_transitions hg hq, List.pairwise_map]
    exact (pairwise_nextSymbols hg hitems).imp fun hlt => compareOfLessAndEq_eq_lt.mp hlt

/-- The automaton of a grammar is the determinized item automaton. -/
theorem automaton_determinizes {declarations : List Declaration}
    (hg : Grammar.ofDeclarations declarations = .ok g) : Determinizes g g.automaton :=
  (Grammar.wellFormed_of_ofDeclarations hg).determinizes

theorem brackets_determinizes :
    Grammar.ofDeclarations bracketDeclarations = .ok brackets ∧
      Determinizes brackets brackets.automaton :=
  ⟨ofDeclarations_brackets, automaton_determinizes ofDeclarations_brackets⟩

end ShiftReduce
