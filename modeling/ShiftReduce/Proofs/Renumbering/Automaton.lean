import ShiftReduce.Proofs.Automaton.Determinization
import ShiftReduce.Proofs.Renumbering.Basic

/-!
# Renumbering keeps the states in place

Closures, moves over symbols and successors are carried along, and the order of successors depends
on names only. So two searches go on alike, and the states have the same numbers.
-/

namespace ShiftReduce

variable {σ : Renumbering} {g h : Grammar}

namespace Renumbering

variable (σ)

/-- The successors of an item set, with the symbols that lead to them. -/
def targets : List (Symbol × List Item) → List (Symbol × List Item) :=
  List.map (Prod.map σ.symbol σ.items)

/-- What a search has found. -/
def found : List (List Item × List (Symbol × List Item)) →
    List (List Item × List (Symbol × List Item)) :=
  List.map (Prod.map σ.items σ.targets)

/-- The items are renumbered, and the transitions lead to the same numbers of states. -/
structure MapsState (s t : State) : Prop where
  items_eq : t.items = σ.items s.items
  transitions_eq : t.transitions.toList = s.transitions.toList.map (Prod.map σ.symbol id)

/-- Two searches that have found and still have to do the same. -/
structure MapsSearch (g : Grammar) (s t : Search) : Prop where
  sound : Search.Sound g s
  found_eq : t.found.toList = σ.found s.found.toList
  pending_eq : t.pending = s.pending.map σ.items

variable {σ}

namespace Carries

variable (hσ : σ.Carries g h)

include hσ

theorem hasItems {items : List Item} (hitems : g.HasItems items) : h.HasItems (σ.items items) := by
  intro item hitem
  obtain ⟨before, hbefore, rfl⟩ := List.mem_map.mp hitem
  exact (hσ.mem_productionIds_iff _).mpr (hitems before hbefore)

theorem freeMove {item next : Item} (hmove : FreeMove g item next) :
    FreeMove h (σ.item item) (σ.item next) := by
  obtain ⟨p, hp, hnext, rfl⟩ := hmove
  refine ⟨σ.production p, (hσ.mem_productionIds_iff p).mpr hp, ?_, σ.item_start p⟩
  rw [hσ.next?, hnext, hσ.left]
  rfl

theorem freeMoves {item reached : Item} (hmoves : Relation.ReflTransGen (FreeMove g) item reached) :
    Relation.ReflTransGen (FreeMove h) (σ.item item) (σ.item reached) := by
  induction hmoves with
  | refl => exact .refl
  | tail _ hmove ih => exact ih.tail (hσ.freeMove hmove)

theorem closure {kernel : List Item} (hkernel : g.HasItems kernel) :
    closure h (σ.items kernel) = σ.items (closure g kernel) := by
  have hmoved := hσ.hasItems hkernel
  refine (ascending_closure hσ.target_wellFormed hmoved).eq_of_mem_iff
    (hσ.ascending_iff.mpr (ascending_closure hσ.source_wellFormed hkernel)) fun item => ?_
  rw [← σ.item_symm item, σ.item_mem_items, mem_closure_iff hσ.target_wellFormed hmoved,
    mem_closure_iff hσ.source_wellFormed hkernel]
  generalize σ.symm.item item = item
  constructor
  · rintro ⟨start, hstart, hmoves⟩
    obtain ⟨before, hbefore, rfl⟩ := List.mem_map.mp hstart
    exact ⟨before, hbefore, by simpa using hσ.symm.freeMoves hmoves⟩
  · rintro ⟨start, hstart, hmoves⟩
    exact ⟨σ.item start, σ.item_mem_items.mpr hstart, hσ.freeMoves hmoves⟩

theorem passed (items : List Item) (x : Symbol) :
    passed h (σ.items items) (σ.symbol x) = σ.items (passed g items x) := by
  have hfilter : (σ.items items).filter (fun item => item.next? h == some (σ.symbol x)) =
      σ.items (items.filter fun item => item.next? g == some x) := by
    rw [Renumbering.items, List.filter_map]
    refine congrArg (List.map σ.item) (List.filter_congr fun item _ => ?_)
    exact Bool.eq_iff_iff.mpr (by simp [hσ.next?_eq_some_iff])
  rw [ShiftReduce.passed, hfilter, ShiftReduce.passed, Renumbering.items, List.map_map,
    List.map_map]
  rfl

theorem goto {items : List Item} (hitems : g.HasItems items) (x : Symbol) :
    goto h (σ.items items) (σ.symbol x) = σ.items (goto g items x) := by
  rw [goto_eq_closure_passed, hσ.passed, hσ.closure (hasItems_passed hitems x)]
  rfl

theorem nextSymbols {items : List Item} (hitems : g.HasItems items) :
    nextSymbols h (σ.items items) = (nextSymbols g items).map σ.symbol := by
  refine eq_of_pairwise_lt (compareOn h.symbolName)
    (pairwise_nextSymbols hσ.target_wellFormed (hσ.hasItems hitems)) ?_ fun x => ?_
  · rw [List.pairwise_map]
    refine (pairwise_nextSymbols hσ.source_wellFormed hitems).imp fun {x y} hlt => ?_
    rwa [compareOn, hσ.symbolName, hσ.symbolName]
  · rw [← σ.symbol_symm x, List.mem_map_of_injective σ.symbol_injective, mem_nextSymbols,
      mem_nextSymbols]
    generalize σ.symm.symbol x = x
    simp [Renumbering.items, hσ.next?_eq_some_iff]

theorem successors {items : List Item} (hitems : g.HasItems items) :
    successors h (σ.items items) = σ.targets (successors g items) := by
  rw [successors_eq, successors_eq, hσ.nextSymbols hitems, targets, List.map_map,
    List.map_map]
  refine List.map_congr_left fun x _ => ?_
  simp [hσ.goto hitems]

theorem initialItems : initialItems h = σ.items (initialItems g) := by
  have hstart := hσ.closure hσ.source_wellFormed.hasItems_goal
  rwa [Renumbering.items, List.map_singleton, item_start, hσ.production_goal] at hstart

theorem perm_productionIds : h.productionIds.Perm (g.productionIds.map σ.production) := by
  refine (List.perm_ext_iff_of_nodup Grammar.nodup_productionIds
    (Grammar.nodup_productionIds.map σ.production.injective)).mpr ?_
  intro p
  obtain ⟨p, rfl⟩ := σ.production.surjective p
  rw [hσ.mem_productionIds_iff, List.mem_map_of_injective σ.production.injective]

theorem perm_items : h.items.Perm (σ.items g.items) := by
  have hitems : σ.items g.items = (g.productionIds.map σ.production).flatMap fun p =>
      (List.range ((h.production p).right.size + 1)).map (Item.mk p) := by
    rw [Renumbering.items, Grammar.items, List.map_flatMap, List.flatMap_map]
    refine List.flatMap_congr fun p _ => ?_
    rw [hσ.right, Array.size_map, List.map_map]
    rfl
  rw [hitems]
  exact hσ.perm_productionIds.flatMap_right _

theorem bound : Search.bound h = Search.bound g := by
  simp only [Search.bound, hσ.perm_items.length_eq, Renumbering.items, List.length_map]

end Carries

namespace MapsSearch

variable {s t : Search}

theorem keys_eq (hst : σ.MapsSearch g s t) :
    t.found.keys.toList = s.found.keys.toList.map σ.items := by
  rw [← OrderedMap.map_fst_toList, hst.found_eq, ← OrderedMap.map_fst_toList, found, List.map_map,
    List.map_map]
  rfl

theorem step (hσ : σ.Carries g h) (hst : σ.MapsSearch g s t) :
    Loop.Step.Related (σ.MapsSearch g) (Search.step g s) (Search.step h t) := by
  have hpending' := hst.pending_eq
  cases hpending : s.pending with
  | nil =>
    rw [hpending] at hpending'
    rw [Search.step_of_pending_nil hpending,
      Search.step_of_pending_nil hpending']
    exact .last hst
  | cons items rest =>
    rw [hpending, List.map_cons] at hpending'
    have hreached := (hst.sound.reached_of_pending items (hpending ▸ List.mem_cons_self))
    have hsuccessors := hσ.successors (hreached.hasItems hσ.source_wellFormed)
    have hiff : σ.items items ∈ t.found.keys.toList ↔ items ∈ s.found.keys.toList := by
      rw [hst.keys_eq, List.mem_map_of_injective σ.items_injective]
    by_cases hitems : items ∈ s.found.keys.toList
    · rw [Search.step_of_mem hpending hitems,
        Search.step_of_mem hpending' (hiff.mpr hitems)]
      exact .next ⟨hst.sound.skip hpending hitems, hst.found_eq, rfl⟩
    · have hitems' := mt hiff.mp hitems
      rw [Search.step_of_not_mem hpending hitems,
        Search.step_of_not_mem hpending' hitems']
      refine .next ⟨hst.sound.visit hσ.source_wellFormed hpending hitems, ?_, ?_⟩
      · rw [Search.toList_visit hitems, Search.toList_visit hitems',
          hst.found_eq, hsuccessors, found, List.map_append]
        rfl
      · simp [Search.visit, hsuccessors, targets, Function.comp_def]

end MapsSearch

namespace Carries

variable (hσ : σ.Carries g h)

include hσ

theorem toList_run : (Search.run h).keys.toList = (Search.run g).keys.toList.map σ.items := by
  have hstart : σ.MapsSearch g (Search.start g) (Search.start h) :=
    ⟨Search.sound_start hσ.source_wellFormed, rfl, congrArg ([·]) hσ.initialItems⟩
  rw [Search.run, Search.run, hσ.bound]
  exact (Loop.run_related (fun s t hst => hst.step hσ) _ hstart).keys_eq

theorem idx?_run (items : List Item) :
    (Search.run h).keys.idx? (σ.items items) = (Search.run g).keys.idx? items := by
  ext i
  rw [Roster.idx?_eq_some_iff, Roster.idx?_eq_some_iff, hσ.toList_run, List.getElem?_map,
    ← Option.map_some, (Option.map_injective σ.items_injective).eq_iff]

theorem size_states : h.automaton.states.size = g.automaton.states.size := by
  rw [← Array.length_toList, ← Array.length_toList, Grammar.toList_states hσ.target_wellFormed,
    Grammar.toList_states hσ.source_wellFormed, List.length_map, List.length_map, hσ.toList_run,
    List.length_map]

theorem items_state {q : StateId} (hq : q < g.automaton.states.size) :
    (h.automaton.state q).items = σ.items (g.automaton.state q).items := by
  have hitems := Automaton.getElem?_items hσ.source_wellFormed hq
  have hmoved : (Search.run h).keys.toList[q]? = some (σ.items (g.automaton.state q).items) := by
    rw [hσ.toList_run, List.getElem?_map, hitems]
    rfl
  exact ((Grammar.getElem?_items_iff hσ.target_wellFormed).mp hmoved).2

/-- The states are the same, number for number. -/
theorem state {q : StateId} (hq : q < g.automaton.states.size) :
    σ.MapsState (g.automaton.state q) (h.automaton.state q) where
  items_eq := hσ.items_state hq
  transitions_eq := by
    have hq' : q < h.automaton.states.size := hσ.size_states.symm ▸ hq
    have hitems := (Automaton.isReachedSet_items hσ.source_wellFormed hq).hasItems
      hσ.source_wellFormed
    rw [Automaton.toList_transitions hσ.target_wellFormed hq',
      Automaton.toList_transitions hσ.source_wellFormed hq, hσ.items_state hq,
      hσ.nextSymbols hitems, List.map_map, List.map_map]
    refine List.map_congr_left fun x _ => ?_
    simp only [Function.comp_apply, hσ.goto hitems, hσ.idx?_run, Prod.map, id]

theorem states : List.Forall₂ σ.MapsState g.automaton.states.toList h.automaton.states.toList := by
  refine List.forall₂_iff_get.mpr ⟨hσ.size_states.symm, fun q hq hq' => ?_⟩
  rw [List.get_eq_getElem, List.get_eq_getElem, Array.getElem_toList, Array.getElem_toList,
    ← Automaton.state_eq_getElem, ← Automaton.state_eq_getElem]
  exact hσ.state hq

end Carries

end Renumbering

end ShiftReduce
