import Mathlib.Algebra.Ring.Nat
import Mathlib.Data.List.Sublists
import ShiftReduce.Automaton.Basic
import ShiftReduce.Proofs.Automaton.ItemAutomaton

/-!
# The search for item sets

The search finds sets that are reached from the initial one and ends when every successor of a found
set is found. Item sets are sorted, so there are no more of them than sublists of all items; that
bounds the search.
-/

namespace ShiftReduce

variable {g : Grammar}

theorem mem_nextSymbols {items : List Item} {x : Symbol} :
    x ∈ nextSymbols g items ↔ ∃ item ∈ items, item.next? g = some x := by
  rw [nextSymbols, mem_sortByName, mem_distinct, List.mem_filterMap]

/-- The names of the symbols that leave a set ascend strictly. -/
theorem pairwise_nextSymbols (hg : g.WellFormed) {items : List Item} (hitems : g.HasItems items) :
    (nextSymbols g items).Pairwise fun x y => compare (g.symbolName x) (g.symbolName y) = .lt := by
  apply pairwise_lt_sortBy (compareOn g.symbolName) (nodup_distinct _)
  intro x hx y hy heq
  obtain ⟨item, hitem, hx⟩ := List.mem_filterMap.mp (mem_distinct.mp hx)
  obtain ⟨other, hother, hy⟩ := List.mem_filterMap.mp (mem_distinct.mp hy)
  exact hg.eq_of_symbolName (Item.mentions_of_next? (hitems item hitem) hx)
    (Item.mentions_of_next? (hitems other hother) hy) (Std.LawfulEqOrd.eq_of_compare heq)

theorem length_nextSymbols_le (items : List Item) :
    (nextSymbols g items).length ≤ items.length := by
  have hsub : distinct (items.filterMap (·.next? g)) ⊆ items.filterMap (·.next? g) :=
    fun x hx => mem_distinct.mp hx
  have hle := (List.subperm_of_subset (nodup_distinct _) hsub).length_le
  rw [nextSymbols, sortByName, (perm_sortBy _ _).length_eq]
  exact hle.trans (List.length_filterMap_le _ _)

theorem goto_eq_nil_iff (hg : g.WellFormed) {items : List Item} (hitems : g.HasItems items)
    {x : Symbol} : goto g items x = [] ↔ x ∉ nextSymbols g items := by
  rw [goto_eq_closure_passed, closure_eq_nil_iff hg (hasItems_passed hitems x), passed_eq_nil_iff,
    mem_nextSymbols]
  exact ⟨fun hnone ⟨item, hitem, hx⟩ => hnone item hitem hx, fun hnone item hitem hx =>
    hnone ⟨item, hitem, hx⟩⟩

/-- A sorted and nonempty list that holds exactly what some string of symbols leads to. -/
structure IsReachedSet (g : Grammar) (items : List Item) : Prop where
  holds : ∃ symbols, HoldsReached g symbols items
  ascending : Ascending g items
  ne_nil : items ≠ []

namespace IsReachedSet

variable (hg : g.WellFormed)

include hg

theorem hasItems {items : List Item} (hitems : IsReachedSet g items) : g.HasItems items := by
  obtain ⟨symbols, hholds⟩ := hitems.holds
  exact hholds.hasItems hg

theorem initial : IsReachedSet g (initialItems g) := by
  refine ⟨⟨[], .initial hg⟩, ascending_closure hg hg.hasItems_goal, ?_⟩
  rw [initialItems, Ne, closure_eq_nil_iff hg hg.hasItems_goal]
  exact List.cons_ne_nil _ _

theorem goto {items : List Item} (hitems : IsReachedSet g items) {x : Symbol}
    (hx : x ∈ nextSymbols g items) : IsReachedSet g (goto g items x) := by
  obtain ⟨symbols, hholds⟩ := hitems.holds
  refine ⟨⟨symbols ++ [x], hholds.goto hg x⟩, ?_, fun hnil => ?_⟩
  · exact ascending_closure hg (hasItems_passed (hitems.hasItems hg) x)
  · exact (goto_eq_nil_iff hg (hitems.hasItems hg)).mp hnil hx

theorem subset_items {items : List Item} (hitems : IsReachedSet g items) : items ⊆ g.items := by
  intro item hitem
  obtain ⟨symbols, hholds⟩ := hitems.holds
  have hreached := (hholds item).mp hitem
  obtain ⟨_, _, hmarker, _⟩ := hreached.exists_start
  refine List.mem_flatMap.mpr ⟨item.production, hreached.production_mem hg, ?_⟩
  exact List.mem_map.mpr ⟨item.marker, List.mem_range.mpr (Nat.lt_succ_of_le hmarker), rfl⟩

theorem length_le {items : List Item} (hitems : IsReachedSet g items) :
    items.length ≤ g.items.length :=
  (List.subperm_of_subset hitems.ascending.nodup (hitems.subset_items hg)).length_le

/-- Leaving out items from the sorted list of all of them yields every reached set. -/
theorem sublist_sortItems {items : List Item} (hitems : IsReachedSet g items) :
    items.Sublist (sortItems g g.items) := by
  have hall : Ascending g (sortItems g g.items) := by
    refine ascending_sortItems hg fun item hitem => ?_
    obtain ⟨p, hp, hitem⟩ := List.mem_flatMap.mp hitem
    obtain ⟨marker, -, rfl⟩ := List.mem_map.mp hitem
    exact hp
  -- both lists ascend, so it is enough that they have the same members
  have hfilter : items = (sortItems g g.items).filter (· ∈ items) := by
    refine hitems.ascending.eq_of_mem_iff (hall.filter _) fun item => ?_
    rw [List.mem_filter, mem_sortItems, decide_eq_true_iff]
    exact ⟨fun hitem => ⟨hitems.subset_items hg hitem, hitem⟩, And.right⟩
  rw [hfilter]
  exact List.filter_sublist

end IsReachedSet

theorem length_sortItems_le (items : List Item) : (sortItems g items).length ≤ items.length := by
  rw [sortItems, (perm_sortBy _ _).length_eq]
  exact (List.subperm_of_subset (nodup_distinct items) fun _ => mem_distinct.mp).length_le

theorem length_le_of_isReachedSet (hg : g.WellFormed) {sets : List (List Item)}
    (hnodup : sets.Nodup) (hsets : ∀ items ∈ sets, IsReachedSet g items) :
    sets.length ≤ 2 ^ g.items.length := by
  have hsub : sets ⊆ (sortItems g g.items).sublists := fun items hitems =>
    List.mem_sublists.mpr ((hsets items hitems).sublist_sortItems hg)
  calc sets.length ≤ (sortItems g g.items).sublists.length :=
        (List.subperm_of_subset hnodup hsub).length_le
    _ = 2 ^ (sortItems g g.items).length := List.length_sublists _
    _ ≤ 2 ^ g.items.length := Nat.pow_le_pow_right (by decide) (length_sortItems_le _)

namespace Search

/-- Only reached sets are met, each found set has its successors, and these are met as well. -/
structure Sound (g : Grammar) (s : Search) : Prop where
  eq_successors : ∀ entry ∈ s.found.toList, entry.2 = successors g entry.1
  reached_of_found : ∀ items ∈ s.found.keys.toList, IsReachedSet g items
  reached_of_pending : ∀ items ∈ s.pending, IsReachedSet g items
  goto_met : ∀ items ∈ s.found.keys.toList, ∀ x ∈ nextSymbols g items,
    goto g items x ∈ s.found.keys.toList ∨ goto g items x ∈ s.pending
  initial_met : s.found.keys.toList.head? = some (initialItems g) ∨
    s.found.keys.toList = [] ∧ s.pending = [initialItems g]

/-- The search when the next pending set is already found. -/
def skip (s : Search) (rest : List (List Item)) : Search :=
  { s with pending := rest }

/-- The search when the next pending set is new. -/
def visit (g : Grammar) (s : Search) (items : List Item) (rest : List (List Item)) : Search where
  found := s.found.insert items (successors g items)
  pending := (successors g items).reverse.map Prod.snd ++ rest

theorem step_of_pending_nil {s : Search} (hpending : s.pending = []) : step g s = .last s := by
  simp [step, hpending]

theorem step_of_mem {s : Search} {items : List Item} {rest : List (List Item)}
    (hpending : s.pending = items :: rest) (hitems : items ∈ s.found.keys.toList) :
    step g s = .next (s.skip rest) := by
  have hcontains : s.found.contains items = true := Roster.contains_iff.mpr hitems
  simp [step, hpending, hcontains, skip]

theorem step_of_not_mem {s : Search} {items : List Item} {rest : List (List Item)}
    (hpending : s.pending = items :: rest) (hitems : items ∉ s.found.keys.toList) :
    step g s = .next (s.visit g items rest) := by
  have hcontains : s.found.contains items = false :=
    Bool.eq_false_iff.mpr fun hcontains => hitems (Roster.contains_iff.mp hcontains)
  simp [step, hpending, hcontains, visit]

theorem mem_targets {items target : List Item} :
    target ∈ (successors g items).reverse.map Prod.snd ↔
      ∃ x ∈ nextSymbols g items, goto g items x = target := by
  simp [successors_eq]

theorem toList_visit {s : Search} {items : List Item} {rest : List (List Item)}
    (hitems : items ∉ s.found.keys.toList) :
    (s.visit g items rest).found.toList = s.found.toList ++ [(items, successors g items)] := by
  rw [← OrderedMap.map_fst_toList] at hitems
  exact OrderedMap.toList_insert_of_not_mem hitems _

theorem keys_visit {s : Search} {items : List Item} {rest : List (List Item)}
    (hitems : items ∉ s.found.keys.toList) :
    (s.visit g items rest).found.keys.toList = s.found.keys.toList ++ [items] := by
  rw [← OrderedMap.map_fst_toList, toList_visit hitems, List.map_append, OrderedMap.map_fst_toList]
  rfl

theorem sound_start (hg : g.WellFormed) : Sound g (start g) where
  eq_successors _ hentry := absurd hentry List.not_mem_nil
  reached_of_found _ hitems := absurd hitems List.not_mem_nil
  reached_of_pending items hitems := by
    obtain rfl := List.mem_singleton.mp hitems
    exact .initial hg
  goto_met _ hitems := absurd hitems List.not_mem_nil
  initial_met := .inr ⟨rfl, rfl⟩

theorem Sound.skip {s : Search} (hs : Sound g s) {items : List Item} {rest : List (List Item)}
    (hpending : s.pending = items :: rest) (hitems : items ∈ s.found.keys.toList) :
    Sound g (s.skip rest) where
  eq_successors := hs.eq_successors
  reached_of_found := hs.reached_of_found
  reached_of_pending other hother :=
    hs.reached_of_pending other (hpending ▸ List.mem_cons_of_mem _ hother)
  goto_met other hother x hx := by
    rcases hs.goto_met other hother x hx with hfound | hmet
    · exact .inl hfound
    · rw [hpending, List.mem_cons] at hmet
      rcases hmet with heq | hmet
      · exact .inl (heq ▸ hitems)
      · exact .inr hmet
  initial_met := by
    rcases hs.initial_met with hhead | ⟨hnone, -⟩
    · exact .inl hhead
    · rw [hnone] at hitems
      exact absurd hitems List.not_mem_nil

theorem Sound.visit (hg : g.WellFormed) {s : Search} (hs : Sound g s) {items : List Item}
    {rest : List (List Item)} (hpending : s.pending = items :: rest)
    (hitems : items ∉ s.found.keys.toList) : Sound g (s.visit g items rest) where
  eq_successors entry hentry := by
    rw [toList_visit hitems, List.mem_append, List.mem_singleton] at hentry
    rcases hentry with hentry | rfl
    · exact hs.eq_successors entry hentry
    · rfl
  reached_of_found other hother := by
    rw [keys_visit hitems, List.mem_append, List.mem_singleton] at hother
    rcases hother with hother | rfl
    · exact hs.reached_of_found other hother
    · exact hs.reached_of_pending other (hpending ▸ List.mem_cons_self)
  reached_of_pending other hother := by
    rcases List.mem_append.mp hother with hother | hother
    · obtain ⟨x, hx, rfl⟩ := mem_targets.mp hother
      exact (hs.reached_of_pending items (hpending ▸ List.mem_cons_self)).goto hg hx
    · exact hs.reached_of_pending other (hpending ▸ List.mem_cons_of_mem _ hother)
  goto_met other hother x hx := by
    rw [keys_visit hitems, List.mem_append, List.mem_singleton] at hother ⊢
    rcases hother with hother | rfl
    -- a successor that was pending is the visited set itself or pending still
    · rcases hs.goto_met other hother x hx with hfound | hmet
      · exact .inl (.inl hfound)
      · rw [hpending, List.mem_cons] at hmet
        rcases hmet with heq | hmet
        · exact .inl (.inr heq)
        · exact .inr (List.mem_append_right _ hmet)
    · exact .inr (List.mem_append_left _ (mem_targets.mpr ⟨x, hx, rfl⟩))
  initial_met := by
    left
    rw [keys_visit hitems]
    rcases hs.initial_met with hhead | ⟨hnone, hsingle⟩
    · rw [List.head?_append, hhead]
      rfl
    · rw [hsingle, List.cons.injEq] at hpending
      rw [hnone, ← hpending.1]
      rfl

/-- Room for new sets counts for more than the successors of one set. -/
def remaining (g : Grammar) (s : Search) : Nat :=
  (2 ^ g.items.length - s.found.keys.toList.length) * (g.items.length + 1) + s.pending.length

theorem remaining_visit_lt (hg : g.WellFormed) {s : Search} (hs : Sound g s) {items : List Item}
    {rest : List (List Item)} (hpending : s.pending = items :: rest)
    (hitems : items ∉ s.found.keys.toList) :
    remaining g (s.visit g items rest) < remaining g s := by
  have hfound := length_le_of_isReachedSet hg (s.visit g items rest).found.keys.nodup
    (hs.visit hg hpending hitems).reached_of_found
  have hnext : (successors g items).length ≤ g.items.length := by
    have hreached := hs.reached_of_pending items (hpending ▸ List.mem_cons_self)
    rw [successors_eq, List.length_map]
    exact (length_nextSymbols_le items).trans (hreached.length_le hg)
  have htargets : (s.visit g items rest).pending.length =
      (successors g items).length + rest.length := by
    simp [Search.visit]
  simp only [remaining, htargets, hpending, keys_visit hitems, List.length_append,
    List.length_cons, List.length_nil, Nat.zero_add] at hfound ⊢
  -- one place less for new sets outweighs the successors, of which there are no more than items
  obtain ⟨room, hroom⟩ : ∃ room, 2 ^ g.items.length = s.found.keys.toList.length + 1 + room :=
    Nat.exists_eq_add_of_le hfound
  have hbefore : 2 ^ g.items.length - s.found.keys.toList.length = room + 1 := by omega
  have hafter : 2 ^ g.items.length - (s.found.keys.toList.length + 1) = room := by omega
  rw [hbefore, hafter, Nat.succ_mul]
  omega

theorem Sound.step (hg : g.WellFormed) {s next : Search} (hs : Sound g s)
    (hnext : step g s = .next next) : Sound g next ∧ remaining g next < remaining g s := by
  cases hpending : s.pending with
  | nil =>
    rw [step_of_pending_nil hpending] at hnext
    cases hnext
  | cons items rest =>
    by_cases hitems : items ∈ s.found.keys.toList
    · rw [step_of_mem hpending hitems] at hnext
      obtain rfl := Loop.Step.next.inj hnext
      refine ⟨hs.skip hpending hitems, ?_⟩
      simp [remaining, Search.skip, hpending]
    · rw [step_of_not_mem hpending hitems] at hnext
      obtain rfl := Loop.Step.next.inj hnext
      exact ⟨hs.visit hg hpending hitems, remaining_visit_lt hg hs hpending hitems⟩

/-- The search ends when nothing is pending. -/
theorem sound_last (hg : g.WellFormed) :
    Sound g (Loop.run (step g) (bound g) (start g)) ∧
      (Loop.run (step g) (bound g) (start g)).pending = [] := by
  have hbound : remaining g (start g) < bound g := by
    simp [remaining, start, bound, Nat.one_shiftLeft]
  obtain ⟨s, hs, hlast⟩ := Loop.run_last (remaining g) (fun _ _ hs hnext => hs.step hg hnext)
    (bound g) (sound_start hg) hbound
  cases hpending : s.pending with
  | nil =>
    rw [step_of_pending_nil hpending] at hlast
    rw [← Loop.Step.last.inj hlast]
    exact ⟨hs, hpending⟩
  | cons items rest =>
    by_cases hitems : items ∈ s.found.keys.toList
    · rw [step_of_mem hpending hitems] at hlast
      cases hlast
    · rw [step_of_not_mem hpending hitems] at hlast
      cases hlast

theorem exists_last (hg : g.WellFormed) : ∃ s, Sound g s ∧ s.pending = [] ∧ run g = s.found := by
  obtain ⟨hs, hpending⟩ := sound_last hg
  exact ⟨_, hs, hpending, rfl⟩

end Search

end ShiftReduce
