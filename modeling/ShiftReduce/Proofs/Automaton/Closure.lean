import Mathlib.Data.List.Perm.Subperm
import Mathlib.Logic.Relation
import ShiftReduce.Proofs.Automaton.ItemOrder

/-!
# Closures

Free moves lead from an item to the start items of the nonterminal behind its marker. Opening
nonterminals until nothing is pending finds them all, so a closure holds exactly the items that free
moves reach from the kernel.
-/

namespace ShiftReduce

variable {g : Grammar}

/-- From `A -> u . N v` to any `N -> . w`. -/
def FreeMove (g : Grammar) (item next : Item) : Prop :=
  ∃ p ∈ g.productionIds, item.next? g = some (.nonterminal (g.production p).left) ∧ next = .start p

/-- Free moves from the kernel reach an item that expects the nonterminal. -/
def Expects (g : Grammar) (kernel : List Item) (n : NonterminalId) : Prop :=
  ∃ item ∈ kernel, ∃ reached, Relation.ReflTransGen (FreeMove g) item reached ∧
    reached.next? g = some (.nonterminal n)

/-- The items belong to productions of the grammar. -/
def Grammar.HasItems (g : Grammar) (items : List Item) : Prop :=
  ∀ item ∈ items, item.production ∈ g.productionIds

/-- The goal's start item, with which everything begins. -/
theorem Grammar.WellFormed.hasItems_goal (hg : g.WellFormed) : g.HasItems [.start .goal] := by
  intro item hitem
  obtain rfl := List.mem_singleton.mp hitem
  exact hg.goal_mem

theorem Item.expected?_eq_some_iff {item : Item} {n : NonterminalId} :
    item.expected? g = some n ↔ item.next? g = some (.nonterminal n) := by
  rw [Item.expected?, Option.bind_eq_some_iff]
  constructor
  · rintro ⟨x, hx, hn⟩
    cases x with
    | terminal t => cases hn
    | nonterminal m =>
      obtain rfl := Option.some.inj hn
      exact hx
  · exact fun hx => ⟨_, hx, rfl⟩

theorem Item.mentions_of_next? {item : Item} (hitem : item.production ∈ g.productionIds)
    {x : Symbol} (hx : item.next? g = some x) : g.Mentions x :=
  ⟨item.production, hitem, Array.mem_of_getElem? hx⟩

theorem Grammar.WellFormed.mem_nonterminalIds_of_next? (hg : g.WellFormed) {item : Item}
    (hitem : item.production ∈ g.productionIds) {n : NonterminalId}
    (hn : item.next? g = some (.nonterminal n)) : n ∈ g.nonterminalIds :=
  hg.hasSymbol_of_mentions (Item.mentions_of_next? hitem hn)

theorem FreeMove.production_mem {item next : Item} (hmove : FreeMove g item next) :
    next.production ∈ g.productionIds := by
  obtain ⟨p, hp, -, rfl⟩ := hmove
  exact hp

theorem production_mem_of_freeMoves {item reached : Item}
    (hmoves : Relation.ReflTransGen (FreeMove g) item reached)
    (hitem : item.production ∈ g.productionIds) : reached.production ∈ g.productionIds := by
  cases hmoves with
  | refl => exact hitem
  | tail _ hmove => exact hmove.production_mem

theorem Expects.mem_nonterminalIds (hg : g.WellFormed) {kernel : List Item}
    (hkernel : g.HasItems kernel) {n : NonterminalId} (hn : Expects g kernel n) :
    n ∈ g.nonterminalIds := by
  obtain ⟨item, hitem, reached, hmoves, hnext⟩ := hn
  have hreached := production_mem_of_freeMoves hmoves (hkernel item hitem)
  exact hg.mem_nonterminalIds_of_next? hreached hnext

namespace Opening

theorem mem_leading (hg : g.WellFormed) {m n : NonterminalId} : n ∈ leading g m ↔
    ∃ p ∈ g.productionIds, (g.production p).left = m ∧
      (Item.start p).next? g = some (.nonterminal n) := by
  simp only [leading, List.mem_filterMap, hg.mem_productions_iff, Item.expected?_eq_some_iff,
    and_assoc]

/-- Whatever leads the productions of an expected nonterminal is expected too. -/
theorem expects_of_leading (hg : g.WellFormed) {kernel : List Item} {m n : NonterminalId}
    (hm : Expects g kernel m) (hn : n ∈ leading g m) : Expects g kernel n := by
  obtain ⟨p, hp, rfl, hnext⟩ := (mem_leading hg).mp hn
  obtain ⟨item, hitem, reached, hmoves, hreached⟩ := hm
  exact ⟨item, hitem, Item.start p, hmoves.tail ⟨p, hp, hreached, rfl⟩, hnext⟩

/-- Only expected nonterminals are met, and none that should be opened is lost. -/
structure Sound (g : Grammar) (kernel : List Item) (o : Opening) : Prop where
  expects_of_opened : ∀ n ∈ o.opened.toList, Expects g kernel n
  expects_of_pending : ∀ n ∈ o.pending, Expects g kernel n
  kernel_met : ∀ item ∈ kernel, ∀ n, item.next? g = some (.nonterminal n) →
    n ∈ o.opened.toList ∨ n ∈ o.pending
  leading_met : ∀ m ∈ o.opened.toList, ∀ n ∈ leading g m, n ∈ o.opened.toList ∨ n ∈ o.pending

/-- The pending nonterminals that are still to be opened. -/
def fresh (o : Opening) : List NonterminalId :=
  distinct (o.pending.filter fun n => !o.opened.contains n)

theorem mem_fresh {o : Opening} {n : NonterminalId} :
    n ∈ o.fresh ↔ n ∈ o.pending ∧ n ∉ o.opened.toList := by
  rw [fresh, mem_distinct, List.mem_filter, Bool.not_eq_true', ← Bool.not_eq_true,
    Roster.contains_iff]

theorem step_eq (o : Opening) : step g o =
    if o.fresh = [] then .last o
    else .next { opened := o.opened.addAll o.fresh, pending := o.fresh.flatMap (leading g) } := by
  unfold step fresh
  split
  next heq => rw [if_pos heq]
  next heq => rw [if_neg heq]

theorem sound_start (kernel : List Item) :
    Sound g kernel { opened := ∅, pending := kernel.filterMap (·.expected? g) } where
  expects_of_opened n hn := absurd hn List.not_mem_nil
  expects_of_pending n hn := by
    obtain ⟨item, hitem, hnext⟩ := List.mem_filterMap.mp hn
    exact ⟨item, hitem, item, .refl, Item.expected?_eq_some_iff.mp hnext⟩
  kernel_met item hitem n hn :=
    .inr (List.mem_filterMap.mpr ⟨item, hitem, Item.expected?_eq_some_iff.mpr hn⟩)
  leading_met m hm := absurd hm List.not_mem_nil

theorem Sound.next (hg : g.WellFormed) {kernel : List Item} {o : Opening} (ho : Sound g kernel o) :
    Sound g kernel
      { opened := o.opened.addAll o.fresh, pending := o.fresh.flatMap (leading g) } := by
  -- a step opens whatever is pending, so what was met before is opened now
  have hmet {n : NonterminalId} (hn : n ∈ o.opened.toList ∨ n ∈ o.pending) :
      n ∈ (o.opened.addAll o.fresh).toList := by
    rw [Roster.mem_addAll, mem_fresh]
    by_cases hopened : n ∈ o.opened.toList
    · exact .inl hopened
    · exact .inr ⟨hn.resolve_left hopened, hopened⟩
  have hfresh : ∀ n ∈ o.fresh, Expects g kernel n := fun n hn =>
    ho.expects_of_pending n (mem_fresh.mp hn).1
  exact {
    expects_of_opened n hn := by
      rcases Roster.mem_addAll.mp hn with hopened | hn
      · exact ho.expects_of_opened n hopened
      · exact hfresh n hn
    expects_of_pending n hn := by
      obtain ⟨m, hm, hlead⟩ := List.mem_flatMap.mp hn
      exact expects_of_leading hg (hfresh m hm) hlead
    kernel_met item hitem n hn := .inl (hmet (ho.kernel_met item hitem n hn))
    leading_met m hm n hn := by
      rcases Roster.mem_addAll.mp hm with hm | hm
      · exact .inl (hmet (ho.leading_met m hm n hn))
      · exact .inr (List.mem_flatMap.mpr ⟨m, hm, hn⟩) }

theorem Sound.length_opened_le (hg : g.WellFormed) {kernel : List Item}
    (hkernel : g.HasItems kernel) {o : Opening} (ho : Sound g kernel o) :
    o.opened.toList.length ≤ g.nonterminals.size := by
  have hsub : o.opened.toList ⊆ g.nonterminalIds := fun n hn =>
    (ho.expects_of_opened n hn).mem_nonterminalIds hg hkernel
  simpa [Grammar.nonterminalIds] using (List.subperm_of_subset o.opened.nodup hsub).length_le

theorem length_opened_lt {o : Opening} (hfresh : o.fresh ≠ []) :
    o.opened.toList.length < (o.opened.addAll o.fresh).toList.length := by
  have hnodup : (o.opened.toList ++ o.fresh).Nodup := by
    refine List.nodup_append.mpr ⟨o.opened.nodup, nodup_distinct _, fun m hm n hn heq => ?_⟩
    exact (mem_fresh.mp hn).2 (heq ▸ hm)
  rw [Roster.toList_addAll_of_nodup hnodup, List.length_append]
  have := List.length_pos_of_ne_nil hfresh
  omega

/-- What is left to open counts down to the last step. -/
theorem Sound.step (hg : g.WellFormed) {kernel : List Item} (hkernel : g.HasItems kernel)
    {o next : Opening} (ho : Sound g kernel o) (hnext : step g o = .next next) :
    Sound g kernel next ∧ g.nonterminals.size + 1 - next.opened.toList.length <
      g.nonterminals.size + 1 - o.opened.toList.length := by
  rw [step_eq] at hnext
  split at hnext
  next => cases hnext
  next hfresh =>
    obtain rfl := Loop.Step.next.inj hnext
    refine ⟨ho.next hg, ?_⟩
    have hlt := length_opened_lt hfresh
    have hle := ho.length_opened_le hg hkernel
    exact Nat.sub_lt_sub_left (Nat.lt_succ_of_le hle) hlt

/-- The loop ends with nothing left to open. -/
theorem exists_last (hg : g.WellFormed) {kernel : List Item} (hkernel : g.HasItems kernel) :
    ∃ o, Sound g kernel o ∧ o.fresh = [] ∧ ofItems g kernel = o.opened.toList := by
  obtain ⟨o, ho, hlast⟩ := Loop.run_last
    (fun o => g.nonterminals.size + 1 - o.opened.toList.length)
    (fun _ _ ho hnext => ho.step hg hkernel hnext) (bound g) (sound_start kernel) (by simp [bound])
  rw [step_eq] at hlast
  split at hlast
  next hfresh =>
    have hend := (Loop.Step.last.inj hlast).symm
    exact ⟨o, ho, hfresh, congrArg (fun last : Opening => last.opened.toList) hend⟩
  next => cases hlast

theorem mem_ofItems_iff (hg : g.WellFormed) {kernel : List Item} (hkernel : g.HasItems kernel)
    {n : NonterminalId} : n ∈ ofItems g kernel ↔ Expects g kernel n := by
  obtain ⟨o, ho, hdone, heq⟩ := exists_last hg hkernel
  have hmet {n : NonterminalId} (hn : n ∈ o.opened.toList ∨ n ∈ o.pending) :
      n ∈ o.opened.toList := by
    by_contra hopened
    have hfresh := mem_fresh.mpr ⟨hn.resolve_left hopened, hopened⟩
    simp [hdone] at hfresh
  rw [heq]
  refine ⟨ho.expects_of_opened n, ?_⟩
  rintro ⟨item, hitem, reached, hmoves, hnext⟩
  -- along the free moves, each nonterminal leads a production of the one opened before it
  induction hmoves generalizing n with
  | refl => exact hmet (ho.kernel_met item hitem n hnext)
  | tail _ hmove ih =>
    obtain ⟨p, hp, hleft, rfl⟩ := hmove
    exact hmet (ho.leading_met _ (ih hleft) n ((mem_leading hg).mpr ⟨p, hp, rfl, hnext⟩))

end Opening

theorem mem_startItems (hg : g.WellFormed) {n : NonterminalId} {item : Item} :
    item ∈ startItems g n ↔
      ∃ p ∈ g.productionIds, (g.production p).left = n ∧ item = .start p := by
  simp only [startItems, List.mem_map, hg.mem_productions_iff, and_assoc, eq_comm]

/-- A closure holds what free moves reach from its kernel. -/
theorem mem_closure_iff (hg : g.WellFormed) {kernel : List Item} (hkernel : g.HasItems kernel)
    {item : Item} :
    item ∈ closure g kernel ↔ ∃ start ∈ kernel, Relation.ReflTransGen (FreeMove g) start item := by
  simp only [closure, mem_sortItems, List.mem_append, List.mem_flatMap,
    Opening.mem_ofItems_iff hg hkernel, mem_startItems hg]
  constructor
  · rintro (hitem | ⟨n, ⟨start, hstart, reached, hmoves, hnext⟩, p, hp, rfl, rfl⟩)
    · exact ⟨item, hitem, .refl⟩
    · exact ⟨start, hstart, hmoves.tail ⟨p, hp, hnext, rfl⟩⟩
  · rintro ⟨start, hstart, hmoves⟩
    cases hmoves with
    | refl => exact .inl hstart
    | tail hmoves hmove =>
      obtain ⟨p, hp, hnext, rfl⟩ := hmove
      exact .inr ⟨_, ⟨start, hstart, _, hmoves, hnext⟩, p, hp, rfl, rfl⟩

theorem hasItems_closure (hg : g.WellFormed) {kernel : List Item} (hkernel : g.HasItems kernel) :
    g.HasItems (closure g kernel) := by
  intro item hitem
  obtain ⟨start, hstart, hmoves⟩ := (mem_closure_iff hg hkernel).mp hitem
  exact production_mem_of_freeMoves hmoves (hkernel start hstart)

theorem ascending_closure (hg : g.WellFormed) {kernel : List Item} (hkernel : g.HasItems kernel) :
    Ascending g (closure g kernel) := by
  refine ascending_sortItems hg fun item hitem => ?_
  exact hasItems_closure hg hkernel item (mem_sortItems.mpr hitem)

theorem closure_eq_nil_iff (hg : g.WellFormed) {kernel : List Item} (hkernel : g.HasItems kernel) :
    closure g kernel = [] ↔ kernel = [] := by
  simp only [List.eq_nil_iff_forall_not_mem, mem_closure_iff hg hkernel]
  constructor
  · exact fun hnone item hitem => hnone item ⟨item, hitem, .refl⟩
  · rintro hnone item ⟨start, hstart, -⟩
    exact hnone start hstart

end ShiftReduce
