import Mathlib.Data.Finset.Card
import Mathlib.Data.Finset.SDiff
import Mathlib.Order.WellFounded
import ShiftReduce.Proofs.Automaton.Closure
import ShiftReduce.Proofs.Loops.Unbounded

/-!
# Closures by a list of items to expand

Items are taken from a stack one by one. One that is new is kept, and the start items that it pulls
in and that are not kept yet are pushed. Either there is an item less to be found or the stack gets
shorter, so this ends for any finite kernel, with the closure of the kernel.
-/

namespace ShiftReduce

variable {g : Grammar}

structure Worklist where
  items : Roster Item
  /-- The items to expand, the next one first. -/
  pending : List Item

namespace Worklist

section Steps

variable (g : Grammar)

def pulled (items : Roster Item) (item : Item) : List Item :=
  match item.expected? g with
  | none => []
  | some n => (startItems g n).filter fun start => !items.contains start

def step (w : Worklist) : Loop.Step Worklist :=
  match w.pending with
  | [] => .last w
  | item :: rest =>
    if w.items.contains item then .next { w with pending := rest }
    else
      let items := w.items.add item
      .next { items, pending := (pulled g items item).reverse ++ rest }

def start (kernel : List Item) : Worklist where
  items := ∅
  pending := kernel.reverse

end Steps

theorem mem_pulled (hg : g.WellFormed) {items : Roster Item} {item next : Item} :
    next ∈ pulled g items item ↔ FreeMove g item next ∧ next ∉ items.toList := by
  have hnot : (!items.contains next) = true ↔ next ∉ items.toList := by
    rw [Bool.not_eq_true', ← Bool.not_eq_true, Roster.contains_iff]
  unfold pulled
  split
  next hnone =>
    refine iff_of_false List.not_mem_nil fun ⟨⟨p, hp, hnext, _⟩, _⟩ => ?_
    rw [← Item.expected?_eq_some_iff, hnone] at hnext
    cases hnext
  next n hn =>
    rw [List.mem_filter, mem_startItems hg, hnot]
    refine and_congr_left fun _ => exists_congr fun p => and_congr_right fun _ => ?_
    rw [← Item.expected?_eq_some_iff, hn, Option.some_inj, eq_comm]

/-- The worklist when the next item is there already. -/
def skip (w : Worklist) (rest : List Item) : Worklist :=
  { w with pending := rest }

/-- The worklist when the next item is new. -/
def expand (g : Grammar) (w : Worklist) (item : Item) (rest : List Item) : Worklist where
  items := w.items.add item
  pending := (pulled g (w.items.add item) item).reverse ++ rest

variable {w : Worklist} {item : Item} {rest : List Item}

theorem step_of_pending_nil (hpending : w.pending = []) : step g w = .last w := by
  simp [step, hpending]

theorem step_of_mem (hpending : w.pending = item :: rest) (hitem : item ∈ w.items.toList) :
    step g w = .next (w.skip rest) := by
  simp [step, hpending, Roster.contains_iff.mpr hitem, skip]

theorem step_of_not_mem (hpending : w.pending = item :: rest) (hitem : item ∉ w.items.toList) :
    step g w = .next (w.expand g item rest) := by
  simp [step, hpending, mt Roster.contains_iff.mp hitem, expand]

/-- Only items are met that free moves reach from the kernel, and none of these is lost. -/
structure Sound (g : Grammar) (kernel : List Item) (w : Worklist) : Prop where
  reached : ∀ item, item ∈ w.items.toList ∨ item ∈ w.pending →
    ∃ start ∈ kernel, Relation.ReflTransGen (FreeMove g) start item
  kernel_met : ∀ item ∈ kernel, item ∈ w.items.toList ∨ item ∈ w.pending
  moves_met : ∀ item ∈ w.items.toList, ∀ next, FreeMove g item next →
    next ∈ w.items.toList ∨ next ∈ w.pending

theorem sound_start (kernel : List Item) : Sound g kernel (start kernel) where
  reached item hitem := by
    rcases hitem with hnone | hitem
    · exact absurd hnone List.not_mem_nil
    · exact ⟨item, List.mem_reverse.mp hitem, .refl⟩
  kernel_met item hitem := .inr (List.mem_reverse.mpr hitem)
  moves_met item hitem := absurd hitem List.not_mem_nil

namespace Sound

variable {kernel : List Item} (hw : Sound g kernel w) (hpending : w.pending = item :: rest)

include hw hpending

theorem skip (hitem : item ∈ w.items.toList) : Sound g kernel (w.skip rest) := by
  have hmet {other : Item} (hother : other ∈ w.items.toList ∨ other ∈ w.pending) :
      other ∈ w.items.toList ∨ other ∈ rest := by
    rw [hpending, List.mem_cons] at hother
    rcases hother with hfound | rfl | hrest
    · exact .inl hfound
    · exact .inl hitem
    · exact .inr hrest
  exact {
    reached := fun other hother => hw.reached other
      (hother.imp_right fun hrest => hpending ▸ List.mem_cons_of_mem _ hrest)
    kernel_met := fun other hother => hmet (hw.kernel_met other hother)
    moves_met := fun other hother next hmove => hmet (hw.moves_met other hother next hmove) }

theorem expand (hg : g.WellFormed) : Sound g kernel (w.expand g item rest) := by
  have hitem := hw.reached item (.inr (hpending ▸ List.mem_cons_self))
  have hmet {other : Item} (hother : other ∈ w.items.toList ∨ other ∈ w.pending) :
      other ∈ (w.items.add item).toList ∨
        other ∈ (pulled g (w.items.add item) item).reverse ++ rest := by
    rw [hpending, List.mem_cons] at hother
    rcases hother with hfound | rfl | hrest
    · exact .inl (Roster.mem_add.mpr (.inl hfound))
    · exact .inl (Roster.mem_add.mpr (.inr rfl))
    · exact .inr (List.mem_append_right _ hrest)
  exact {
    reached := by
      intro other hother
      rcases hother with hfound | hnew
      · rcases Roster.mem_add.mp hfound with hfound | rfl
        · exact hw.reached other (.inl hfound)
        · exact hitem
      · rcases List.mem_append.mp hnew with hpulled | hrest
        · obtain ⟨start, hstart, hmoves⟩ := hitem
          have hmove := ((mem_pulled hg).mp (List.mem_reverse.mp hpulled)).1
          exact ⟨start, hstart, hmoves.tail hmove⟩
        · exact hw.reached other (.inr (hpending ▸ List.mem_cons_of_mem _ hrest))
    kernel_met := fun other hother => hmet (hw.kernel_met other hother)
    moves_met := by
      intro other hother next hmove
      rcases Roster.mem_add.mp hother with hother | rfl
      · exact hmet (hw.moves_met other hother next hmove)
      · by_cases hnext : next ∈ (w.items.add other).toList
        · exact .inl hnext
        · have hpulled := (mem_pulled hg).mpr ⟨hmove, hnext⟩
          exact .inr (List.mem_append_left _ (List.mem_reverse.mpr hpulled)) }

end Sound

/-- All items that can be met from a kernel. -/
def stock (g : Grammar) (kernel : List Item) : Finset Item :=
  (kernel ++ g.productionIds.map Item.start).toFinset

theorem mem_stock {kernel : List Item} {start item : Item} (hstart : start ∈ kernel)
    (hmoves : Relation.ReflTransGen (FreeMove g) start item) : item ∈ stock g kernel := by
  rw [stock, List.mem_toFinset, List.mem_append]
  cases hmoves with
  | refl => exact .inl hstart
  | tail _ hmove =>
    obtain ⟨p, hp, -, rfl⟩ := hmove
    exact .inr (List.mem_map_of_mem hp)

/-- The items that are still to be found count for more than the stack. -/
def remaining (g : Grammar) (kernel : List Item) (w : Worklist) : Nat × Nat :=
  ((stock g kernel \ w.items.toList.toFinset).card, w.pending.length)

/-- Fewer items are to be found, or as many and the stack is shorter. -/
def Down (g : Grammar) (kernel : List Item) : Worklist → Worklist → Prop :=
  InvImage (Prod.Lex (· < ·) (· < ·)) (remaining g kernel)

theorem wellFounded_down (kernel : List Item) : WellFounded (Down g kernel) :=
  InvImage.wf _ (WellFounded.prod_lex wellFounded_lt wellFounded_lt)

theorem down_skip {kernel : List Item} (hpending : w.pending = item :: rest) :
    Down g kernel (w.skip rest) w := by
  refine Prod.Lex.right _ ?_
  simp [skip, hpending]

theorem Sound.down_expand {kernel : List Item} (hw : Sound g kernel w)
    (hpending : w.pending = item :: rest) (hitem : item ∉ w.items.toList) :
    Down g kernel (w.expand g item rest) w := by
  obtain ⟨start, hstart, hmoves⟩ := hw.reached item (.inr (hpending ▸ List.mem_cons_self))
  refine Prod.Lex.left _ _ (Finset.card_lt_card ?_)
  refine Finset.ssubset_iff_subset_ne.mpr ⟨fun other hother => ?_, fun heq => ?_⟩
  · rw [Finset.mem_sdiff, List.mem_toFinset] at hother ⊢
    exact ⟨hother.1, fun hfound => hother.2 (Roster.mem_add.mpr (.inl hfound))⟩
  · have hmissing : item ∈ stock g kernel \ w.items.toList.toFinset := by
      rw [Finset.mem_sdiff, List.mem_toFinset]
      exact ⟨mem_stock hstart hmoves, hitem⟩
    rw [← heq, Finset.mem_sdiff, List.mem_toFinset] at hmissing
    exact hmissing.2 (Roster.mem_add.mpr (.inr rfl))

theorem Sound.step (hg : g.WellFormed) {kernel : List Item} {next : Worklist}
    (hw : Sound g kernel w) (hnext : step g w = .next next) :
    Sound g kernel next ∧ Down g kernel next w := by
  cases hpending : w.pending with
  | nil =>
    rw [step_of_pending_nil hpending] at hnext
    cases hnext
  | cons item rest =>
    by_cases hitem : item ∈ w.items.toList
    · rw [step_of_mem hpending hitem] at hnext
      obtain rfl := Loop.Step.next.inj hnext
      exact ⟨hw.skip hpending hitem, down_skip hpending⟩
    · rw [step_of_not_mem hpending hitem] at hnext
      obtain rfl := Loop.Step.next.inj hnext
      exact ⟨hw.expand hpending hg, hw.down_expand hpending hitem⟩

/-- When nothing is pending, the items are those that free moves reach from the kernel. -/
theorem Sound.mem_items_iff {kernel : List Item} (hw : Sound g kernel w) (hdone : w.pending = [])
    {item : Item} : item ∈ w.items.toList ↔
      ∃ start ∈ kernel, Relation.ReflTransGen (FreeMove g) start item := by
  have hmet {other : Item} (hother : other ∈ w.items.toList ∨ other ∈ w.pending) :
      other ∈ w.items.toList := by
    rw [hdone] at hother
    exact hother.resolve_right List.not_mem_nil
  refine ⟨fun hitem => hw.reached item (.inl hitem), ?_⟩
  rintro ⟨start, hstart, hmoves⟩
  induction hmoves with
  | refl => exact hmet (hw.kernel_met start hstart)
  | tail _ hmove ih => exact hmet (hw.moves_met _ ih _ hmove)

end Worklist

/-- The closure of a kernel by expanding items as long as there are any, sorted in the end. -/
noncomputable def closureLoop (g : Grammar) (kernel : List Item) : Option (List Item) := do
  let w ← Loop.forever (fun w => some (Worklist.step g w)) (Worklist.start kernel)
  return sortItems g w.items.toList

/-- Whatever the kernel, the items to expand run out. -/
theorem exists_closureLoop (hg : g.WellFormed) (kernel : List Item) :
    ∃ items, closureLoop g kernel = some (sortItems g items) ∧ ∀ item, item ∈ items ↔
      ∃ start ∈ kernel, Relation.ReflTransGen (FreeMove g) start item := by
  obtain ⟨w, final, hw, hlast, hforever⟩ :=
    Loop.exists_forever_of_wellFounded (Worklist.wellFounded_down kernel)
      (fun _ _ hw hnext => hw.step hg hnext) (Worklist.sound_start kernel)
  cases hpending : w.pending with
  | nil =>
    rw [Worklist.step_of_pending_nil hpending] at hlast
    obtain rfl := Loop.Step.last.inj hlast
    refine ⟨w.items.toList, ?_, fun item => hw.mem_items_iff hpending⟩
    rw [closureLoop, hforever]
    rfl
  | cons item rest =>
    by_cases hitem : item ∈ w.items.toList
    · rw [Worklist.step_of_mem hpending hitem] at hlast
      cases hlast
    · rw [Worklist.step_of_not_mem hpending hitem] at hlast
      cases hlast

/-- Expanding items one by one and opening nonterminals have the same result. -/
theorem closureLoop_eq (hg : g.WellFormed) {kernel : List Item} (hkernel : g.HasItems kernel) :
    closureLoop g kernel = some (closure g kernel) := by
  obtain ⟨items, hloop, hmem⟩ := exists_closureLoop hg kernel
  have hitems : g.HasItems items := by
    intro item hitem
    obtain ⟨start, hstart, hmoves⟩ := (hmem item).mp hitem
    exact production_mem_of_freeMoves hmoves (hkernel start hstart)
  rw [hloop]
  refine congrArg some ((ascending_sortItems hg hitems).eq_of_mem_iff
    (ascending_closure hg hkernel) fun item => ?_)
  rw [mem_sortItems, hmem, mem_closure_iff hg hkernel]

end ShiftReduce
