import ShiftReduce.Proofs.Automaton.Closure

/-!
# The nondeterministic automaton of items

An item is reached over a string of symbols when advancing over them, with free moves in between,
leads to it from the start item of the goal. `goto` computes one step of it on sets of items.
-/

namespace ShiftReduce

variable {g : Grammar}

/-- The items that the symbols lead to. -/
inductive Reaches (g : Grammar) : List Symbol → Item → Prop
  | start : Reaches g [] (.start .goal)
  | advance {symbols : List Symbol} {item : Item} {x : Symbol} (hitem : Reaches g symbols item)
      (hnext : item.next? g = some x) : Reaches g (symbols ++ [x]) item.advance
  | free {symbols : List Symbol} {item next : Item} (hitem : Reaches g symbols item)
      (hmove : FreeMove g item next) : Reaches g symbols next

namespace Reaches

theorem free_moves {symbols : List Symbol} {item reached : Item} (hitem : Reaches g symbols item)
    (hmoves : Relation.ReflTransGen (FreeMove g) item reached) : Reaches g symbols reached := by
  induction hmoves with
  | refl => exact hitem
  | tail _ hmove ih => exact ih.free hmove

theorem production_mem (hg : g.WellFormed) {symbols : List Symbol} {item : Item}
    (hitem : Reaches g symbols item) : item.production ∈ g.productionIds := by
  induction hitem with
  | start => exact hg.goal_mem
  | advance _ _ ih => exact ih
  | free _ hmove => exact hmove.production_mem

/-- Over no symbols only free moves lead on. -/
theorem nil_iff {item : Item} :
    Reaches g [] item ↔ Relation.ReflTransGen (FreeMove g) (.start .goal) item := by
  constructor
  · intro hitem
    generalize hsymbols : ([] : List Symbol) = symbols at hitem
    induction hitem with
    | start => exact .refl
    | advance => simp at hsymbols
    | free _ hmove ih => exact (ih hsymbols).tail hmove
  · exact fun hmoves => Reaches.start.free_moves hmoves

/-- The last symbol is passed by one item, and free moves follow. -/
theorem concat_iff {symbols : List Symbol} {x : Symbol} {item : Item} :
    Reaches g (symbols ++ [x]) item ↔ ∃ passed, Reaches g symbols passed ∧
      passed.next? g = some x ∧ Relation.ReflTransGen (FreeMove g) passed.advance item := by
  constructor
  · intro hitem
    generalize hall : symbols ++ [x] = all at hitem
    induction hitem with
    | start => simp at hall
    | advance hitem hnext =>
      obtain ⟨rfl, rfl⟩ := List.append_inj' hall rfl |>.imp id List.singleton_inj.mp
      exact ⟨_, hitem, hnext, .refl⟩
    | free _ hmove ih =>
      obtain ⟨passed, hpassed, hnext, hmoves⟩ := ih hall
      exact ⟨passed, hpassed, hnext, hmoves.tail hmove⟩
  · rintro ⟨passed, hpassed, hnext, hmoves⟩
    exact (hpassed.advance hnext).free_moves hmoves

/-- The symbols before the marker are the last that were passed, since the production was begun. -/
theorem exists_start {symbols : List Symbol} {item : Item} (hitem : Reaches g symbols item) :
    ∃ before, symbols = before ++ (item.right g).toList.take item.marker ∧
      item.marker ≤ (item.right g).size ∧ Reaches g before (.start item.production) := by
  induction hitem with
  | start => exact ⟨[], by simp [Item.start], by simp [Item.start], .start⟩
  | @advance symbols item x _ hnext ih =>
    obtain ⟨before, rfl, -, hstart⟩ := ih
    have hget : (item.right g)[item.marker]? = some x := hnext
    refine ⟨before, ?_, (Array.getElem?_eq_some_iff.mp hget).1, hstart⟩
    have htake : (item.right g).toList.take (item.marker + 1) =
        (item.right g).toList.take item.marker ++ [x] := by
      rw [List.take_add_one, Array.getElem?_toList, hget]
      rfl
    rw [List.append_assoc, ← htake]
    rfl
  | @free symbols item next hitem hmove ih =>
    obtain ⟨p, hp, hnext, rfl⟩ := hmove
    exact ⟨symbols, by simp [Item.start], by simp [Item.start], hitem.free ⟨p, hp, hnext, rfl⟩⟩

/-- Except for the goal's, a production is begun where its left-hand side is expected. -/
theorem exists_expecting {symbols : List Symbol} {p : ProductionId}
    (hstart : Reaches g symbols (.start p)) (hgoal : p ≠ .goal) :
    ∃ item, Reaches g symbols item ∧ item.next? g = some (.nonterminal (g.production p).left) := by
  generalize hitem : Item.start p = item at hstart
  cases hstart with
  | start => exact absurd (congrArg Item.production hitem) hgoal
  | advance => exact absurd (congrArg Item.marker hitem) (Nat.succ_ne_zero _).symm
  | free hbefore hmove =>
    obtain ⟨q, hq, hnext, rfl⟩ := hmove
    obtain rfl : p = q := congrArg Item.production hitem
    exact ⟨_, hbefore, hnext⟩

/-- A complete item has passed its whole right-hand side. -/
theorem exists_before_right {symbols : List Symbol} {item : Item} (hitem : Reaches g symbols item)
    (hcomplete : item.isComplete g = true) :
    ∃ before, symbols = before ++ (item.right g).toList ∧
      Reaches g before (.start item.production) := by
  obtain ⟨before, hsymbols, -, hstart⟩ := hitem.exists_start
  refine ⟨before, ?_, hstart⟩
  rwa [List.take_of_length_le (by simpa [Item.isComplete] using hcomplete)] at hsymbols

end Reaches

/-- The items that stand behind a symbol once it has been passed. -/
def passed (g : Grammar) (items : List Item) (x : Symbol) : List Item :=
  (items.filter fun item => item.next? g == some x).map Item.advance

theorem mem_passed {items : List Item} {x : Symbol} {item : Item} :
    item ∈ passed g items x ↔
      ∃ before ∈ items, before.next? g = some x ∧ item = before.advance := by
  simp only [passed, List.mem_map, List.mem_filter, beq_iff_eq, and_assoc, eq_comm (a := item)]

theorem passed_eq_nil_iff {items : List Item} {x : Symbol} :
    passed g items x = [] ↔ ∀ item ∈ items, item.next? g ≠ some x := by
  simp [passed, List.filter_eq_nil_iff]

theorem hasItems_passed {items : List Item} (hitems : g.HasItems items) (x : Symbol) :
    g.HasItems (passed g items x) := by
  intro item hitem
  obtain ⟨before, hbefore, -, rfl⟩ := mem_passed.mp hitem
  exact hitems before hbefore

theorem goto_eq_closure_passed (items : List Item) (x : Symbol) :
    goto g items x = closure g (passed g items x) := rfl

/-- A list of items holds what the symbols lead to. -/
def HoldsReached (g : Grammar) (symbols : List Symbol) (items : List Item) : Prop :=
  ∀ item, item ∈ items ↔ Reaches g symbols item

namespace HoldsReached

variable (hg : g.WellFormed)

include hg

theorem hasItems {symbols : List Symbol} {items : List Item}
    (hitems : HoldsReached g symbols items) : g.HasItems items :=
  fun item hitem => ((hitems item).mp hitem).production_mem hg

theorem initial : HoldsReached g [] (initialItems g) := by
  intro item
  rw [initialItems, mem_closure_iff hg hg.hasItems_goal, Reaches.nil_iff]
  simp

theorem goto {symbols : List Symbol} {items : List Item} (hitems : HoldsReached g symbols items)
    (x : Symbol) : HoldsReached g (symbols ++ [x]) (goto g items x) := by
  intro item
  rw [goto_eq_closure_passed, mem_closure_iff hg (hasItems_passed (hitems.hasItems hg) x),
    Reaches.concat_iff]
  constructor
  · rintro ⟨start, hstart, hmoves⟩
    obtain ⟨before, hbefore, hnext, rfl⟩ := mem_passed.mp hstart
    exact ⟨before, (hitems before).mp hbefore, hnext, hmoves⟩
  · rintro ⟨before, hbefore, hnext, hmoves⟩
    exact ⟨before.advance, mem_passed.mpr ⟨before, (hitems before).mpr hbefore, hnext, rfl⟩, hmoves⟩

end HoldsReached

end ShiftReduce
