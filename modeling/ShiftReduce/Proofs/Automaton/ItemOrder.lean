import ShiftReduce.Automaton.ItemSet
import ShiftReduce.Proofs.Collection.Sorted
import ShiftReduce.Proofs.Grammar.WellFormed

/-!
# The order of items

Items are compared by the names of their productions and then by marker. In a well-formed grammar
only equal items compare alike, so a sorted list of items is settled by its members.
-/

namespace ShiftReduce

variable {g : Grammar}

namespace Item

/-- Comparing markers alone makes no difference for items of one production. -/
theorem compare_eq_compareLex :
    Item.compare g = compareLex (compareOn fun item => g.productionNames item.production)
      (compareOn Item.marker) := by
  funext a b
  simp only [Item.compare, compareLex, compareOn]
  split
  next heq => rw [heq, Std.compare_self, Ordering.then]
  next => rfl

instance : Std.TransCmp (Item.compare g) := by
  rw [compare_eq_compareLex]
  infer_instance

theorem eq_of_compare (hg : g.WellFormed) {a b : Item} (ha : a.production ∈ g.productionIds)
    (hb : b.production ∈ g.productionIds) (hcompare : a.compare g b = .eq) : a = b := by
  rw [compare_eq_compareLex] at hcompare
  obtain ⟨hnames, hmarker⟩ := Ordering.then_eq_eq.mp hcompare
  have hproduction := hg.eq_of_productionNames ha hb (Std.LawfulEqOrd.eq_of_compare hnames)
  have hplace : a.marker = b.marker := Std.LawfulEqOrd.eq_of_compare hmarker
  cases a
  cases b
  simp_all

end Item

/-- The items ascend strictly in the order of items. -/
def Ascending (g : Grammar) (items : List Item) : Prop :=
  items.Pairwise fun a b => a.compare g b = .lt

namespace Ascending

theorem nodup {items : List Item} (hitems : Ascending g items) : items.Nodup :=
  nodup_of_pairwise_lt _ hitems

theorem eq_of_mem_iff {items others : List Item} (hitems : Ascending g items)
    (hothers : Ascending g others) (hmem : ∀ item, item ∈ items ↔ item ∈ others) :
    items = others :=
  eq_of_pairwise_lt _ hitems hothers hmem

end Ascending

theorem mem_sortItems {items : List Item} {item : Item} :
    item ∈ sortItems g items ↔ item ∈ items := by
  rw [sortItems, mem_sortBy, mem_distinct]

theorem ascending_sortItems (hg : g.WellFormed) {items : List Item}
    (hitems : ∀ item ∈ items, item.production ∈ g.productionIds) :
    Ascending g (sortItems g items) :=
  pairwise_lt_sortBy (Item.compare g) (nodup_distinct items) fun a ha b hb heq =>
    Item.eq_of_compare hg (hitems a (mem_distinct.mp ha)) (hitems b (mem_distinct.mp hb)) heq

end ShiftReduce
