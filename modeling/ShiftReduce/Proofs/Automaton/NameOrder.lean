import ShiftReduce.Proofs.Automaton.ItemOrder
import ShiftReduce.Proofs.Grammar.Build

/-!
# Items are told apart by names

The order of items looks at names and markers only. It is a total order all the same, since a
well-formed grammar has no two productions whose names agree throughout: nonterminals have names of
their own, repeated productions are dropped, and a name on right-hand sides always means one symbol.
-/

namespace ShiftReduce

variable {g : Grammar}

/-- Names compare one after the other, the left-hand name first. -/
theorem Grammar.compare_productionNames (p q : ProductionId) :
    compare (g.productionNames p) (g.productionNames q) =
      (compare (g.nonterminal (g.production p).left).name
        (g.nonterminal (g.production q).left).name).then
      (compare ((g.production p).right.toList.map g.symbolName)
        ((g.production q).right.toList.map g.symbolName)) := by
  rw [productionNames, productionNames, List.compare_cons_cons]

/-- The order of items by names and markers is total, and only equal items compare alike. -/
structure OrdersItems (g : Grammar) : Prop where
  /-- The left-hand names count first, then those on the right-hand sides, then the markers. -/
  compare_eq : ∀ a b : Item, a.compare g b =
    ((compare (g.nonterminal (g.production a.production).left).name
        (g.nonterminal (g.production b.production).left).name).then
      (compare ((g.production a.production).right.toList.map g.symbolName)
        ((g.production b.production).right.toList.map g.symbolName))).then
      (compare a.marker b.marker)
  compare_self : ∀ a : Item, a.compare g a = .eq
  compare_swap : ∀ a b : Item, b.compare g a = (a.compare g b).swap
  lt_trans : ∀ a b c : Item, a.compare g b = .lt → b.compare g c = .lt → a.compare g c = .lt
  isLE_trans : ∀ a b c : Item, (a.compare g b).isLE = true → (b.compare g c).isLE = true →
    (a.compare g c).isLE = true
  isLE_or_isLE : ∀ a b : Item, (a.compare g b).isLE = true ∨ (b.compare g a).isLE = true
  /-- Markers may be any numbers here, also such as stand beyond the end. -/
  compare_eq_iff : ∀ a b : Item, a.production ∈ g.productionIds → b.production ∈ g.productionIds →
    (a.compare g b = .eq ↔ a.production = b.production ∧ a.marker = b.marker)

theorem ordersItems {declarations : List Declaration}
    (hg : Grammar.ofDeclarations declarations = .ok g) : OrdersItems g where
  compare_eq a b := by
    rw [Item.compare_eq_compareLex]
    simp only [compareLex, compareOn, Grammar.compare_productionNames]
  compare_self _ := Std.ReflCmp.compare_self
  compare_swap _ _ := Std.OrientedCmp.eq_swap
  lt_trans _ _ _ := Std.TransCmp.lt_trans
  isLE_trans _ _ _ := Std.TransCmp.isLE_trans
  isLE_or_isLE := isLE_or_isLE
  compare_eq_iff a b ha hb := by
    have hwf := Grammar.wellFormed_of_ofDeclarations hg
    constructor
    · intro hcompare
      obtain rfl := Item.eq_of_compare hwf ha hb hcompare
      exact ⟨rfl, rfl⟩
    · rintro ⟨hproduction, hmarker⟩
      obtain rfl : a = b := by
        cases a
        cases b
        simp_all
      exact Std.ReflCmp.compare_self

/-- The goal and the end of input are mentioned, and there is a nonterminal with the name of the
latter. -/
def reservedDeclarations : List Declaration :=
  [.rule "S" ["_parserInternalStart", "SCAN_EOF"] "", .rule "SCAN_EOF" ["a"] "",
    .rule "S" ["SCAN_EOF"] "", .rule "S" ["SCAN_EOF"] "again", .resultType "S" "int", .start "S"]

def reserved : Grammar :=
  (Grammar.ofDeclarations reservedDeclarations).toOption.getD default

/-- The repeated production is dropped, so the names of the other ones tell all items apart. -/
theorem reserved_ordersItems :
    Grammar.ofDeclarations reservedDeclarations = .ok reserved ∧ OrdersItems reserved ∧
      sortItems reserved [⟨⟨3⟩, 0⟩, ⟨⟨1⟩, 7⟩, ⟨⟨2⟩, 1⟩, ⟨⟨1⟩, 2⟩, ⟨⟨0⟩, 0⟩] =
        [⟨⟨2⟩, 1⟩, ⟨⟨1⟩, 2⟩, ⟨⟨1⟩, 7⟩, ⟨⟨3⟩, 0⟩, ⟨⟨0⟩, 0⟩] := by
  have hg : Grammar.ofDeclarations reservedDeclarations = .ok reserved :=
    eq_ok_getD_of_isOk (by decide +kernel)
  exact ⟨hg, ordersItems hg, by decide +kernel⟩

end ShiftReduce
