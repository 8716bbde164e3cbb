import Mathlib.Order.Bounds.Defs
import ShiftReduce.Proofs.Automaton.Closure
import ShiftReduce.Proofs.Grammar.Build

/-!
# Closures are least and canonical

A closure is the least closed set that holds its kernel, listed in ascending order. So only the
members of the kernel count, not their order and not how often they stand there, and closing a
closure changes nothing.
-/

namespace ShiftReduce

variable {g : Grammar}

/-- With an item that expects a nonterminal the set has the start items of all its productions. -/
def IsClosed (g : Grammar) (items : Set Item) : Prop :=
  ∀ item ∈ items, ∀ n, item.next? g = some (.nonterminal n) →
    ∀ p ∈ g.productionIds, (g.production p).left = n → Item.start p ∈ items

namespace IsClosed

variable {items : Set Item} (hitems : IsClosed g items)

include hitems

theorem freeMove {item next : Item} (hitem : item ∈ items) (hmove : FreeMove g item next) :
    next ∈ items := by
  obtain ⟨p, hp, hnext, rfl⟩ := hmove
  exact hitems item hitem _ hnext p hp rfl

theorem freeMoves {item reached : Item} (hitem : item ∈ items)
    (hmoves : Relation.ReflTransGen (FreeMove g) item reached) : reached ∈ items := by
  induction hmoves with
  | refl => exact hitem
  | tail _ hmove ih => exact hitems.freeMove ih hmove

end IsClosed

section Closure

variable (hg : g.WellFormed) {kernel other : List Item} (hkernel : g.HasItems kernel)

include hg hkernel

theorem kernel_subset_closure : kernel ⊆ closure g kernel := by
  intro item hitem
  exact (mem_closure_iff hg hkernel).mpr ⟨item, hitem, .refl⟩

theorem isClosed_closure : IsClosed g {item | item ∈ closure g kernel} := by
  rintro item hitem n hnext p hp rfl
  obtain ⟨start, hstart, hmoves⟩ := (mem_closure_iff hg hkernel).mp hitem
  exact (mem_closure_iff hg hkernel).mpr ⟨start, hstart, hmoves.tail ⟨p, hp, hnext, rfl⟩⟩

theorem isLeast_closure :
    IsLeast {items | (∀ item ∈ kernel, item ∈ items) ∧ IsClosed g items}
      {item | item ∈ closure g kernel} := by
  refine ⟨⟨fun _ hitem => kernel_subset_closure hg hkernel hitem, isClosed_closure hg hkernel⟩, ?_⟩
  rintro items ⟨hsub, hclosed⟩ item hitem
  obtain ⟨start, hstart, hmoves⟩ := (mem_closure_iff hg hkernel).mp hitem
  exact hclosed.freeMoves (hsub start hstart) hmoves

/-- Ascending lists with the same members are equal, and closures ascend. -/
theorem closure_eq_iff (hother : g.HasItems other) : closure g kernel = closure g other ↔
    ∀ item, item ∈ closure g kernel ↔ item ∈ closure g other := by
  refine ⟨fun heq item => by rw [heq], fun hmem => ?_⟩
  exact (ascending_closure hg hkernel).eq_of_mem_iff (ascending_closure hg hother) hmem

theorem closure_eq_of_mem_iff (hother : g.HasItems other)
    (hmem : ∀ item, item ∈ kernel ↔ item ∈ other) : closure g kernel = closure g other := by
  rw [closure_eq_iff hg hkernel hother]
  intro item
  simp only [mem_closure_iff hg hkernel, mem_closure_iff hg hother, hmem]

theorem closure_closure : closure g (closure g kernel) = closure g kernel := by
  have hclosure := hasItems_closure hg hkernel
  rw [closure_eq_iff hg hclosure hkernel]
  intro item
  constructor
  · intro hitem
    exact (isLeast_closure hg hclosure).2 ⟨fun _ => id, isClosed_closure hg hkernel⟩ hitem
  · exact fun hitem => kernel_subset_closure hg hclosure hitem

end Closure

/-- Every list of items of the grammar, with whatever markers, has one closed form. -/
structure ClosesCanonically (g : Grammar) : Prop where
  nodup : ∀ kernel, g.HasItems kernel → (closure g kernel).Nodup
  ascending : ∀ kernel, g.HasItems kernel → Ascending g (closure g kernel)
  isLeast : ∀ kernel, g.HasItems kernel →
    IsLeast {items | (∀ item ∈ kernel, item ∈ items) ∧ IsClosed g items}
      {item | item ∈ closure g kernel}
  /-- Order and repetitions in the kernel make no difference. -/
  eq_of_mem_iff : ∀ kernel other, g.HasItems kernel → g.HasItems other →
    (∀ item, item ∈ kernel ↔ item ∈ other) → closure g kernel = closure g other
  eq_iff : ∀ kernel other, g.HasItems kernel → g.HasItems other →
    (closure g kernel = closure g other ↔
      ∀ item, item ∈ closure g kernel ↔ item ∈ closure g other)
  closure_closure : ∀ kernel, g.HasItems kernel → closure g (closure g kernel) = closure g kernel

theorem closesCanonically {declarations : List Declaration}
    (hg : Grammar.ofDeclarations declarations = .ok g) : ClosesCanonically g := by
  have hwf := Grammar.wellFormed_of_ofDeclarations hg
  exact {
    nodup _ hkernel := (ascending_closure hwf hkernel).nodup
    ascending _ hkernel := ascending_closure hwf hkernel
    isLeast _ hkernel := isLeast_closure hwf hkernel
    eq_of_mem_iff _ _ hkernel hother := closure_eq_of_mem_iff hwf hkernel hother
    eq_iff _ _ hkernel hother := closure_eq_iff hwf hkernel hother
    closure_closure _ hkernel := closure_closure hwf hkernel }

/-- Productions that begin with their own left-hand sides, one of them through another. -/
def leftRecursiveDeclarations : List Declaration :=
  [.rule "E" ["E", "+", "T"] "", .rule "E" ["T"] "", .rule "T" ["E", "!"] "", .rule "T" ["id"] "",
    .resultType "E" "int", .start "E"]

def leftRecursive : Grammar :=
  (Grammar.ofDeclarations leftRecursiveDeclarations).toOption.getD default

/-- An item that stands twice in the kernel, and one with its marker beyond the end. -/
theorem leftRecursive_closesCanonically :
    Grammar.ofDeclarations leftRecursiveDeclarations = .ok leftRecursive ∧
      ClosesCanonically leftRecursive ∧
      leftRecursive.HasItems [⟨⟨1⟩, 2⟩, ⟨⟨4⟩, 7⟩, ⟨⟨1⟩, 2⟩] ∧
      closure leftRecursive [⟨⟨1⟩, 2⟩, ⟨⟨4⟩, 7⟩, ⟨⟨1⟩, 2⟩] =
        [⟨⟨1⟩, 0⟩, ⟨⟨1⟩, 2⟩, ⟨⟨2⟩, 0⟩, ⟨⟨3⟩, 0⟩, ⟨⟨4⟩, 0⟩, ⟨⟨4⟩, 7⟩] := by
  have hg : Grammar.ofDeclarations leftRecursiveDeclarations = .ok leftRecursive :=
    eq_ok_getD_of_isOk (by decide +kernel)
  have hkernel : leftRecursive.HasItems [⟨⟨1⟩, 2⟩, ⟨⟨4⟩, 7⟩, ⟨⟨1⟩, 2⟩] := by
    unfold Grammar.HasItems
    decide +kernel
  exact ⟨hg, closesCanonically hg, hkernel, by decide +kernel⟩

end ShiftReduce
