import Mathlib.Data.List.Perm.Basic
import ShiftReduce.Collection.Sort

/-!
# Sorting by a comparison

Sorting by a transitive comparison ascends. It ascends strictly when no element stands twice in the
list and different elements do not compare alike. A strictly ascending list is settled by its
members.
-/

namespace ShiftReduce

universe u

variable {α : Type u} {cmp : α → α → Ordering} [Std.TransCmp cmp]

theorem isLE_or_isLE (a b : α) : (cmp a b).isLE = true ∨ (cmp b a).isLE = true := by
  cases hle : (cmp a b).isLE with
  | true => exact .inl rfl
  | false =>
    have hlt : cmp b a = .lt := Std.OrientedCmp.lt_of_not_isLE (Bool.eq_false_iff.mp hle)
    exact .inr (by rw [hlt]; rfl)

theorem pairwise_sortBy_isLE (xs : List α) :
    (sortBy (fun a b => (cmp a b).isLE) xs).Pairwise fun a b => (cmp a b).isLE = true :=
  pairwise_sortBy (fun _ _ _ => Std.TransCmp.isLE_trans) isLE_or_isLE xs

variable (cmp) in
theorem pairwise_lt_sortBy {xs : List α} (hnodup : xs.Nodup)
    (heq : ∀ a ∈ xs, ∀ b ∈ xs, cmp a b = .eq → a = b) :
    (sortBy (fun a b => (cmp a b).isLE) xs).Pairwise fun a b => cmp a b = .lt := by
  have hdistinct := (perm_sortBy (fun a b => (cmp a b).isLE) xs).nodup_iff.mpr hnodup
  have hboth := (pairwise_sortBy_isLE xs).and (List.nodup_iff_pairwise_ne.mp hdistinct)
  refine hboth.imp_of_mem fun {a b} ha hb hle => ?_
  cases hcompare : cmp a b with
  | lt => rfl
  | eq => exact absurd (heq a (mem_sortBy.mp ha) b (mem_sortBy.mp hb) hcompare) hle.2
  | gt => rw [hcompare] at hle; cases hle.1

variable (cmp)

theorem nodup_of_pairwise_lt {xs : List α} (hxs : xs.Pairwise fun a b => cmp a b = .lt) :
    xs.Nodup := by
  refine List.nodup_iff_pairwise_ne.mpr (hxs.imp fun {a b} hlt heq => ?_)
  subst heq
  exact Std.OrientedCmp.not_lt_of_lt hlt hlt

/-- Strictly ascending lists with the same members are the same list. -/
theorem eq_of_pairwise_lt {xs ys : List α} (hxs : xs.Pairwise fun a b => cmp a b = .lt)
    (hys : ys.Pairwise fun a b => cmp a b = .lt) (hmem : ∀ a, a ∈ xs ↔ a ∈ ys) : xs = ys := by
  have hperm := (List.perm_ext_iff_of_nodup (nodup_of_pairwise_lt cmp hxs)
    (nodup_of_pairwise_lt cmp hys)).mpr hmem
  refine hperm.eq_of_pairwise (fun a b _ _ hlt hgt => ?_) hxs hys
  exact absurd hgt (Std.OrientedCmp.not_lt_of_lt hlt)

end ShiftReduce
