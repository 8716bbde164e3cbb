/-!
# Orders by a key

Elements that are told apart by a key are ordered by it.
-/

namespace ShiftReduce

universe u v

/-- Elements that compare alike by a key are equal when no two share a key. -/
theorem lawfulEqCmp_compareOn {α : Type u} {κ : Type v} [Ord κ] [Std.LawfulEqOrd κ] {key : α → κ}
    (hkey : ∀ a b, key a = key b → a = b) : Std.LawfulEqCmp (compareOn key) where
  compare_self := Std.ReflOrd.compare_self
  eq_of_compare heq := hkey _ _ (Std.LawfulEqOrd.eq_of_compare heq)

end ShiftReduce
