import Std.Data.String.ToNat

/-!
# Written numbers

Numbers in decimal digits: no two numbers are written alike, and only zero begins with a zero.
-/

namespace ShiftReduce

theorem toDigits_inj {m n : Nat} (heq : Nat.toDigits 10 m = Nat.toDigits 10 n) : m = n := by
  rw [← Nat.toList_repr, ← Nat.toList_repr, String.toList_inj] at heq
  exact Nat.repr_injective heq

/-- Positive numbers are written without a leading zero. -/
theorem exists_toDigits_eq_cons {index : Nat} (hindex : 1 ≤ index) :
    ∃ first digits, Nat.toDigits 10 index = first :: digits ∧ first ≠ '0' := by
  induction index using Nat.strongRecOn with
  | ind index ih =>
    rw [Nat.toDigits_eq_if (by decide)]
    split
    next hlt =>
      have hdigit : ∀ i < 10, 1 ≤ i → Nat.digitChar i ≠ '0' := by decide
      exact ⟨_, _, rfl, hdigit index hlt hindex⟩
    next hle =>
      obtain ⟨first, digits, hdigits, hfirst⟩ := ih (index / 10) (by omega) (by omega)
      exact ⟨first, _, by rw [hdigits]; rfl, hfirst⟩

end ShiftReduce
