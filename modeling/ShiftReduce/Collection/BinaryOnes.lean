/-!
# Binary ones

The places of the ones among the binary digits of a number, by ascending place. Digits are halved
again and again, and halves without ones are passed over. `mem_binaryOnes` and `pairwise_binaryOnes`
describe the listing completely.
-/

namespace ShiftReduce

/-- The ones among the lowest `1 <<< depth` digits, the last of which has the place `start`. -/
def onesWithin : Nat → Nat → Nat → List Nat
  | 0, start, bits => if bits = 0 then [] else [start]
  | depth + 1, start, bits =>
    if bits = 0 then []
    else
      let half := 1 <<< depth
      onesWithin depth start (bits % 1 <<< half) ++ onesWithin depth (start + half) (bits >>> half)

/-- The places of the ones of a number. -/
def binaryOnes (n : Nat) : List Nat :=
  onesWithin (n.log2.log2 + 1) 0 n

theorem one_shiftLeft_add_self (width : Nat) :
    1 <<< (width + width) = (1 <<< width) * (1 <<< width) := by
  simp only [Nat.one_shiftLeft, Nat.pow_add]

theorem one_shiftLeft_pos (width : Nat) : 0 < 1 <<< width := by
  rw [Nat.one_shiftLeft]
  exact Nat.two_pow_pos width

theorem one_shiftLeft_succ (depth : Nat) : 1 <<< (depth + 1) = 1 <<< depth + 1 <<< depth := by
  simp only [Nat.one_shiftLeft]
  omega

theorem shiftRight_lt {bits width : Nat} (hbits : bits < 1 <<< (width + width)) :
    bits >>> width < 1 <<< width := by
  rw [Nat.shiftRight_eq_div_pow, ← Nat.one_shiftLeft]
  exact Nat.div_lt_of_lt_mul (one_shiftLeft_add_self width ▸ hbits)

theorem mem_onesWithin {depth start bits i : Nat} (hbits : bits < 1 <<< (1 <<< depth)) :
    i ∈ onesWithin depth start bits ↔ start ≤ i ∧ bits.testBit (i - start) = true := by
  induction depth generalizing start bits with
  | zero =>
    have hsmall : bits = 0 ∨ bits = 1 := by
      simp [Nat.one_shiftLeft] at hbits
      omega
    rcases hsmall with rfl | rfl
    · simp [onesWithin]
    · simp [onesWithin, Nat.testBit_one_eq_true_iff_self_eq_zero]
      omega
  | succ depth ih =>
    rw [onesWithin]
    split
    next hzero => simp [hzero]
    next hzero =>
      rw [one_shiftLeft_succ] at hbits
      generalize 1 <<< depth = half at *
      have hlow : bits % 1 <<< half < 1 <<< half := Nat.mod_lt _ (one_shiftLeft_pos half)
      simp only [List.mem_append, ih hlow, ih (shiftRight_lt hbits), Nat.testBit_shiftRight]
      rw [Nat.one_shiftLeft half, Nat.testBit_mod_two_pow]
      by_cases hi : i < start + half
      · have hnot : ¬ start + half ≤ i := by omega
        by_cases hs : start ≤ i
        · have hlt : i - start < half := by omega
          simp [hnot, hs, hlt]
        · simp [hnot, hs]
      · have hge : start + half ≤ i := by omega
        have hs : start ≤ i := by omega
        have hnot : ¬ i - start < half := by omega
        have heq : half + (i - (start + half)) = i - start := by omega
        simp [hge, hs, hnot, heq]

theorem lt_of_mem_onesWithin {depth start bits i : Nat} (hbits : bits < 1 <<< (1 <<< depth))
    (hi : i ∈ onesWithin depth start bits) : i < start + 1 <<< depth := by
  obtain ⟨hstart, hbit⟩ := (mem_onesWithin hbits).mp hi
  have hpow : 2 ^ (i - start) ≤ bits := Nat.ge_two_pow_of_testBit hbit
  rw [Nat.one_shiftLeft (1 <<< depth)] at hbits
  have hless := (Nat.pow_lt_pow_iff_right (by decide)).mp (Nat.lt_of_le_of_lt hpow hbits)
  omega

theorem pairwise_onesWithin {depth start bits : Nat} (hbits : bits < 1 <<< (1 <<< depth)) :
    (onesWithin depth start bits).Pairwise (· < ·) := by
  induction depth generalizing start bits with
  | zero => rw [onesWithin]; split <;> simp
  | succ depth ih =>
    rw [onesWithin]
    split
    next hzero => exact .nil
    next hzero =>
      rw [one_shiftLeft_succ] at hbits
      have hlow : bits % 1 <<< (1 <<< depth) < 1 <<< (1 <<< depth) :=
        Nat.mod_lt _ (one_shiftLeft_pos _)
      have hhigh := shiftRight_lt hbits
      refine List.pairwise_append.mpr ⟨ih hlow, ih hhigh, fun i hi j hj => ?_⟩
      have := lt_of_mem_onesWithin hlow hi
      have := ((mem_onesWithin hhigh).mp hj).1
      omega

theorem lt_one_shiftLeft_log2 (n : Nat) : n < 1 <<< (n.log2 + 1) := by
  rw [Nat.one_shiftLeft]
  exact Nat.lt_log2_self

theorem lt_one_shiftLeft_width (bits : Nat) : bits < 1 <<< (1 <<< (bits.log2.log2 + 1)) := by
  refine Nat.lt_of_lt_of_le (lt_one_shiftLeft_log2 bits) ?_
  rw [Nat.one_shiftLeft (bits.log2 + 1), Nat.one_shiftLeft (1 <<< _)]
  exact Nat.pow_le_pow_right (by decide) (lt_one_shiftLeft_log2 bits.log2)

theorem mem_binaryOnes {n i : Nat} : i ∈ binaryOnes n ↔ n.testBit i = true := by
  rw [binaryOnes, mem_onesWithin (lt_one_shiftLeft_width n)]
  simp

/-- The listing ascends strictly. -/
theorem pairwise_binaryOnes (n : Nat) : (binaryOnes n).Pairwise (· < ·) :=
  pairwise_onesWithin (lt_one_shiftLeft_width n)

end ShiftReduce
