import Mathlib.Data.List.Induction

/-!
# First occurrences

What erasing duplicates from the left keeps, read from the right: the last element of a list is kept
unless one that was kept before it stands for it. Which of two elements comes first stays the same.
-/

namespace ShiftReduce

universe u v

variable {α : Type u} {β : Type v}

theorem eraseDupsBy_loop_eq (r : α → α → Bool) (xs kept : List α) :
    List.eraseDupsBy.loop r xs kept =
      (xs.foldl (fun kept x => if kept.any (r x) then kept else x :: kept) kept).reverse := by
  induction xs generalizing kept with
  | nil => rfl
  | cons x xs ih =>
    rw [List.eraseDupsBy.loop, List.foldl_cons]
    cases kept.any (r x) <;> exact ih _

theorem eraseDupsBy_concat (r : α → α → Bool) (xs : List α) (x : α) :
    (xs ++ [x]).eraseDupsBy r =
      if (xs.eraseDupsBy r).any (r x) then xs.eraseDupsBy r else xs.eraseDupsBy r ++ [x] := by
  simp only [List.eraseDupsBy, eraseDupsBy_loop_eq, List.foldl_append, List.foldl_cons,
    List.foldl_nil, List.any_reverse]
  split <;> simp

theorem mem_of_mem_eraseDupsBy {r : α → α → Bool} {xs : List α} {x : α}
    (hx : x ∈ xs.eraseDupsBy r) : x ∈ xs := by
  induction xs using List.reverseRecOn with
  | nil => exact hx
  | append_singleton xs last ih =>
    rw [eraseDupsBy_concat] at hx
    split at hx
    next => exact List.mem_append_left _ (ih hx)
    next =>
      rw [List.mem_append] at hx ⊢
      exact hx.imp_left ih

theorem eraseDupsBy_congr {r s : α → α → Bool} {xs : List α}
    (hsame : ∀ a ∈ xs, ∀ b ∈ xs, r a b = s a b) : xs.eraseDupsBy r = xs.eraseDupsBy s := by
  induction xs using List.reverseRecOn with
  | nil => rfl
  | append_singleton xs last ih =>
    have hbefore := ih fun a ha b hb =>
      hsame a (List.mem_append_left _ ha) b (List.mem_append_left _ hb)
    have hany : (xs.eraseDupsBy s).any (r last) = (xs.eraseDupsBy s).any (s last) := by
      rw [Bool.eq_iff_iff, List.any_eq_true, List.any_eq_true]
      refine exists_congr fun b => and_congr_right fun hb => ?_
      rw [hsame last (by simp) b (List.mem_append_left _ (mem_of_mem_eraseDupsBy hb))]
    rw [eraseDupsBy_concat, eraseDupsBy_concat, hbefore, hany]

/-- Duplicates may be erased before or after a list is mapped. -/
theorem eraseDupsBy_map (r : β → β → Bool) (f : α → β) (xs : List α) :
    (xs.map f).eraseDupsBy r = (xs.eraseDupsBy fun a b => r (f a) (f b)).map f := by
  induction xs using List.reverseRecOn with
  | nil => rfl
  | append_singleton xs last ih =>
    rw [List.map_append, List.map_singleton, eraseDupsBy_concat, ih, eraseDupsBy_concat,
      List.any_map, Function.comp_def]
    split
    next => rfl
    next => rw [List.map_append, List.map_singleton]

theorem eraseDups_concat [DecidableEq α] (xs : List α) (x : α) :
    (xs ++ [x]).eraseDups = if x ∈ xs then xs.eraseDups else xs.eraseDups ++ [x] := by
  have hany : (xs.eraseDups).any (x == ·) = true ↔ x ∈ xs := by
    rw [List.any_beq, List.contains_iff_mem, List.mem_eraseDups]
  rw [List.eraseDups, eraseDupsBy_concat]
  exact if_congr hany rfl rfl

/-- Of keys with copies of themselves behind each, the keys remain. -/
theorem eraseDups_flatMap [DecidableEq α] {entries : List (α × β)}
    {copies : α × β → List α} (hnodup : (entries.map Prod.fst).Nodup)
    (hcopies : ∀ entry, ∀ x ∈ copies entry, x = entry.1) :
    (entries.flatMap fun entry => entry.1 :: copies entry).eraseDups = entries.map Prod.fst := by
  induction entries with
  | nil => rfl
  | cons entry entries ih =>
    obtain ⟨hfresh, hnodup⟩ := List.nodup_cons.mp hnodup
    have hothers : ∀ x ∈ entries.flatMap (fun entry => entry.1 :: copies entry), x ≠ entry.1 := by
      intro x hx
      obtain ⟨other, hother, hx⟩ := List.mem_flatMap.mp hx
      have hkey : x = other.1 := (List.mem_cons.mp hx).elim id (hcopies other x)
      exact fun heq => hfresh (heq ▸ hkey ▸ List.mem_map_of_mem hother)
    rw [List.flatMap_cons, List.cons_append, List.eraseDups_cons, List.filter_append,
      List.filter_eq_nil_iff.mpr (by simpa using hcopies entry),
      List.filter_eq_self.mpr (by simpa using hothers), List.nil_append, ih hnodup]
    rfl

section FirstPlaces

variable [DecidableEq α]

theorem idxOf?_of_mem {xs : List α} {x : α} (hx : x ∈ xs) : xs.idxOf? x = some (xs.idxOf x) := by
  refine List.idxOf?_eq_some_iff.mpr ⟨List.idxOf_lt_length_iff.mpr hx, List.getElem_idxOf _, ?_⟩
  exact fun i hi heq => ne_of_beq_false (List.not_of_lt_findIdx hi) heq

/-- What is filtered out does not change which of two others comes first. -/
theorem idxOf_filter_le_iff {p : α → Bool} (xs : List α) {a b : α} (ha : p a = true)
    (hb : p b = true) :
    (xs.filter p).idxOf a ≤ (xs.filter p).idxOf b ↔ xs.idxOf a ≤ xs.idxOf b := by
  induction xs with
  | nil => rfl
  | cons x xs ih =>
    cases hx : p x with
    | true =>
      rw [List.filter_cons_of_pos hx]
      simp only [List.idxOf_cons]
      cases hxa : x == a <;> cases hxb : x == b <;> simp [ih]
    | false =>
      have hxa : (x == a) = false := beq_false_of_ne fun heq => by simp [heq, ha] at hx
      have hxb : (x == b) = false := beq_false_of_ne fun heq => by simp [heq, hb] at hx
      rw [List.filter_cons_of_neg (by simp [hx])]
      simp only [List.idxOf_cons, hxa, hxb, cond_false, Nat.add_le_add_iff_right, ih]

theorem idxOf_eraseDups_le_iff (xs : List α) (a b : α) :
    xs.eraseDups.idxOf a ≤ xs.eraseDups.idxOf b ↔ xs.idxOf a ≤ xs.idxOf b := by
  match xs with
  | [] => rfl
  | x :: xs =>
    rw [List.eraseDups_cons]
    simp only [List.idxOf_cons]
    by_cases hxa : x = a
    · simp [hxa]
    · by_cases hxb : x = b
      · simp [← hxb, beq_false_of_ne hxa]
      · -- neither is among the copies of the head that are left out
        have ih := idxOf_eraseDups_le_iff (xs.filter fun y => !y == x) a b
        rw [idxOf_filter_le_iff xs (by simpa using Ne.symm hxa) (by simpa using Ne.symm hxb)] at ih
        simp [beq_false_of_ne hxa, beq_false_of_ne hxb, ih]
termination_by xs.length
decreasing_by exact Nat.lt_succ_of_le (List.length_filter_le ..)

end FirstPlaces

end ShiftReduce
