/-!
# Stable sorting

A merge sort that cuts a list in halves and merges the sorted halves. Among elements that compare
alike the order of the list is kept. `perm_sortBy` and `pairwise_sortBy` say that the result has the
same elements, in order.
-/

namespace ShiftReduce

universe u

variable {α : Type u} (le : α → α → Bool)

/--
Merges two runs behind the elements that are done, the latest of which comes first. At most `bound`
elements are compared; what is left goes to the end.
-/
def mergeOnto : Nat → List α → List α → List α → List α
  | bound + 1, done, x :: xs, y :: ys =>
    if le x y then mergeOnto bound (x :: done) xs (y :: ys)
    else mergeOnto bound (y :: done) (x :: xs) ys
  | _, done, xs, ys => done.reverseAux (xs ++ ys)

/-- Merges two runs; the first goes before elements of the second that compare alike. -/
def mergeRuns (xs ys : List α) : List α :=
  mergeOnto le (xs.length + ys.length) [] xs ys

/-- Sorts by at most `bound` cuts in halves, one inside the other. -/
def sortWithin : Nat → List α → List α
  | 0, xs => xs
  | bound + 1, xs =>
    if xs.length < 2 then xs
    else
      let half := xs.length / 2
      mergeRuns le (sortWithin bound (xs.take half)) (sortWithin bound (xs.drop half))

/-- The elements in ascending order. -/
def sortBy (xs : List α) : List α :=
  sortWithin le xs.length xs

/-- The elements in the order of their names. -/
def sortByName (name : α → String) (xs : List α) : List α :=
  sortBy (fun x y => (compare (name x) (name y)).isLE) xs

theorem perm_mergeOnto (bound : Nat) (done xs ys : List α) :
    (mergeOnto le bound done xs ys).Perm (done.reverse ++ (xs ++ ys)) := by
  fun_induction mergeOnto le bound done xs ys with
  | case1 bound done x xs y ys hle ih => simpa using ih
  | case2 bound done x xs y ys hle ih =>
    have hmove : (y :: (x :: xs ++ ys)).Perm (x :: xs ++ y :: ys) := List.perm_middle.symm
    exact ih.trans (by simpa using hmove.append_left done.reverse)
  | case3 => exact .of_eq List.reverseAux_eq

theorem perm_mergeRuns (xs ys : List α) : (mergeRuns le xs ys).Perm (xs ++ ys) :=
  perm_mergeOnto le (xs.length + ys.length) [] xs ys

theorem perm_sortWithin (bound : Nat) (xs : List α) : (sortWithin le bound xs).Perm xs := by
  fun_induction sortWithin le bound xs with
  | case1 => exact .refl _
  | case2 => exact .refl _
  | case3 bound xs hlong half ihfirst ihsecond =>
    exact (perm_mergeRuns le _ _).trans
      ((ihfirst.append ihsecond).trans (.of_eq (List.take_append_drop half xs)))

/-- Sorting keeps the elements. -/
theorem perm_sortBy (xs : List α) : (sortBy le xs).Perm xs :=
  perm_sortWithin le xs.length xs

variable {le}

theorem mem_sortBy {xs : List α} {x : α} : x ∈ sortBy le xs ↔ x ∈ xs :=
  (perm_sortBy le xs).mem_iff

theorem mem_sortByName {name : α → String} {xs : List α} {x : α} :
    x ∈ sortByName name xs ↔ x ∈ xs :=
  mem_sortBy

section Order

variable (htrans : ∀ a b c, le a b = true → le b c = true → le a c = true)
  (htotal : ∀ a b, le a b = true ∨ le b a = true)

include htrans in
/-- An element that may stand before the head of a run may stand before all of it. -/
theorem pairwise_insert_head {done run : List α} {x y : α}
    (hrun : (done ++ y :: run).Pairwise fun a b => le a b = true)
    (hbefore : ∀ a ∈ done, le a x = true) (hle : le x y = true) :
    (done ++ x :: y :: run).Pairwise fun a b => le a b = true := by
  obtain ⟨hdone, hrest, hcross⟩ := List.pairwise_append.mp hrun
  have hfirst := List.pairwise_cons.mp hrest
  have hall : ∀ b ∈ y :: run, le x b = true := by
    intro b hb
    rcases List.mem_cons.mp hb with rfl | hb
    · exact hle
    · exact htrans _ _ _ hle (hfirst.1 b hb)
  refine List.pairwise_append.mpr ⟨hdone, List.pairwise_cons.mpr ⟨hall, hrest⟩, ?_⟩
  intro a ha b hb
  rcases List.mem_cons.mp hb with rfl | hb
  · exact hbefore a ha
  · exact hcross a ha b hb

include htrans htotal

theorem pairwise_mergeOnto {bound : Nat} {done xs ys : List α}
    (hfirst : (done.reverse ++ xs).Pairwise fun a b => le a b = true)
    (hsecond : (done.reverse ++ ys).Pairwise fun a b => le a b = true)
    (hbound : xs.length + ys.length ≤ bound) :
    (mergeOnto le bound done xs ys).Pairwise fun a b => le a b = true := by
  fun_induction mergeOnto le bound done xs ys with
  | case1 bound done x xs y ys hle ih =>
    have hbefore : ∀ a ∈ done.reverse, le a x = true := fun a ha =>
      (List.pairwise_append.mp hfirst).2.2 a ha x (by simp)
    exact ih (by simpa using hfirst)
      (by simpa using pairwise_insert_head htrans hsecond hbefore hle) (by simp at hbound ⊢; omega)
  | case2 bound done x xs y ys hle ih =>
    have hbefore : ∀ a ∈ done.reverse, le a y = true := fun a ha =>
      (List.pairwise_append.mp hsecond).2.2 a ha y (by simp)
    have hyx : le y x = true := (htotal x y).resolve_left hle
    exact ih (by simpa using pairwise_insert_head htrans hfirst hbefore hyx)
      (by simpa using hsecond) (by simp at hbound ⊢; omega)
  | case3 bound done xs ys hstop =>
    rw [List.reverseAux_eq]
    cases xs with
    | nil => exact hsecond
    | cons x xs =>
      cases ys with
      | nil => simpa using hfirst
      | cons y ys =>
        cases bound with
        | zero => simp at hbound
        | succ bound => exact (hstop bound x xs y ys rfl rfl rfl).elim

theorem pairwise_mergeRuns {xs ys : List α} (hxs : xs.Pairwise fun a b => le a b = true)
    (hys : ys.Pairwise fun a b => le a b = true) :
    (mergeRuns le xs ys).Pairwise fun a b => le a b = true :=
  pairwise_mergeOnto htrans htotal hxs hys (Nat.le_refl _)

theorem pairwise_sortWithin {bound : Nat} {xs : List α} (hbound : xs.length ≤ bound) :
    (sortWithin le bound xs).Pairwise fun a b => le a b = true := by
  fun_induction sortWithin le bound xs with
  | case1 xs =>
    obtain rfl : xs = [] := List.eq_nil_of_length_eq_zero (by omega)
    exact .nil
  | case2 bound xs hshort =>
    match xs, hshort with
    | [], _ => exact .nil
    | [x], _ => exact List.pairwise_singleton _ x
  | case3 bound xs hlong half ihfirst ihsecond =>
    exact pairwise_mergeRuns htrans htotal
      (ihfirst (by simp only [List.length_take]; omega))
      (ihsecond (by simp only [List.length_drop]; omega))

/-- For a total preorder the result ascends. -/
theorem pairwise_sortBy (xs : List α) : (sortBy le xs).Pairwise fun a b => le a b = true :=
  pairwise_sortWithin htrans htotal (Nat.le_refl _)

end Order

end ShiftReduce
