import ShiftReduce.Collection.OrderedMap

/-!
# Grouping

Elements by a key that they have in common. `groupOf_group` and `tallyOf_tally` say that a group is
what filtering by its key finds, and that a tally says what counting finds.
-/

namespace ShiftReduce

universe u v

variable {α : Type u} {κ : Type v} [Ord κ] [Std.TransOrd κ] [Std.LawfulEqOrd κ]

/-- Puts an element behind the others of its group; without a key it belongs to none. -/
def addToGroup (key? : α → Option κ) (groups : OrderedMap κ (Array α)) (x : α) :
    OrderedMap κ (Array α) :=
  match key? x with
  | none => groups
  | some key => groups.alter key fun known => (known.getD #[]).push x

/-- The elements by key, each group in the order of the list. -/
def group (key? : α → Option κ) (xs : List α) : OrderedMap κ (Array α) :=
  xs.foldl (addToGroup key?) ∅

/-- The elements that have been put under a key. -/
def groupOf (groups : OrderedMap κ (Array α)) (key : κ) : List α :=
  ((groups.get? key).getD #[]).toList

def countOnce (counts : OrderedMap κ Nat) (key : κ) : OrderedMap κ Nat :=
  counts.alter key fun known => known.getD 0 + 1

/-- How often each key occurs. -/
def tally (keys : List κ) : OrderedMap κ Nat :=
  keys.foldl countOnce ∅

/-- How often a key has been counted. -/
def tallyOf (counts : OrderedMap κ Nat) (key : κ) : Nat :=
  (counts.get? key).getD 0

variable [DecidableEq κ]

theorem groupOf_addToGroup (key? : α → Option κ) (groups : OrderedMap κ (Array α)) (x : α)
    (key : κ) :
    groupOf (addToGroup key? groups x) key =
      groupOf groups key ++ if key? x = some key then [x] else [] := by
  cases hkey : key? x with
  | none => simp [addToGroup, hkey]
  | some other =>
    by_cases heq : other = key
    · simp [addToGroup, groupOf, OrderedMap.get?_alter, hkey, heq]
    · have hne : ¬ key = other := fun h => heq h.symm
      simp [addToGroup, groupOf, OrderedMap.get?_alter, hkey, heq, hne]

theorem groupOf_foldl_addToGroup (key? : α → Option κ) (groups : OrderedMap κ (Array α))
    (xs : List α) (key : κ) :
    groupOf (xs.foldl (addToGroup key?) groups) key =
      groupOf groups key ++ xs.filter fun x => key? x == some key := by
  induction xs generalizing groups with
  | nil => simp
  | cons x xs ih =>
    rw [List.foldl_cons, ih, groupOf_addToGroup, List.filter_cons]
    by_cases hkey : key? x = some key <;> simp [hkey]

/-- A group is what filtering by its key finds. -/
theorem groupOf_group (key? : α → Option κ) (xs : List α) (key : κ) :
    groupOf (group key? xs) key = xs.filter fun x => key? x == some key :=
  groupOf_foldl_addToGroup key? ∅ xs key

theorem tallyOf_countOnce (counts : OrderedMap κ Nat) (key other : κ) :
    tallyOf (countOnce counts key) other =
      tallyOf counts other + if other = key then 1 else 0 := by
  by_cases heq : other = key <;> simp [tallyOf, countOnce, OrderedMap.get?_alter, heq]

theorem tallyOf_foldl_countOnce (counts : OrderedMap κ Nat) (keys : List κ) (key : κ) :
    tallyOf (keys.foldl countOnce counts) key = tallyOf counts key + keys.count key := by
  induction keys generalizing counts with
  | nil => simp
  | cons first rest ih =>
    rw [List.foldl_cons, ih, tallyOf_countOnce, List.count_cons]
    by_cases heq : key = first
    · simp only [heq, if_true, beq_self_eq_true]
      omega
    · have hne : ¬ first = key := fun h => heq h.symm
      simp [heq, hne]

/-- A tally says what counting finds. -/
theorem tallyOf_tally (keys : List κ) (key : κ) : tallyOf (tally keys) key = keys.count key := by
  rw [tally, tallyOf_foldl_countOnce]
  exact Nat.zero_add _

end ShiftReduce
