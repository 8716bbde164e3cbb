import Std.Data.TreeMap

/-!
# Rosters

A roster lists members without repetition in the order in which they were added, and finds the
position of a member quickly. `toList_add` and `idx?_eq_some_iff` describe it completely.
-/

namespace ShiftReduce

universe u

structure Roster (α : Type u) [Ord α] [Std.TransOrd α] [Std.LawfulEqOrd α] where
  members : Array α
  index : Std.TreeMap α Nat
  index_iff : ∀ (x : α) (i : Nat), index[x]? = some i ↔ members[i]? = some x

namespace Roster

variable {α : Type u} [Ord α] [Std.TransOrd α] [Std.LawfulEqOrd α]

def empty : Roster α where
  members := #[]
  index := ∅
  index_iff := by simp

instance : EmptyCollection (Roster α) := ⟨empty⟩

instance : Inhabited (Roster α) := ⟨empty⟩

def toList (r : Roster α) : List α :=
  r.members.toList

def size (r : Roster α) : Nat :=
  r.members.size

/-- The position at which a member was added. -/
def idx? (r : Roster α) (x : α) : Option Nat :=
  r.index[x]?

def contains (r : Roster α) (x : α) : Bool :=
  (r.idx? x).isSome

theorem idx?_eq_some_iff {r : Roster α} {x : α} {i : Nat} :
    r.idx? x = some i ↔ r.toList[i]? = some x := by
  simpa [idx?, toList] using r.index_iff x i

theorem idx?_eq_none_iff {r : Roster α} {x : α} : r.idx? x = none ↔ x ∉ r.toList := by
  constructor
  · intro hnone hmem
    obtain ⟨i, hi⟩ := List.mem_iff_getElem?.mp hmem
    rw [idx?_eq_some_iff.mpr hi] at hnone
    cases hnone
  · intro hmem
    cases hfound : r.idx? x with
    | none => rfl
    | some i => exact absurd (List.mem_of_getElem? (idx?_eq_some_iff.mp hfound)) hmem

theorem contains_iff {r : Roster α} {x : α} : r.contains x ↔ x ∈ r.toList := by
  cases hfound : r.idx? x with
  | none => simpa [contains, hfound] using idx?_eq_none_iff.mp hfound
  | some i => simpa [contains, hfound] using List.mem_of_getElem? (idx?_eq_some_iff.mp hfound)

/-- No member stands at two positions. -/
theorem nodup (r : Roster α) : r.toList.Nodup := by
  rw [List.nodup_iff_pairwise_ne, List.pairwise_iff_getElem]
  intro i j hi hj hlt heq
  have hfirst := idx?_eq_some_iff.mpr (List.getElem?_eq_getElem hi)
  have hsecond := idx?_eq_some_iff.mpr (List.getElem?_eq_getElem hj)
  rw [heq, hsecond] at hfirst
  simp only [Option.some.injEq] at hfirst
  omega

/-- Adds a member at the end unless it is listed already. -/
def add (r : Roster α) (x : α) : Roster α :=
  if hnew : r.index[x]? = none then
    let place := r.members.size
    { members := r.members.push x
      index := r.index.insert x place
      index_iff := by
        intro other i
        rw [Std.TreeMap.getElem?_insert, Array.getElem?_push]
        have hsame : compare x other = .eq ↔ x = other := Std.LawfulEqOrd.compare_eq_iff_eq
        by_cases hx : x = other
        · subst hx
          have hold := r.index_iff x i
          rw [hnew] at hold
          by_cases hi : i = r.members.size
          · simp [hi, place]
          · simp only [Std.compare_self, if_true, Option.some.injEq, hi, if_false]
            constructor
            · intro heq; exact absurd heq.symm hi
            · intro heq; exact absurd (hold.mpr heq) (by simp)
        · rw [if_neg (fun h => hx (hsame.mp h)), r.index_iff]
          by_cases hi : i = r.members.size
          · simp [hi, hx]
          · simp [hi] }
  else r

/-- Adds members from left to right. -/
def addAll (r : Roster α) (xs : List α) : Roster α :=
  xs.foldl add r

def ofList (xs : List α) : Roster α :=
  addAll ∅ xs

@[simp] theorem toList_empty : (∅ : Roster α).toList = [] := rfl

theorem add_of_mem {r : Roster α} {x : α} (hmem : x ∈ r.toList) : r.add x = r := by
  rw [add, dif_neg]
  intro hnew
  exact idx?_eq_none_iff.mp hnew hmem

theorem toList_add_of_not_mem {r : Roster α} {x : α} (hmem : x ∉ r.toList) :
    (r.add x).toList = r.toList ++ [x] := by
  have hnew : r.index[x]? = none := idx?_eq_none_iff.mpr hmem
  rw [add, dif_pos hnew]
  simp [toList]

theorem toList_add [DecidableEq α] (r : Roster α) (x : α) :
    (r.add x).toList = if x ∈ r.toList then r.toList else r.toList ++ [x] := by
  split
  next hmem => rw [add_of_mem hmem]
  next hmem => exact toList_add_of_not_mem hmem

theorem mem_add {r : Roster α} {x y : α} : y ∈ (r.add x).toList ↔ y ∈ r.toList ∨ y = x := by
  by_cases hmem : x ∈ r.toList
  · rw [add_of_mem hmem]
    exact ⟨.inl, fun h => h.elim id fun heq => heq ▸ hmem⟩
  · simp [toList_add_of_not_mem hmem]

@[simp] theorem addAll_nil (r : Roster α) : r.addAll [] = r := rfl

@[simp] theorem addAll_cons (r : Roster α) (x : α) (xs : List α) :
    r.addAll (x :: xs) = (r.add x).addAll xs := rfl

theorem mem_addAll {r : Roster α} {xs : List α} {x : α} :
    x ∈ (r.addAll xs).toList ↔ x ∈ r.toList ∨ x ∈ xs := by
  induction xs generalizing r with
  | nil => simp
  | cons first rest ih => rw [addAll_cons, ih, mem_add, List.mem_cons, or_assoc]

theorem mem_ofList {xs : List α} {x : α} : x ∈ (ofList xs).toList ↔ x ∈ xs := by
  simp [ofList, mem_addAll]

theorem toList_addAll_of_nodup {r : Roster α} {xs : List α} (hnodup : (r.toList ++ xs).Nodup) :
    (r.addAll xs).toList = r.toList ++ xs := by
  induction xs generalizing r with
  | nil => simp
  | cons first rest ih =>
    have hfresh : first ∉ r.toList := fun h => by
      have := List.nodup_append.mp hnodup
      exact this.2.2 first h first (by simp) rfl
    have hadd := toList_add_of_not_mem hfresh
    rw [addAll_cons, ih (by rw [hadd, List.append_assoc]; exact hnodup), hadd]
    simp

/-- Of elements without repetition those are added that are not there already. -/
theorem toList_addAll [DecidableEq α] {r : Roster α} {xs : List α} (hnodup : xs.Nodup) :
    (r.addAll xs).toList = r.toList ++ xs.filter (· ∉ r.toList) := by
  induction xs generalizing r with
  | nil => simp
  | cons first rest ih =>
    obtain ⟨hfirst, hrest⟩ := List.nodup_cons.mp hnodup
    have hsame : rest.filter (· ∉ (r.add first).toList) = rest.filter (· ∉ r.toList) := by
      refine List.filter_congr fun x hx => ?_
      have hne : x ≠ first := fun heq => hfirst (heq ▸ hx)
      simp [mem_add, hne]
    rw [addAll_cons, ih hrest, hsame, toList_add]
    by_cases hmem : first ∈ r.toList <;> simp [hmem]

/-- A list without repetition keeps its order and places. -/
theorem toList_ofList_of_nodup {xs : List α} (hnodup : xs.Nodup) : (ofList xs).toList = xs :=
  toList_addAll_of_nodup (r := ∅) hnodup

end Roster

/-- The elements without repetition, each where it stands first. -/
def distinct {α : Type u} [Ord α] [Std.TransOrd α] [Std.LawfulEqOrd α] (xs : List α) : List α :=
  (Roster.ofList xs).toList

section Distinct

variable {α : Type u} [Ord α] [Std.TransOrd α] [Std.LawfulEqOrd α]

theorem mem_distinct {xs : List α} {x : α} : x ∈ distinct xs ↔ x ∈ xs :=
  Roster.mem_ofList

theorem nodup_distinct (xs : List α) : (distinct xs).Nodup :=
  (Roster.ofList xs).nodup

theorem distinct_of_nodup {xs : List α} (hnodup : xs.Nodup) : distinct xs = xs :=
  Roster.toList_ofList_of_nodup hnodup

end Distinct

end ShiftReduce
