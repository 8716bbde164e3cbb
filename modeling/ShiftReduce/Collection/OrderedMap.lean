import ShiftReduce.Collection.Roster
import ShiftReduce.Collection.Entries

/-!
# Maps in insertion order

A map from keys to values that remembers the order in which its keys were first stored and finds
a key quickly. Its view is the entry list `toList`; `toList_alter` and `get?_eq_lookup` say that
every operation is the one on that list.
-/

namespace ShiftReduce

universe u v

structure OrderedMap (κ : Type u) [Ord κ] [Std.TransOrd κ] [Std.LawfulEqOrd κ] (β : Type v) where
  keys : Roster κ
  values : Array β
  size_eq : values.size = keys.members.size

namespace OrderedMap

variable {κ : Type u} [Ord κ] [Std.TransOrd κ] [Std.LawfulEqOrd κ] {β : Type v}

def empty : OrderedMap κ β where
  keys := ∅
  values := #[]
  size_eq := rfl

instance : EmptyCollection (OrderedMap κ β) := ⟨empty⟩

instance : Inhabited (OrderedMap κ β) := ⟨empty⟩

def toList (m : OrderedMap κ β) : List (κ × β) :=
  m.keys.toList.zip m.values.toList

def get? (m : OrderedMap κ β) (key : κ) : Option β :=
  (m.keys.idx? key).bind fun i => m.values[i]?

/-- Replaces the value of `key` by what `change` makes of it, at the place of `key` if it has
one. -/
def alter (m : OrderedMap κ β) (key : κ) (change : Option β → β) : OrderedMap κ β :=
  match hfound : m.keys.idx? key with
  | some i =>
    { keys := m.keys
      values := m.values.modify i fun value => change (some value)
      size_eq := by simp [m.size_eq] }
  | none =>
    { keys := m.keys.add key
      values := m.values.push (change none)
      size_eq := by
        have hkey := Roster.idx?_eq_none_iff.mp hfound
        have hadd := congrArg List.length (Roster.toList_add_of_not_mem hkey)
        simpa [Roster.toList, m.size_eq] using hadd.symm }

/-- Stores a value, at the place of an earlier one under the same key. -/
def insert (m : OrderedMap κ β) (key : κ) (value : β) : OrderedMap κ β :=
  m.alter key fun _ => value

def contains (m : OrderedMap κ β) (key : κ) : Bool :=
  m.keys.contains key

def size (m : OrderedMap κ β) : Nat :=
  m.values.size

/-- Stores the entries from left to right. -/
def ofList (entries : List (κ × β)) : OrderedMap κ β :=
  entries.foldl (fun m entry => m.insert entry.1 entry.2) ∅

@[simp] theorem toList_empty : (∅ : OrderedMap κ β).toList = [] := rfl

@[simp] theorem keys_empty : (∅ : OrderedMap κ β).keys = ∅ := rfl

theorem length_eq (m : OrderedMap κ β) : m.keys.toList.length = m.values.toList.length := by
  simp [Roster.toList, m.size_eq]

theorem map_fst_toList (m : OrderedMap κ β) : m.toList.map Prod.fst = m.keys.toList :=
  List.map_fst_zip (Nat.le_of_eq m.length_eq)

theorem map_snd_toList (m : OrderedMap κ β) : m.toList.map Prod.snd = m.values.toList :=
  List.map_snd_zip (Nat.le_of_eq m.length_eq.symm)

/-- No key stands at two places. -/
theorem nodup_keys (m : OrderedMap κ β) : (m.toList.map Prod.fst).Nodup := by
  rw [map_fst_toList]
  exact m.keys.nodup

theorem contains_iff {m : OrderedMap κ β} {key : κ} :
    m.contains key ↔ key ∈ m.toList.map Prod.fst := by
  rw [contains, Roster.contains_iff, map_fst_toList]

section Entries

variable [DecidableEq κ]

theorem toList_alter (m : OrderedMap κ β) (key : κ) (change : Option β → β) :
    (m.alter key change).toList = alterEntry key change m.toList := by
  unfold alter
  split
  next i hfound =>
    simp only [toList, Array.toList_modify]
    exact zip_modify_eq_alterEntry m.keys.nodup (Roster.idx?_eq_some_iff.mp hfound) m.length_eq
  next hfound =>
    have hkey := Roster.idx?_eq_none_iff.mp hfound
    simp only [toList, Array.toList_push, Roster.toList_add_of_not_mem hkey]
    exact zip_append_eq_alterEntry hkey m.length_eq

theorem toList_insert (m : OrderedMap κ β) (key : κ) (value : β) :
    (m.insert key value).toList = setEntry key value m.toList :=
  toList_alter ..

theorem get?_eq_lookup (m : OrderedMap κ β) (key : κ) : m.get? key = m.toList.lookup key := by
  cases hfound : m.keys.idx? key with
  | none =>
    rw [get?, hfound, toList, lookup_zip_of_not_mem (Roster.idx?_eq_none_iff.mp hfound)]
    rfl
  | some i =>
    rw [get?, hfound, toList,
      lookup_zip_of_getElem? m.keys.nodup (Roster.idx?_eq_some_iff.mp hfound)]
    simp

theorem get?_eq_some_iff {m : OrderedMap κ β} {key : κ} {value : β} :
    m.get? key = some value ↔ (key, value) ∈ m.toList := by
  rw [get?_eq_lookup, lookup_eq_some_iff_mem m.nodup_keys]

theorem get?_alter (m : OrderedMap κ β) (key other : κ) (change : Option β → β) :
    (m.alter key change).get? other =
      if other = key then some (change (m.get? key)) else m.get? other := by
  simp only [get?_eq_lookup, toList_alter, lookup_alterEntry]

theorem get?_insert (m : OrderedMap κ β) (key other : κ) (value : β) :
    (m.insert key value).get? other = if other = key then some value else m.get? other :=
  get?_alter ..

theorem toList_insert_of_not_mem {m : OrderedMap κ β} {key : κ}
    (hkey : key ∉ m.toList.map Prod.fst) (value : β) :
    (m.insert key value).toList = m.toList ++ [(key, value)] := by
  rw [toList_insert, setEntry, alterEntry_of_not_mem hkey]

theorem toList_foldl_insert_of_nodup {m : OrderedMap κ β} {entries : List (κ × β)}
    (hnodup : ((m.toList ++ entries).map Prod.fst).Nodup) :
    (entries.foldl (fun m entry => m.insert entry.1 entry.2) m).toList = m.toList ++ entries := by
  induction entries generalizing m with
  | nil => simp
  | cons entry rest ih =>
    have hfresh : entry.1 ∉ m.toList.map Prod.fst := fun hmem => by
      rw [List.map_append, List.nodup_append] at hnodup
      exact hnodup.2.2 entry.1 hmem entry.1 (by simp) rfl
    have hinsert := toList_insert_of_not_mem hfresh entry.2
    rw [List.foldl_cons, ih (by rw [hinsert]; simpa using hnodup), hinsert]
    simp

/-- Entries without repeated keys keep their order and places. -/
theorem toList_ofList_of_nodup {entries : List (κ × β)} (hnodup : (entries.map Prod.fst).Nodup) :
    (ofList entries).toList = entries :=
  toList_foldl_insert_of_nodup (m := ∅) hnodup

end Entries

end OrderedMap

end ShiftReduce
