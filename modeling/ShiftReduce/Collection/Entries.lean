/-!
# Entry lists

A list of keyed entries in the order in which the keys were first met. Changing the entry of a
known key leaves its place alone; a new key goes to the end. Keys and values that are kept apart, in
two lists of one length, make up the entries that their `zip` lists.
-/

namespace ShiftReduce

universe u v

variable {κ : Type u} {β : Type v} [DecidableEq κ]

/-- The entries after `change` has replaced the value of `key`, which it is handed if there is
one. -/
def alterEntry (key : κ) (change : Option β → β) : List (κ × β) → List (κ × β)
  | [] => [(key, change none)]
  | (other, value) :: rest =>
    if key = other then (other, change (some value)) :: rest
    else (other, value) :: alterEntry key change rest

/-- The entries after `value` has been stored under `key`. -/
def setEntry (key : κ) (value : β) : List (κ × β) → List (κ × β) :=
  alterEntry key fun _ => value

theorem lookup_cons_eq_ite (key first : κ) (value : β) (rest : List (κ × β)) :
    ((first, value) :: rest).lookup key = if key = first then some value else rest.lookup key := by
  by_cases heq : key = first
  · simp [heq]
  · have hbeq : (key == first) = false := beq_eq_false_iff_ne.mpr heq
    simp [List.lookup_cons, hbeq, heq]

/-- Without repeated keys every entry is found. -/
theorem lookup_eq_some_iff_mem {entries : List (κ × β)} (hnodup : (entries.map Prod.fst).Nodup)
    {key : κ} {value : β} : entries.lookup key = some value ↔ (key, value) ∈ entries := by
  induction entries with
  | nil => simp
  | cons entry rest ih =>
    obtain ⟨first, held⟩ := entry
    obtain ⟨hfresh, hnodup⟩ := List.nodup_cons.mp hnodup
    rw [lookup_cons_eq_ite, List.mem_cons]
    by_cases heq : key = first
    · subst heq
      have hrest : (key, value) ∉ rest := fun hmem =>
        hfresh (List.mem_map.mpr ⟨_, hmem, rfl⟩)
      simp [hrest, eq_comm]
    · simp [heq, ih hnodup]

theorem lookup_alterEntry (key other : κ) (change : Option β → β) (entries : List (κ × β)) :
    (alterEntry key change entries).lookup other =
      if other = key then some (change (entries.lookup key)) else entries.lookup other := by
  induction entries with
  | nil => simp [alterEntry, lookup_cons_eq_ite]
  | cons entry rest ih =>
    obtain ⟨first, value⟩ := entry
    by_cases hfirst : key = first
    · subst hfirst
      simp only [alterEntry, if_true, lookup_cons_eq_ite]
      split <;> rfl
    · simp only [alterEntry, hfirst, if_false, lookup_cons_eq_ite, ih]
      by_cases hother : other = first
      · have hne : ¬ other = key := fun h => hfirst (h.symm.trans hother)
        rw [if_pos hother, if_neg hne, if_pos hother]
      · simp [hother]

theorem lookup_setEntry (key other : κ) (value : β) (entries : List (κ × β)) :
    (setEntry key value entries).lookup other =
      if other = key then some value else entries.lookup other := by
  simp [setEntry, lookup_alterEntry]

section Rename

universe u' v'

variable {κ' : Type u'} {β' : Type v'} [DecidableEq κ'] {rename : κ → κ'}
  (hrename : Function.Injective rename) (change : β → β')

include hrename

/-- Entries are found under new names of their keys, when different keys have different names. -/
theorem lookup_map_injective (entries : List (κ × β)) (key : κ) :
    (entries.map (Prod.map rename change)).lookup (rename key) =
      (entries.lookup key).map change := by
  induction entries with
  | nil => rfl
  | cons entry rest ih =>
    obtain ⟨first, value⟩ := entry
    simp only [List.map_cons, Prod.map_apply, lookup_cons_eq_ite, ih, hrename.eq_iff]
    split <;> rfl

theorem setEntry_map_injective (entries : List (κ × β)) (key : κ) (value : β) :
    setEntry (rename key) (change value) (entries.map (Prod.map rename change)) =
      (setEntry key value entries).map (Prod.map rename change) := by
  induction entries with
  | nil => rfl
  | cons entry rest ih =>
    obtain ⟨first, held⟩ := entry
    simp only [setEntry, alterEntry, List.map_cons, Prod.map_apply, hrename.eq_iff] at ih ⊢
    split
    next => rfl
    next => rw [List.map_cons, ih, Prod.map_apply]

end Rename

/-- Only a new key changes the list of keys, by a place at the end. -/
theorem keys_alterEntry (key : κ) (change : Option β → β) (entries : List (κ × β)) :
    (alterEntry key change entries).map Prod.fst =
      if key ∈ entries.map Prod.fst then entries.map Prod.fst
      else entries.map Prod.fst ++ [key] := by
  induction entries with
  | nil => simp [alterEntry]
  | cons entry rest ih =>
    obtain ⟨first, value⟩ := entry
    by_cases hfirst : key = first
    · simp [alterEntry, hfirst]
    · simp only [alterEntry, hfirst, if_false, List.map_cons, ih, List.mem_cons,
        false_or]
      split <;> simp

theorem alterEntry_of_not_mem {key : κ} {change : Option β → β} {entries : List (κ × β)}
    (hkey : key ∉ entries.map Prod.fst) :
    alterEntry key change entries = entries ++ [(key, change none)] := by
  induction entries with
  | nil => rfl
  | cons entry rest ih =>
    obtain ⟨first, value⟩ := entry
    rw [List.map_cons, List.mem_cons, not_or] at hkey
    simp [alterEntry, hkey.1, ih hkey.2]

theorem zip_modify_eq_alterEntry {key : κ} {change : Option β → β} {keys : List κ}
    {values : List β} {i : Nat} (hnodup : keys.Nodup) (hkey : keys[i]? = some key)
    (hlength : keys.length = values.length) :
    keys.zip (values.modify i fun value => change (some value)) =
      alterEntry key change (keys.zip values) := by
  induction keys generalizing values i with
  | nil => simp at hkey
  | cons first rest ih =>
    cases values with
    | nil => simp at hlength
    | cons value values =>
      cases i with
      | zero =>
        obtain rfl : first = key := by simpa using hkey
        simp [alterEntry]
      | succ i =>
        have hrest : rest[i]? = some key := by simpa using hkey
        have hne : ¬ key = first := by
          rintro rfl
          exact (List.nodup_cons.mp hnodup).1 (List.mem_of_getElem? hrest)
        simp only [List.modify_succ_cons, List.zip_cons_cons, alterEntry, hne, if_false]
        rw [ih (List.nodup_cons.mp hnodup).2 hrest (by simpa using hlength)]

theorem zip_append_eq_alterEntry {key : κ} {change : Option β → β} {keys : List κ}
    {values : List β} (hkey : key ∉ keys) (hlength : keys.length = values.length) :
    (keys ++ [key]).zip (values ++ [change none]) = alterEntry key change (keys.zip values) := by
  induction keys generalizing values with
  | nil =>
    cases values with
    | nil => rfl
    | cons => simp at hlength
  | cons first rest ih =>
    cases values with
    | nil => simp at hlength
    | cons value values =>
      rw [List.mem_cons, not_or] at hkey
      simp only [List.cons_append, List.zip_cons_cons, alterEntry, hkey.1, if_false]
      rw [ih hkey.2 (by simpa using hlength)]

theorem lookup_zip_of_getElem? {key : κ} {keys : List κ} {values : List β} {i : Nat}
    (hnodup : keys.Nodup) (hkey : keys[i]? = some key) :
    (keys.zip values).lookup key = values[i]? := by
  induction keys generalizing values i with
  | nil => simp at hkey
  | cons first rest ih =>
    cases values with
    | nil => simp
    | cons value values =>
      cases i with
      | zero =>
        obtain rfl : first = key := by simpa using hkey
        simp
      | succ i =>
        have hrest : rest[i]? = some key := by simpa using hkey
        have hne : ¬ key = first := by
          rintro rfl
          exact (List.nodup_cons.mp hnodup).1 (List.mem_of_getElem? hrest)
        rw [List.zip_cons_cons, lookup_cons_eq_ite, if_neg hne, List.getElem?_cons_succ]
        exact ih (List.nodup_cons.mp hnodup).2 hrest

theorem lookup_zip_of_not_mem {key : κ} {keys : List κ} {values : List β}
    (hkey : key ∉ keys) : (keys.zip values).lookup key = none := by
  induction keys generalizing values with
  | nil => simp
  | cons first rest ih =>
    cases values with
    | nil => simp
    | cons value values =>
      rw [List.mem_cons, not_or] at hkey
      rw [List.zip_cons_cons, lookup_cons_eq_ite, if_neg hkey.1]
      exact ih hkey.2

end ShiftReduce
