import Mathlib.Data.List.Basic
import ShiftReduce.Collection.OrderedMap
import ShiftReduce.Proofs.Collection.FirstOccurrence

/-!
# Last values

What storing entries one after the other leaves: each key once, where it was stored first, with the
value that was stored last.
-/

namespace ShiftReduce

universe u v

variable {κ : Type u} {β : Type v} [DecidableEq κ]

/-- The keys in the order of their first entries, each with the value of its last entry. -/
def lastValues (entries : List (κ × β)) : List (κ × β) :=
  (entries.map Prod.fst).eraseDups.filterMap fun key =>
    (entries.reverse.lookup key).map fun value => (key, value)

example : lastValues [("b", 1), ("a", 2), ("b", 3)] = [("b", 3), ("a", 2)] := by decide

/-- Entries without repeated keys are told by their keys and what is found under them. -/
theorem filterMap_lookup_keys {entries : List (κ × β)} (hnodup : (entries.map Prod.fst).Nodup) :
    ((entries.map Prod.fst).filterMap fun key =>
      (entries.lookup key).map fun value => (key, value)) = entries := by
  have hfound : ∀ entry ∈ entries,
      ((entries.lookup entry.1).map fun value => (entry.1, value)) = some entry := by
    intro entry hentry
    rw [(lookup_eq_some_iff_mem hnodup).mpr hentry, Option.map_some]
  rw [List.filterMap_map]
  exact (List.filterMap_congr hfound).trans List.filterMap_some

namespace OrderedMap

variable [Ord κ] [Std.TransOrd κ] [Std.LawfulEqOrd κ]

omit [DecidableEq κ] in
theorem ofList_concat (entries : List (κ × β)) (entry : κ × β) :
    ofList (entries ++ [entry]) = (ofList entries).insert entry.1 entry.2 := by
  rw [ofList, List.foldl_append]
  rfl

theorem keys_ofList (entries : List (κ × β)) :
    (ofList entries).toList.map Prod.fst = (entries.map Prod.fst).eraseDups := by
  induction entries using List.reverseRecOn with
  | nil => rfl
  | append_singleton entries entry ih =>
    rw [ofList_concat, toList_insert, setEntry, keys_alterEntry, ih, List.map_append,
      List.map_singleton, eraseDups_concat]
    exact if_congr List.mem_eraseDups rfl rfl

theorem lookup_ofList (entries : List (κ × β)) (key : κ) :
    (ofList entries).toList.lookup key = entries.reverse.lookup key := by
  induction entries using List.reverseRecOn with
  | nil => rfl
  | append_singleton entries entry ih =>
    rw [ofList_concat, toList_insert, lookup_setEntry, ih, List.reverse_append,
      List.reverse_singleton, List.singleton_append, lookup_cons_eq_ite]

theorem toList_ofList (entries : List (κ × β)) : (ofList entries).toList = lastValues entries := by
  rw [← filterMap_lookup_keys (ofList entries).nodup_keys, keys_ofList]
  simp only [lookup_ofList]
  rfl

end OrderedMap

end ShiftReduce
