import Mathlib.Data.List.Nodup
import Std.Data.String.ToNat
import ShiftReduce.Proofs.Grammar.WellFormed
import ShiftReduce.Reduction.Name

/-!
# When handler names are different

Productions that share a plain name have their places put behind it, and the places keep them apart
from one another. Nothing compares a name so numbered with the plain names of other productions;
`nodup_handlerNames_iff` says that this is the only way in which two productions get one name.
-/

namespace ShiftReduce

theorem underscore_not_mem_repr (i : Nat) : '_' ∉ i.repr.toList := by
  intro hmem
  rw [Nat.toList_repr] at hmem
  exact absurd (Nat.isDigit_of_mem_toDigits (by decide) (by decide) hmem) (by decide)

section Lists

universe u v

variable {α : Type u} {β : Type v}

/-- What stands behind the last separator can be read off. -/
theorem eq_of_append_cons_eq {x : α} {as bs cs ds : List α} (heq : as ++ x :: cs = bs ++ x :: ds)
    (hcs : x ∉ cs) (hds : x ∉ ds) : cs = ds := by
  rcases List.append_eq_append_iff.mp heq with ⟨es, -, hes⟩ | ⟨es, -, hes⟩
  · cases es with
    | nil => exact (List.cons.inj hes).2
    | cons e es =>
      obtain ⟨-, rfl⟩ := List.cons.inj hes
      exact absurd (List.mem_append_right es List.mem_cons_self) hcs
  · cases es with
    | nil => exact (List.cons.inj hes).2.symm
    | cons e es =>
      obtain ⟨-, rfl⟩ := List.cons.inj hes
      exact absurd (List.mem_append_right es List.mem_cons_self) hds

/-- A value that is counted more than once belongs to another element too. -/
theorem one_lt_count_map_iff [DecidableEq α] [DecidableEq β] {f : α → β} {xs : List α}
    (hnodup : xs.Nodup) {x : α} (hx : x ∈ xs) :
    1 < (xs.map f).count (f x) ↔ ∃ y ∈ xs, y ≠ x ∧ f y = f x := by
  have hperm := (List.perm_cons_erase hx).map f
  rw [hperm.count_eq, List.map_cons, List.count_cons_self, Nat.lt_add_left_iff_pos,
    List.count_pos_iff, List.mem_map]
  simp only [hnodup.mem_erase_iff, and_assoc, and_left_comm]

end Lists

namespace Grammar

variable (g : Grammar)

/-- Another production has the same plain name. -/
def SharesName (p : ProductionId) : Prop :=
  ∃ other ∈ g.declaredIds, other ≠ p ∧ g.plainName other = g.plainName p

instance (p : ProductionId) : Decidable (g.SharesName p) :=
  inferInstanceAs
    (Decidable (∃ other ∈ g.declaredIds, other ≠ p ∧ g.plainName other = g.plainName p))

/-- The plain name with the place of the production behind it. -/
def numberedName (p : ProductionId) : String :=
  g.plainName p ++ "_" ++ (p.index - 1).repr

/-- No numbered name is the plain name of a production that shares its name with no other. -/
def NamesApart : Prop :=
  ∀ p ∈ g.declaredIds, ∀ other ∈ g.declaredIds,
    g.SharesName p → ¬ g.SharesName other → g.numberedName p ≠ g.plainName other

instance : Decidable g.NamesApart :=
  inferInstanceAs (Decidable (∀ p ∈ g.declaredIds, ∀ other ∈ g.declaredIds,
    g.SharesName p → ¬ g.SharesName other → g.numberedName p ≠ g.plainName other))

variable {g} {p other : ProductionId}

theorem nodup_declaredIds : g.declaredIds.Nodup :=
  nodup_productionIds.sublist (List.tail_sublist _)

theorem getElem?_declaredIds_iff {i : Nat} :
    g.declaredIds[i]? = some p ↔ p ∈ g.productionIds ∧ p.index = i + 1 := by
  rw [declaredIds, List.getElem?_tail, productionIds, List.getElem?_map, Option.map_eq_some_iff,
    List.mem_map]
  constructor
  · rintro ⟨j, hj, rfl⟩
    obtain ⟨hlt, rfl⟩ := List.getElem?_eq_some_iff.mp hj
    exact ⟨⟨_, List.getElem_mem hlt, rfl⟩, List.getElem_range hlt⟩
  · rintro ⟨⟨j, hj, rfl⟩, hplace⟩
    obtain rfl : j = i + 1 := hplace
    exact ⟨i + 1, List.getElem?_range (List.mem_range.mp hj), rfl⟩

theorem mem_declaredIds_iff : p ∈ g.declaredIds ↔ p ∈ g.productionIds ∧ p ≠ .goal := by
  simp only [List.mem_iff_getElem?, getElem?_declaredIds_iff, exists_and_left]
  obtain ⟨index⟩ := p
  refine and_congr_right fun _ => ?_
  cases index with
  | zero => simp [ProductionId.goal]
  | succ i => simp [ProductionId.goal]

/-- The places are kept apart by the numbers behind the last underscore. -/
theorem eq_of_numberedName (hp : p ∈ g.declaredIds) (hother : other ∈ g.declaredIds)
    (heq : g.numberedName p = g.numberedName other) : p = other := by
  have hchars := congrArg String.toList heq
  simp only [numberedName, String.toList_append, List.append_assoc] at hchars
  have hdigits :=
    eq_of_append_cons_eq hchars (underscore_not_mem_repr _) (underscore_not_mem_repr _)
  have hplace := Nat.repr_injective (String.toList_inj.mp hdigits)
  obtain ⟨i, hi⟩ := List.mem_iff_getElem?.mp hp
  obtain ⟨j, hj⟩ := List.mem_iff_getElem?.mp hother
  rw [(getElem?_declaredIds_iff.mp hi).2, (getElem?_declaredIds_iff.mp hj).2] at hplace
  obtain rfl : i = j := hplace
  exact Option.some.inj (hi.symm.trans hj)

variable (g) in
/-- The name that the handler of a production gets. -/
def handlerName (p : ProductionId) : String :=
  if g.SharesName p then g.numberedName p else g.plainName p

theorem toList_handlerNames : g.handlerNames.toList = g.declaredIds.map g.handlerName := by
  refine List.ext_getElem? fun i => ?_
  simp only [handlerNames, List.getElem?_mapIdx, List.getElem?_map]
  cases hp : g.declaredIds[i]? with
  | none => rfl
  | some p =>
    have hplace : p.index - 1 = i := by
      rw [(getElem?_declaredIds_iff.mp hp).2]
      exact Nat.add_sub_cancel i 1
    have hshares : tallyOf (tally (g.declaredIds.map g.plainName)) (g.plainName p) > 1 ↔
        g.SharesName p := by
      rw [tallyOf_tally]
      exact one_lt_count_map_iff nodup_declaredIds (List.mem_of_getElem? hp)
    simp only [Option.map_some, handlerName, numberedName, hplace, hshares]

theorem nameIn_handlerNames (hp : p ∈ g.declaredIds) :
    nameIn g.handlerNames p = g.handlerName p := by
  obtain ⟨i, hi⟩ := List.mem_iff_getElem?.mp hp
  have hname : g.handlerNames[p.index - 1]? = some (g.handlerName p) := by
    rw [(getElem?_declaredIds_iff.mp hi).2, Nat.add_sub_cancel, ← Array.getElem?_toList,
      toList_handlerNames, List.getElem?_map, hi, Option.map_some]
  rw [nameIn, Array.getD_eq_getD_getElem?, hname, Option.getD_some]

/-- Names that are not numbered are plain names that no other production has. -/
theorem eq_of_plainName (hother : other ∈ g.declaredIds) (hp : ¬ g.SharesName p)
    (heq : g.plainName p = g.plainName other) : p = other := by
  by_contra hne
  exact hp ⟨other, hother, Ne.symm hne, heq.symm⟩

/-- Apart from a numbered name that another production has as its plain name, names are
different. -/
theorem nodup_handlerNames_iff : g.handlerNames.toList.Nodup ↔ g.NamesApart := by
  rw [toList_handlerNames, List.nodup_map_iff_inj_on nodup_declaredIds]
  constructor
  · intro hinj p hp other hother hshared hplain heq
    have hnames : g.handlerName p = g.handlerName other := by
      rw [handlerName, if_pos hshared, handlerName, if_neg hplain, heq]
    exact hplain (hinj p hp other hother hnames ▸ hshared)
  · intro hapart p hp other hother heq
    by_cases hshared : g.SharesName p <;> by_cases hshared' : g.SharesName other <;>
      simp only [handlerName, hshared, hshared', if_true, if_false] at heq
    · exact eq_of_numberedName hp hother heq
    · exact absurd heq (hapart p hp other hother hshared hshared')
    · exact absurd heq.symm (hapart other hother p hp hshared' hshared)
    · exact eq_of_plainName hother hshared heq

end Grammar

end ShiftReduce
