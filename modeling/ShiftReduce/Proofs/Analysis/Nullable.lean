import Mathlib.Data.List.Perm.Subperm
import ShiftReduce.Analysis.Nullable
import ShiftReduce.Proofs.Analysis.Saturation
import ShiftReduce.Proofs.Grammar.WellFormed

/-!
# The nullable nonterminals are closed

When no pass adds a nonterminal any more, every production whose right-hand side is nullable has a
nullable left-hand side.
-/

namespace ShiftReduce

variable {g : Grammar}

@[simp] theorem Symbol.isIn_nonterminal {nulls : Roster NonterminalId} {n : NonterminalId} :
    (Symbol.nonterminal n).isIn nulls = true ↔ n ∈ nulls.toList :=
  Roster.contains_iff

namespace Grammar

variable {nulls : Roster NonterminalId} {n : NonterminalId}

theorem mem_addNullable {p : Production} : n ∈ (addNullable nulls p).toList ↔
    n ∈ nulls.toList ∨ p.right.toList.all (·.isIn nulls) = true ∧ n = p.left := by
  unfold addNullable
  split
  next hright => rw [Roster.mem_add, hright]; simp
  next hright => simp [hright]

theorem length_addNullable_le (nulls : Roster NonterminalId) (p : Production) :
    nulls.toList.length ≤ (addNullable nulls p).toList.length :=
  (List.subperm_of_subset nulls.nodup fun _ hn => mem_addNullable.mpr (.inl hn)).length_le

theorem addNullable_eq_self {p : Production}
    (hlength : (addNullable nulls p).toList.length ≤ nulls.toList.length) :
    addNullable nulls p = nulls := by
  unfold addNullable at hlength ⊢
  split
  next hright =>
    rw [if_pos hright] at hlength
    apply Roster.add_of_mem
    by_contra hleft
    rw [Roster.toList_add_of_not_mem hleft, List.length_append] at hlength
    exact Nat.not_succ_le_self _ hlength
  next => rfl

/-- A pass that adds nothing has nothing to add. -/
theorem left_mem_of_nullablePass (hpass : (g.nullablePass nulls).size = nulls.size)
    {p : ProductionId} (hp : p ∈ g.productionIds)
    (hright : (g.production p).right.toList.all (·.isIn nulls) = true) :
    (g.production p).left ∈ nulls.toList := by
  let R (r s : Roster NonterminalId) : Prop := r.toList.length ≤ s.toList.length
  have hmem := mem_toList_productions.mpr ⟨p, hp, rfl⟩
  have hsame : addNullable nulls (g.production p) = nulls := by
    refine eq_self_of_foldl (R := R) (fun _ => Nat.le_refl _) (fun _ _ _ => Nat.le_trans)
      ?_ ?_ ?_ _ hmem
    · exact length_addNullable_le
    · exact fun _ _ => addNullable_eq_self
    · exact Nat.le_of_eq hpass
  rw [← hsame]
  exact mem_addNullable.mpr (.inr ⟨hright, rfl⟩)

theorem mem_nullablePass (hn : n ∈ nulls.toList) : n ∈ (g.nullablePass nulls).toList := by
  unfold nullablePass
  apply List.foldlRecOn (motive := fun s : Roster NonterminalId => n ∈ s.toList) _ _ hn
  intro s hs p _
  exact mem_addNullable.mpr (.inl hs)

theorem mem_or_left_of_mem_nullablePass : n ∈ (g.nullablePass nulls).toList →
    n ∈ nulls.toList ∨ n ∈ g.productions.toList.map Production.left := by
  unfold nullablePass
  apply List.foldlRecOn (motive := fun s : Roster NonterminalId => n ∈ s.toList →
    n ∈ nulls.toList ∨ n ∈ g.productions.toList.map Production.left)
  · exact .inl
  · intro s hs p hp hn
    rcases mem_addNullable.mp hn with hold | ⟨-, rfl⟩
    · exact hs hold
    · exact .inr (List.mem_map_of_mem hp)

/-- A pass that adds something adds a left-hand side. -/
theorem exists_left_of_nullablePass (hpass : (g.nullablePass nulls).size ≠ nulls.size) :
    ∃ n ∈ (g.nullablePass nulls).toList, n ∉ nulls.toList := by
  by_contra hnone
  push Not at hnone
  have hle := (List.subperm_of_subset (g.nullablePass nulls).nodup hnone).length_le
  have hsub : nulls.toList ⊆ (g.nullablePass nulls).toList := fun _ => mem_nullablePass
  have hge := (List.subperm_of_subset nulls.nodup hsub).length_le
  exact hpass (Nat.le_antisymm hle hge)

/-- The nonterminals that passes can add. -/
def lefts (g : Grammar) : Finset NonterminalId :=
  (g.productions.toList.map Production.left).toFinset

theorem card_lefts_lt : g.lefts.card < g.nullableBound := by
  have hle := List.toFinset_card_le (g.productions.toList.map Production.left)
  rw [List.length_map, Array.length_toList] at hle
  exact Nat.lt_succ_of_le hle

/-- A step that goes on has added a left-hand side. -/
theorem filter_lefts_ssubset {next : Roster NonterminalId}
    (hnext : g.nullableStep nulls = .next next) :
    g.lefts.filter (· ∈ nulls.toList) ⊂ g.lefts.filter (· ∈ next.toList) := by
  unfold nullableStep at hnext
  dsimp only at hnext
  split at hnext
  next => cases hnext
  next hmore =>
    obtain rfl := Loop.Step.next.inj hnext
    obtain ⟨n, hn, hfresh⟩ := exists_left_of_nullablePass hmore
    have hleft := (mem_or_left_of_mem_nullablePass hn).resolve_left hfresh
    refine Finset.ssubset_iff_subset_ne.mpr ⟨?_, fun heq => hfresh ?_⟩
    · exact Finset.monotone_filter_right _ fun _ _ => mem_nullablePass
    · have hmem : n ∈ g.lefts.filter (· ∈ (g.nullablePass nulls).toList) :=
        Finset.mem_filter.mpr ⟨List.mem_toFinset.mpr hleft, hn⟩
      rw [← heq] at hmem
      exact (Finset.mem_filter.mp hmem).2

/-- The closure of any seed ends with a pass that adds nothing. -/
theorem nullablePass_nullableClosure (seed : Roster NonterminalId) :
    (g.nullablePass (g.nullableClosure seed)).size = (g.nullableClosure seed).size := by
  obtain ⟨s, -, hlast⟩ : ∃ s, True ∧ g.nullableStep s = .last (g.nullableClosure seed) :=
    Loop.run_saturated (fun s : Roster NonterminalId => g.lefts.filter (· ∈ s.toList)) g.lefts
      (fun _ => Finset.filter_subset _ _) (fun _ _ _ hnext => ⟨trivial, filter_lefts_ssubset hnext⟩)
      card_lefts_lt trivial
  unfold nullableStep at hlast
  dsimp only at hlast
  split at hlast
  next hsame =>
    have hend : s = g.nullableClosure seed := Loop.Step.last.inj hlast
    rwa [← hend]
  next => cases hlast

theorem left_mem_nullables {p : ProductionId} (hp : p ∈ g.productionIds)
    (hright : (g.production p).right.toList.all (·.isIn g.nullables) = true) :
    (g.production p).left ∈ g.nullables.toList :=
  left_mem_of_nullablePass (nullablePass_nullableClosure ∅) hp hright

end Grammar

end ShiftReduce
