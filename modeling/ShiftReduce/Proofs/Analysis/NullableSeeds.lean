import Mathlib.Order.Bounds.Defs
import ShiftReduce.Proofs.Analysis.FirstExact

/-!
# Nullable nonterminals from any seed

Taking some nonterminals as nullable, whether they are or not, makes others nullable. What the
passes add goes behind the seed, and they end with the least set that holds the seed and is closed
under the productions. Without a seed that set is the nonterminals that derive nothing.
-/

namespace ShiftReduce

variable {g : Grammar}

/-- The set has the left-hand side of every production whose right-hand side is made of members. -/
def Grammar.IsNullableClosed (g : Grammar) (nulls : Set NonterminalId) : Prop :=
  ∀ p ∈ g.productionIds,
    (∀ x ∈ (g.production p).right.toList, ∃ n ∈ nulls, x = .nonterminal n) →
      (g.production p).left ∈ nulls

namespace Grammar

variable (seed : Roster NonterminalId)

theorem isPrefix_addNullable (nulls : Roster NonterminalId) (p : Production) :
    nulls.toList <+: (addNullable nulls p).toList := by
  unfold addNullable
  split
  next =>
    rw [Roster.toList_add]
    split
    next => exact List.prefix_rfl
    next => exact List.prefix_append _ _
  next => exact List.prefix_rfl

theorem isPrefix_nullablePass (nulls : Roster NonterminalId) :
    nulls.toList <+: (g.nullablePass nulls).toList := by
  refine rel_foldl (R := fun r s : Roster NonterminalId => r.toList <+: s.toList) ?_ ?_ ?_ _ _
  · exact fun _ => List.prefix_rfl
  · exact fun _ _ _ => List.IsPrefix.trans
  · exact isPrefix_addNullable

theorem isPrefix_nullableStep {nulls next : Roster NonterminalId}
    (hnext : g.nullableStep nulls = .next next) : nulls.toList <+: next.toList := by
  unfold nullableStep at hnext
  dsimp only at hnext
  split at hnext
  next => cases hnext
  next =>
    rw [← Loop.Step.next.inj hnext]
    exact isPrefix_nullablePass nulls

theorem eq_of_nullableStep_last {nulls last : Roster NonterminalId}
    (hlast : g.nullableStep nulls = .last last) : last = nulls := by
  unfold nullableStep at hlast
  dsimp only at hlast
  split at hlast
  next => exact (Loop.Step.last.inj hlast).symm
  next => cases hlast

/-- However many passes are made, what was there comes first. -/
theorem isPrefix_run (bound : Nat) (nulls : Roster NonterminalId) :
    nulls.toList <+: (Loop.run g.nullableStep bound nulls).toList := by
  refine Loop.run_invariant (P := fun s : Roster NonterminalId => nulls.toList <+: s.toList)
    ?_ ?_ bound List.prefix_rfl
  · intro s last hs hlast
    rwa [eq_of_nullableStep_last hlast]
  · exact fun s next hs hnext => hs.trans (isPrefix_nullableStep hnext)

theorem isPrefix_nullableClosure : seed.toList <+: (g.nullableClosure seed).toList :=
  isPrefix_run _ seed

theorem isNullableClosed_nullableClosure :
    g.IsNullableClosed {n | n ∈ (g.nullableClosure seed).toList} := by
  intro p hp hright
  refine left_mem_of_nullablePass (nullablePass_nullableClosure seed) hp ?_
  refine List.all_eq_true.mpr fun x hx => ?_
  obtain ⟨n, hn, rfl⟩ := hright x hx
  exact Symbol.isIn_nonterminal.mpr hn

theorem isLeast_nullableClosure :
    IsLeast {nulls | (∀ n ∈ seed.toList, n ∈ nulls) ∧ g.IsNullableClosed nulls}
      {n | n ∈ (g.nullableClosure seed).toList} := by
  refine ⟨⟨fun n hn => (isPrefix_nullableClosure seed).subset hn,
    isNullableClosed_nullableClosure seed⟩, ?_⟩
  rintro nulls ⟨hseed, hclosed⟩ n hn
  refine nullableClosure_least (P := (· ∈ nulls)) (fun p hp hright => ?_) hseed n hn
  refine hclosed p hp fun x hx => ?_
  obtain ⟨m, rfl, hm⟩ := hright x hx
  exact ⟨m, hm, rfl⟩

/-- Without anything new the first pass is the last. -/
theorem nullableClosure_of_not_hasNewNullable {seed : Roster NonterminalId}
    (hnone : g.hasNewNullable seed = false) : g.nullableClosure seed = seed := by
  have hsame : (g.nullablePass seed).size = seed.size := by
    simpa [hasNewNullable] using hnone
  have hlast : g.nullableStep seed = .last seed := if_pos hsame
  exact Loop.run_succ_of_last hlast _

/-- Something is new exactly if the closure has a nonterminal that the seed does not have. -/
theorem hasNewNullable_iff : g.hasNewNullable seed = true ↔
    ∃ n ∈ (g.nullableClosure seed).toList, n ∉ seed.toList := by
  constructor
  · intro hnew
    have hmore : (g.nullablePass seed).size ≠ seed.size := by simpa [hasNewNullable] using hnew
    obtain ⟨n, hn, hfresh⟩ := exists_left_of_nullablePass hmore
    have hnext : g.nullableStep seed = .next (g.nullablePass seed) := if_neg hmore
    refine ⟨n, ?_, hfresh⟩
    rw [nullableClosure, nullableBound, Loop.run_succ_of_next hnext]
    exact (isPrefix_run _ _).subset hn
  · rintro ⟨n, hn, hfresh⟩
    by_contra hnone
    rw [nullableClosure_of_not_hasNewNullable (Bool.not_eq_true _ ▸ hnone)] at hn
    exact hfresh hn

theorem hasNewNullable_nullableClosure : g.hasNewNullable (g.nullableClosure seed) = false := by
  simpa [hasNewNullable] using nullablePass_nullableClosure (g := g) seed

theorem nullableClosure_nullableClosure :
    g.nullableClosure (g.nullableClosure seed) = g.nullableClosure seed :=
  nullableClosure_of_not_hasNewNullable (hasNewNullable_nullableClosure seed)

/-- The nullable nonterminals are those that derive nothing. -/
theorem mem_nullables_iff {n : NonterminalId} :
    n ∈ g.nullables.toList ↔ Derives g [.nonterminal n] [] := by
  refine ⟨Derives.nil_of_mem_nullables, fun hderives => ?_⟩
  have hform := hderives.all_isIn rfl
  exact Symbol.isIn_nonterminal.mp (List.all_eq_true.mp hform _ List.mem_cons_self)

end Grammar

/-- Growing a seed until nothing is added is a closure, and it tells whether anything was added. -/
structure SaturatesSeeds (g : Grammar) : Prop where
  isPrefix : ∀ seed, seed.toList <+: (g.nullableClosure seed).toList
  isLeast : ∀ seed, IsLeast {nulls | (∀ n ∈ seed.toList, n ∈ nulls) ∧ g.IsNullableClosed nulls}
    {n | n ∈ (g.nullableClosure seed).toList}
  hasNewNullable_iff : ∀ seed, g.hasNewNullable seed = true ↔
    ∃ n ∈ (g.nullableClosure seed).toList, n ∉ seed.toList
  /-- A second call changes nothing and says so. -/
  again : ∀ seed, g.nullableClosure (g.nullableClosure seed) = g.nullableClosure seed ∧
    g.hasNewNullable (g.nullableClosure seed) = false
  mem_nullables_iff : ∀ n, n ∈ g.nullables.toList ↔ Derives g [.nonterminal n] []

theorem saturatesSeeds (g : Grammar) : SaturatesSeeds g where
  isPrefix := Grammar.isPrefix_nullableClosure
  isLeast := Grammar.isLeast_nullableClosure
  hasNewNullable_iff := Grammar.hasNewNullable_iff
  again seed :=
    ⟨Grammar.nullableClosure_nullableClosure seed, Grammar.hasNewNullable_nullableClosure seed⟩
  mem_nullables_iff _ := Grammar.mem_nullables_iff

end ShiftReduce
