import ShiftReduce.Proofs.Grammar.Build

/-!
# Limits of right-hand sides

A rule whose right-hand side exceeds the size limit is refused before it enters its block, so no
production of a grammar that was built is longer than that.
-/

namespace ShiftReduce

namespace Block

/-- No right-hand side of the block exceeds the size limit. -/
def IsShort (b : Block) : Prop :=
  ∀ right ∈ b.actions.toList.map Prod.fst, right.length ≤ sizeLimit

theorem isShort_empty (first : Nat) : IsShort ⟨first, ∅⟩ :=
  fun _ hright => absurd hright List.not_mem_nil

variable {v : Vocabulary} {name : String}

theorem IsShort.addRule {rule : Rule} {b next : Block} (hb : b.IsShort)
    (hnext : b.addRule v name rule = .ok next) : next.IsShort := by
  simp only [Block.addRule] at hnext
  split at hnext
  next => cases hnext
  next hlength =>
    split at hnext
    next =>
      obtain rfl := Except.ok.inj hnext
      exact hb
    next hcontains =>
      split at hnext
      next => cases hnext
      next =>
        obtain rfl := Except.ok.inj hnext
        intro right hright
        have hfresh := (OrderedMap.contains_iff (m := b.actions)).not.mp hcontains
        rw [OrderedMap.toList_insert_of_not_mem hfresh, List.map_append, List.mem_append] at hright
        rcases hright with hknown | hnew
        · exact hb right hknown
        · obtain rfl := List.mem_singleton.mp hnew
          rw [List.length_map]
          exact Nat.not_lt.mp hlength

theorem IsShort.foldlM_addRule {rules : List Rule} {b result : Block} (hb : b.IsShort)
    (hresult : rules.foldlM (Block.addRule v name) b = .ok result) : result.IsShort :=
  foldlM_invariant (P := fun _ b => b.IsShort) (fun _ _ _ _ hkept hadd => hkept.addRule hadd) hb
    hresult

theorem isShort_of_append {entry : String × Array Rule} {blocks next : Array Block}
    (hblocks : ∀ b ∈ blocks, b.IsShort) (hnext : append v blocks entry = .ok next) :
    ∀ b ∈ next, b.IsShort := by
  obtain ⟨block, hblock, hpush⟩ := exists_of_bind_eq_ok hnext
  obtain rfl := Except.ok.inj hpush
  intro b hb
  rcases Array.mem_push.mp hb with hb | rfl
  · exact hblocks b hb
  · exact (isShort_empty _).foldlM_addRule hblock

theorem isShort_of_foldlM {entries : List (String × Array Rule)} {blocks : Array Block}
    (hblocks : entries.foldlM (Block.append v) #[] = .ok blocks) : ∀ b ∈ blocks, b.IsShort :=
  foldlM_invariant (P := fun _ (blocks : Array Block) => ∀ b ∈ blocks, b.IsShort)
    (fun _ _ _ _ hkept hadd => isShort_of_append hkept hadd)
    (fun b hb => absurd hb (Array.not_mem_empty b)) hblocks

theorem length_right_le {b : Block} (hb : b.IsShort) {left : NonterminalId} {k : Nat}
    {p : Production} (hp : (b.productions left)[k]? = some p) : p.right.size ≤ sizeLimit := by
  obtain ⟨right, action, hentry, rfl⟩ := getElem?_productions_iff.mp hp
  exact hb right (List.mem_map.mpr ⟨_, List.mem_of_getElem? hentry, rfl⟩)

end Block

/-- No production has more symbols on its right-hand side than the size limit allows. -/
def Grammar.IsShort (g : Grammar) : Prop :=
  ∀ p ∈ g.productionIds, (g.production p).right.size ≤ sizeLimit

theorem Grammar.isShort_of_ofDeclarations {declarations : List Declaration} {g : Grammar}
    (hg : Grammar.ofDeclarations declarations = .ok g) : g.IsShort := by
  obtain ⟨d, hd, hbuild⟩ := exists_of_bind_eq_ok hg
  obtain ⟨start, startType, v, blocks, -, hrules, -, hv, hblocks, heq⟩ :=
    Draft.exists_of_build hbuild
  have hsupports := Draft.supports (Draft.keepsGoalFree_of_declareAll hd) hrules hv hblocks heq
  intro p hp
  by_cases hgoal : p = .goal
  · rw [hgoal, hsupports.goal_production]
    change 1 ≤ sizeLimit
    decide
  · obtain ⟨j, b, m, hj, hm, -⟩ := hsupports.exists_block hp hgoal
    have hb := Array.mem_toList_iff.mp (List.mem_of_getElem? hj)
    exact Block.length_right_le (Block.isShort_of_foldlM hblocks b hb) hm

end ShiftReduce
