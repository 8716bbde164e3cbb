import ShiftReduce.Analysis.First
import ShiftReduce.Proofs.Analysis.Nullable

/-!
# FIRST sets are closed

FIRST of a left-hand side has all that can begin the right-hand side. Only terminals that are
mentioned get in, which bounds the number of passes.
-/

namespace ShiftReduce

variable {g : Grammar} {nulls : Roster NonterminalId} {firsts : TerminalFamily}

/-- What can begin some symbols is one of them, or can begin one of them. -/
theorem exists_of_mem_firstOfSymbols {xs : List Symbol} {t : TerminalId}
    (ht : t ∈ firstOfSymbols nulls firsts xs) :
    .terminal t ∈ xs ∨ ∃ n, .nonterminal n ∈ xs ∧ t ∈ firsts.get n := by
  induction xs with
  | nil => exact absurd ht (TerminalSet.not_mem_empty t)
  | cons x rest ih =>
    cases x with
    | terminal u =>
      rw [firstOfSymbols, TerminalSet.mem_singleton] at ht
      exact .inl (ht ▸ List.mem_cons_self)
    | nonterminal n =>
      have hhead : t ∈ firsts.get n ∨ t ∈ firstOfSymbols nulls firsts rest := by
        unfold firstOfSymbols at ht
        split at ht
        next => exact TerminalSet.mem_union.mp ht
        next => exact .inl ht
      rcases hhead with hfirst | hrest
      · exact .inr ⟨n, List.mem_cons_self, hfirst⟩
      · rcases ih hrest with hmem | ⟨m, hm, hfirst⟩
        · exact .inl (List.mem_cons_of_mem _ hmem)
        · exact .inr ⟨m, List.mem_cons_of_mem _ hm, hfirst⟩

theorem mem_firstOfSymbols_nonterminal {n : NonterminalId} {rest : List Symbol} {t : TerminalId} :
    t ∈ firstOfSymbols nulls firsts (.nonterminal n :: rest) ↔
      t ∈ firsts.get n ∨ n ∈ nulls.toList ∧ t ∈ firstOfSymbols nulls firsts rest := by
  rw [firstOfSymbols, ← Roster.contains_iff]
  split
  next hn => simp [hn]
  next hn => simp [hn]

/-- The second symbol counts when the first one is nullable. -/
theorem mem_firstOfSymbols_cons {x : Symbol} {rest : List Symbol} {t : TerminalId} :
    t ∈ firstOfSymbols nulls firsts (x :: rest) ↔ t ∈ firstOfSymbols nulls firsts [x] ∨
      x.isIn nulls = true ∧ t ∈ firstOfSymbols nulls firsts rest := by
  cases x with
  | terminal u => simp [firstOfSymbols, Symbol.isIn]
  | nonterminal n =>
    rw [mem_firstOfSymbols_nonterminal, mem_firstOfSymbols_nonterminal, Symbol.isIn_nonterminal]
    simp [firstOfSymbols]

namespace Grammar

theorem le_addFirst (f : TerminalFamily) (p : Production) :
    f ≤ f.add p.left (firstOfSymbols nulls f p.right.toList) :=
  f.le_add p.left _

theorem le_firstPass (f : TerminalFamily) : f ≤ g.firstPass nulls f :=
  TerminalFamily.le_foldl le_addFirst _ f

namespace InRange

variable (hg : g.InRange)

include hg

theorem within_firstPass {count : Nat} {f : TerminalFamily} (hf : f.Within count g.terminalIds) :
    (g.firstPass nulls f).Within count g.terminalIds := by
  unfold firstPass
  apply List.foldlRecOn _ _ hf
  intro f hf p hp
  apply hf.add
  intro t ht
  rcases exists_of_mem_firstOfSymbols ht with hmem | ⟨n, -, hfirst⟩
  · exact hg.hasSymbol_of_mentions _ (mentions_of_mem_productions hp hmem)
  · exact hf.mem_of_mem n t hfirst

/-- The passes for FIRST end with one that changes nothing. -/
theorem firstPass_firstsWith (nulls : Roster NonterminalId) :
    (g.firstsWith nulls).Within g.nonterminals.size g.terminalIds ∧
      g.firstPass nulls (g.firstsWith nulls) = g.firstsWith nulls := by
  apply TerminalFamily.run_passes (g.firstPass nulls) (fun _ => rfl) le_firstPass
  · exact fun f hf => hg.within_firstPass hf
  · exact ⟨by simp [TerminalFamily.empty], fun n t ht => by simp at ht⟩
  · simp [firstBound, terminalIds]

theorem mem_firstsWith {p : ProductionId} (hp : p ∈ g.productionIds) {t : TerminalId}
    (ht : t ∈ firstOfSymbols nulls (g.firstsWith nulls) (g.production p).right.toList) :
    t ∈ (g.firstsWith nulls).get (g.production p).left := by
  obtain ⟨hwithin, hpass⟩ := hg.firstPass_firstsWith nulls
  have hsame := TerminalFamily.eq_self_of_foldl_eq le_addFirst hpass
    (mem_toList_productions.mpr ⟨p, hp, rfl⟩)
  apply TerminalFamily.mem_of_add_eq hsame _ ht
  rw [hwithin.size_eq]
  exact mem_nonterminalIds.mp (hg.left_mem p hp)

end InRange

theorem firstPass_firstsWith (hg : g.WellFormed) (nulls : Roster NonterminalId) :
    (g.firstsWith nulls).Within g.nonterminals.size g.terminalIds ∧
      g.firstPass nulls (g.firstsWith nulls) = g.firstsWith nulls :=
  hg.inRange.firstPass_firstsWith nulls

theorem mem_firstsWith (hg : g.WellFormed) {p : ProductionId} (hp : p ∈ g.productionIds)
    {t : TerminalId}
    (ht : t ∈ firstOfSymbols nulls (g.firstsWith nulls) (g.production p).right.toList) :
    t ∈ (g.firstsWith nulls).get (g.production p).left :=
  hg.inRange.mem_firstsWith hp ht

end Grammar

end ShiftReduce
