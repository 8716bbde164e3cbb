import ShiftReduce.Analysis.Basic
import ShiftReduce.Proofs.Analysis.First

/-!
# FOLLOW sets are closed

FOLLOW of a nonterminal has all that can begin what stands behind it, and where that may vanish all
that follows the left-hand side. While no right-hand side mentions the goal, nothing but the end of
input follows it.
-/

namespace ShiftReduce

variable {g : Grammar} {nulls : Roster NonterminalId} {firsts : TerminalFamily}

section Symbols

variable {left : NonterminalId}

/-- What an occurrence of a nonterminal contributes, given the symbols behind it. -/
def behind (nulls : Roster NonterminalId) (firsts follows : TerminalFamily) (left : NonterminalId)
    (rest : List Symbol) : TerminalSet :=
  if rest.all (·.isIn nulls) then firstOfSymbols nulls firsts rest ∪ follows.get left
  else firstOfSymbols nulls firsts rest

theorem mem_behind {follows : TerminalFamily} {rest : List Symbol} {t : TerminalId} :
    t ∈ behind nulls firsts follows left rest ↔ t ∈ firstOfSymbols nulls firsts rest ∨
      rest.all (·.isIn nulls) = true ∧ t ∈ follows.get left := by
  unfold behind
  split
  next hrest => rw [TerminalSet.mem_union, hrest]; simp
  next hrest => simp [hrest]

theorem addFollows_nonterminal (follows : TerminalFamily) (n : NonterminalId) (rest : List Symbol) :
    addFollows nulls firsts left follows (.nonterminal n :: rest) =
      addFollows nulls firsts left (follows.add n (behind nulls firsts follows left rest)) rest :=
  rfl

theorem le_addFollows (follows : TerminalFamily) (xs : List Symbol) :
    follows ≤ addFollows nulls firsts left follows xs := by
  induction xs generalizing follows with
  | nil => exact follows.le_refl
  | cons x rest ih =>
    cases x with
    | terminal t => exact ih follows
    | nonterminal n =>
      rw [addFollows_nonterminal]
      exact TerminalFamily.le_trans _ _ _ (follows.le_add n _) (ih _)

/-- When adding makes no difference, every occurrence has its contribution already. -/
theorem mem_of_addFollows_eq {follows : TerminalFamily} {xs : List Symbol}
    (hsame : addFollows nulls firsts left follows xs = follows) {n : NonterminalId}
    (hn : n.index < follows.sets.size) {rest : List Symbol} (hrest : .nonterminal n :: rest <:+ xs)
    {t : TerminalId} (ht : t ∈ behind nulls firsts follows left rest) : t ∈ follows.get n := by
  induction xs with
  | nil => cases List.eq_nil_of_suffix_nil hrest
  | cons x xs ih =>
    cases x with
    | terminal u =>
      rcases List.suffix_cons_iff.mp hrest with heq | hsuffix
      · cases heq
      · exact ih hsame hsuffix
    | nonterminal m =>
      rw [addFollows_nonterminal] at hsame
      -- the first addition lies between two equal families, so it makes no difference either
      have hfirst : follows.add m (behind nulls firsts follows left xs) = follows := by
        refine TerminalFamily.le_antisymm ?_ (follows.le_add m _)
        conv_rhs => rw [← hsame]
        exact le_addFollows _ xs
      rcases List.suffix_cons_iff.mp hrest with heq | hsuffix
      · obtain ⟨hx, rfl⟩ := List.cons.inj heq
        obtain rfl := Symbol.nonterminal.inj hx
        exact TerminalFamily.mem_of_add_eq hfirst hn ht
      · rw [hfirst] at hsame
        exact ih hsame hsuffix

/-- Only the nonterminals among the symbols get anything. -/
theorem mem_or_of_mem_addFollows {follows : TerminalFamily} {xs : List Symbol} {n : NonterminalId}
    {t : TerminalId} (ht : t ∈ (addFollows nulls firsts left follows xs).get n) :
    t ∈ follows.get n ∨ .nonterminal n ∈ xs := by
  induction xs generalizing follows with
  | nil => exact .inl ht
  | cons x rest ih =>
    cases x with
    | terminal u => exact (ih ht).imp_right (List.mem_cons_of_mem _)
    | nonterminal m =>
      rw [addFollows_nonterminal] at ht
      rcases ih ht with hadded | hmem
      · rcases TerminalFamily.mem_get_add.mp hadded with hold | ⟨rfl, -⟩
        · exact .inl hold
        · exact .inr List.mem_cons_self
      · exact .inr (List.mem_cons_of_mem _ hmem)

theorem within_addFollows {count : Nat} {ts : List TerminalId} {follows : TerminalFamily}
    (hfollows : follows.Within count ts) {xs : List Symbol}
    (hxs : ∀ rest, rest <:+ xs → ∀ t, t ∈ firstOfSymbols nulls firsts rest → t ∈ ts) :
    (addFollows nulls firsts left follows xs).Within count ts := by
  induction xs generalizing follows with
  | nil => exact hfollows
  | cons x rest ih =>
    have hrest : ∀ last, last <:+ rest → ∀ t, t ∈ firstOfSymbols nulls firsts last → t ∈ ts :=
      fun last hlast => hxs last (hlast.trans (List.suffix_cons x rest))
    cases x with
    | terminal u => exact ih hfollows hrest
    | nonterminal n =>
      rw [addFollows_nonterminal]
      refine ih (hfollows.add fun t ht => ?_) hrest
      rcases mem_behind.mp ht with hfirst | ⟨-, hleft⟩
      · exact hrest rest List.suffix_rfl t hfirst
      · exact hfollows.mem_of_mem left t hleft

end Symbols

namespace Grammar

/-- The terminals that can get into FOLLOW sets. -/
def followers (g : Grammar) (firsts : TerminalFamily) : List TerminalId :=
  g.terminalIds ++ firsts.sets.toList.flatMap TerminalSet.toList

theorem le_followPass (follows : TerminalFamily) : follows ≤ g.followPass nulls firsts follows :=
  TerminalFamily.le_foldl (fun f (p : Production) => le_addFollows f p.right.toList) _ follows

namespace InRange

variable (hg : g.InRange)

include hg

theorem mem_followers_of_first {xs : List Symbol}
    (hxs : ∀ x ∈ xs, g.Mentions x) {t : TerminalId} (ht : t ∈ firstOfSymbols nulls firsts xs) :
    t ∈ g.followers firsts := by
  apply List.mem_append.mpr
  rcases exists_of_mem_firstOfSymbols ht with hmem | ⟨n, -, hfirst⟩
  · exact .inl (hg.hasSymbol_of_mentions _ (hxs _ hmem))
  · right
    have hn := TerminalFamily.lt_size_of_mem hfirst
    refine List.mem_flatMap.mpr ⟨firsts.sets[n.index], by simp, ?_⟩
    simpa [TerminalFamily.get, hn] using hfirst

theorem within_followPass {count : Nat} {follows : TerminalFamily}
    (hfollows : follows.Within count (g.followers firsts)) :
    (g.followPass nulls firsts follows).Within count (g.followers firsts) := by
  unfold followPass
  apply List.foldlRecOn _ _ hfollows
  intro follows hfollows p hp
  apply within_addFollows hfollows
  intro rest hrest t ht
  apply hg.mem_followers_of_first _ ht
  intro x hx
  exact mentions_of_mem_productions hp (hrest.subset hx)

theorem within_followStart :
    g.followStart.Within g.nonterminals.size (g.followers firsts) := by
  apply TerminalFamily.Within.add
  · exact ⟨by simp [TerminalFamily.empty], fun n t ht => by simp at ht⟩
  · intro t ht
    rw [TerminalSet.mem_singleton.mp ht]
    exact List.mem_append_left _ hg.endOfInput_mem

/-- The passes for FOLLOW end with one that changes nothing. -/
theorem followPass_followsWith (nulls : Roster NonterminalId)
    (firsts : TerminalFamily) :
    (g.followsWith nulls firsts).Within g.nonterminals.size (g.followers firsts) ∧
      g.followPass nulls firsts (g.followsWith nulls firsts) = g.followsWith nulls firsts := by
  apply TerminalFamily.run_passes (g.followPass nulls firsts) (fun _ => rfl) le_followPass
  · exact fun f hf => hg.within_followPass hf
  · exact hg.within_followStart
  · simp [followBound, followers, terminalIds, TerminalFamily.total]

theorem mem_followsWith {p : ProductionId} (hp : p ∈ g.productionIds)
    {n : NonterminalId} {rest : List Symbol}
    (hrest : .nonterminal n :: rest <:+ (g.production p).right.toList) {t : TerminalId}
    (ht : t ∈ behind nulls firsts (g.followsWith nulls firsts) (g.production p).left rest) :
    t ∈ (g.followsWith nulls firsts).get n := by
  obtain ⟨hwithin, hpass⟩ := hg.followPass_followsWith nulls firsts
  have hsame := TerminalFamily.eq_self_of_foldl_eq
    (fun f (p : Production) => le_addFollows f p.right.toList) hpass
    (mem_toList_productions.mpr ⟨p, hp, rfl⟩)
  have hn := hg.hasSymbol_of_mentions _ (mentions_of_mem hp (hrest.subset List.mem_cons_self))
  refine mem_of_addFollows_eq hsame ?_ hrest ht
  rw [hwithin.size_eq]
  exact mem_nonterminalIds.mp hn

theorem endOfInput_mem_followsWith (nulls : Roster NonterminalId)
    (firsts : TerminalFamily) : .endOfInput ∈ (g.followsWith nulls firsts).get .goal := by
  have hle : g.followStart ≤ g.followsWith nulls firsts := by
    apply TerminalFamily.run_passes_invariant (g.followPass nulls firsts) (fun _ => rfl)
    · exact fun f hf => TerminalFamily.le_trans _ _ _ hf (le_followPass f)
    · exact g.followStart.le_refl
  apply hle.2
  have hgoal := mem_nonterminalIds.mp hg.goal_mem_nonterminalIds
  refine TerminalFamily.mem_get_add.mpr (.inr ⟨rfl, ?_, TerminalSet.mem_singleton.mpr rfl⟩)
  simpa [TerminalFamily.empty] using hgoal

end InRange

theorem followPass_followsWith (hg : g.WellFormed) (nulls : Roster NonterminalId)
    (firsts : TerminalFamily) :
    (g.followsWith nulls firsts).Within g.nonterminals.size (g.followers firsts) ∧
      g.followPass nulls firsts (g.followsWith nulls firsts) = g.followsWith nulls firsts :=
  hg.inRange.followPass_followsWith nulls firsts

/-- FOLLOW sets have terminals of the grammar only. -/
theorem mem_terminalIds_of_follow (hg : g.WellFormed) {n : NonterminalId} {t : TerminalId}
    (ht : t ∈ g.analysis.follows.get n) : t ∈ g.terminalIds := by
  have hwithin := (followPass_followsWith hg g.nullables (g.firstsWith g.nullables)).1
  rcases List.mem_append.mp (hwithin.mem_of_mem n t ht) with hmem | hfirst
  · exact hmem
  · obtain ⟨s, hs, hmem⟩ := List.mem_flatMap.mp hfirst
    obtain ⟨i, hi, rfl⟩ := Array.mem_iff_getElem.mp (Array.mem_toList_iff.mp hs)
    apply (firstPass_firstsWith hg g.nullables).1.mem_of_mem ⟨i⟩ t
    simpa [TerminalFamily.get, hi] using hmem

theorem mem_followsWith (hg : g.WellFormed) {p : ProductionId} (hp : p ∈ g.productionIds)
    {n : NonterminalId} {rest : List Symbol}
    (hrest : .nonterminal n :: rest <:+ (g.production p).right.toList) {t : TerminalId}
    (ht : t ∈ behind nulls firsts (g.followsWith nulls firsts) (g.production p).left rest) :
    t ∈ (g.followsWith nulls firsts).get n :=
  hg.inRange.mem_followsWith hp hrest ht

theorem endOfInput_mem_followsWith (hg : g.WellFormed) (nulls : Roster NonterminalId)
    (firsts : TerminalFamily) : .endOfInput ∈ (g.followsWith nulls firsts).get .goal :=
  hg.inRange.endOfInput_mem_followsWith nulls firsts

/-- A pass does not add to the FOLLOW set of a nonterminal that no right-hand side mentions. -/
theorem mem_of_mem_followPass {n : NonterminalId} (hn : ¬ g.Mentions (.nonterminal n))
    {follows : TerminalFamily} {t : TerminalId} :
    t ∈ (g.followPass nulls firsts follows).get n → t ∈ follows.get n := by
  unfold followPass
  apply List.foldlRecOn (motive := fun f : TerminalFamily => t ∈ f.get n → t ∈ follows.get n)
  · exact id
  · intro f hf p hp ht
    rcases mem_or_of_mem_addFollows ht with hold | hmem
    · exact hf hold
    · exact absurd (mentions_of_mem_productions hp hmem) hn

/-- While no right-hand side mentions the goal, only the end of input follows it. -/
theorem eq_endOfInput_of_mem_followsWith (hgoal : ¬ g.Mentions (.nonterminal .goal))
    {t : TerminalId} (ht : t ∈ (g.followsWith nulls firsts).get .goal) : t = .endOfInput := by
  have hkept : ∀ t, t ∈ (g.followsWith nulls firsts).get .goal → t = .endOfInput := by
    apply TerminalFamily.run_passes_invariant (P := fun f => ∀ t, t ∈ f.get .goal → t = .endOfInput)
      (g.followPass nulls firsts) (fun _ => rfl)
    · exact fun f hf t ht => hf t (mem_of_mem_followPass hgoal ht)
    · intro t ht
      rcases TerminalFamily.mem_get_add.mp ht with hempty | ⟨-, -, hsingle⟩
      · rw [TerminalFamily.get_empty] at hempty
        exact absurd hempty (TerminalSet.not_mem_empty t)
      · exact TerminalSet.mem_singleton.mp hsingle
  exact hkept t ht

end Grammar

end ShiftReduce
