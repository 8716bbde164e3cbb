import ShiftReduce.Analysis.Basic
import ShiftReduce.Proofs.Analysis.First
import ShiftReduce.Proofs.Grammar.Build
import ShiftReduce.Proofs.Grammar.Derivation

/-!
# NULLABLE and FIRST are what derivations say

Passes add only what some derivation accounts for. In the other direction a derivation step is read
backwards: what can begin the form behind the step can begin the form before it.
-/

namespace ShiftReduce

variable {g : Grammar}

section Symbols

variable {nulls : Roster NonterminalId} {firsts : TerminalFamily}

/-- What stands behind some symbols counts when all of them are nullable. -/
theorem mem_firstOfSymbols_append {xs ys : List Symbol} {t : TerminalId} :
    t ∈ firstOfSymbols nulls firsts (xs ++ ys) ↔ t ∈ firstOfSymbols nulls firsts xs ∨
      xs.all (·.isIn nulls) = true ∧ t ∈ firstOfSymbols nulls firsts ys := by
  induction xs with
  | nil => simp [firstOfSymbols]
  | cons x rest ih =>
    have hrest : t ∈ firstOfSymbols nulls firsts (x :: rest) ↔ _ := mem_firstOfSymbols_cons
    rw [List.cons_append, mem_firstOfSymbols_cons, ih, hrest, List.all_cons, Bool.and_eq_true,
      and_or_left, or_assoc, and_assoc]

end Symbols

/-- The nonterminals of the closure have whatever the seed has and productions hand on. -/
theorem Grammar.nullableClosure_least {P : NonterminalId → Prop}
    (hrule : ∀ p ∈ g.productionIds,
      (∀ x ∈ (g.production p).right.toList, ∃ n, x = .nonterminal n ∧ P n) →
        P (g.production p).left)
    {seed : Roster NonterminalId} (hseed : ∀ n ∈ seed.toList, P n) :
    ∀ n ∈ (g.nullableClosure seed).toList, P n := by
  have hpass : ∀ nulls : Roster NonterminalId, (∀ n ∈ nulls.toList, P n) →
      ∀ n ∈ (g.nullablePass nulls).toList, P n := by
    intro nulls hnulls
    unfold nullablePass
    apply List.foldlRecOn (motive := fun s : Roster NonterminalId => ∀ n ∈ s.toList, P n) _ _ hnulls
    intro s hs production hproduction n hn
    rcases mem_addNullable.mp hn with hold | ⟨hright, rfl⟩
    · exact hs n hold
    · obtain ⟨p, hp, rfl⟩ := mem_toList_productions.mp hproduction
      refine hrule p hp fun x hx => ?_
      have hin := List.all_eq_true.mp hright x hx
      cases x with
      | terminal t => cases hin
      | nonterminal m => exact ⟨m, rfl, hs m (Symbol.isIn_nonterminal.mp hin)⟩
  unfold nullableClosure
  apply Loop.run_invariant (P := fun s : Roster NonterminalId => ∀ n ∈ s.toList, P n) _ _ _ hseed
  · intro s last hs hlast
    unfold nullableStep at hlast
    dsimp only at hlast
    split at hlast
    next => rwa [← Loop.Step.last.inj hlast]
    next => cases hlast
  · intro s next hs hnext
    unfold nullableStep at hnext
    dsimp only at hnext
    split at hnext
    next => cases hnext
    next => rw [← Loop.Step.next.inj hnext]; exact hpass s hs

/-- FIRST sets have nothing but what productions hand on. -/
theorem Grammar.firstsWith_least {nulls : Roster NonterminalId}
    {P : NonterminalId → TerminalId → Prop}
    (hrule : ∀ p ∈ g.productionIds, ∀ firsts : TerminalFamily, (∀ n t, t ∈ firsts.get n → P n t) →
      ∀ t, t ∈ firstOfSymbols nulls firsts (g.production p).right.toList →
        P (g.production p).left t)
    (n : NonterminalId) (t : TerminalId) : t ∈ (g.firstsWith nulls).get n → P n t := by
  refine TerminalFamily.run_passes_invariant (P := fun f => ∀ n t, t ∈ f.get n → P n t)
    (g.firstPass nulls) (fun _ => rfl) ?_ _ ?_ n t
  · intro f hf
    unfold firstPass
    apply List.foldlRecOn (motive := fun f : TerminalFamily => ∀ n t, t ∈ f.get n → P n t) _ _ hf
    intro f hf production hproduction n t ht
    rcases TerminalFamily.mem_get_add.mp ht with hold | ⟨rfl, -, hmore⟩
    · exact hf n t hold
    · obtain ⟨p, hp, rfl⟩ := mem_toList_productions.mp hproduction
      exact hrule p hp f hf t hmore
  · intro n t ht
    rw [TerminalFamily.get_empty] at ht
    exact absurd ht (TerminalSet.not_mem_empty t)

namespace Derives

/-- Symbols that derive nothing each derive nothing together. -/
theorem nil_of_forall {xs : List Symbol} (hxs : ∀ x ∈ xs, Derives g [x] []) : Derives g xs [] := by
  induction xs with
  | nil => exact .refl []
  | cons x rest ih =>
    have hrest := ih fun y hy => hxs y (List.mem_cons_of_mem x hy)
    exact (hxs x List.mem_cons_self).append hrest

theorem nil_of_mem_nullables {n : NonterminalId} (hn : n ∈ g.nullables.toList) :
    Derives g [.nonterminal n] [] := by
  refine Grammar.nullableClosure_least (P := fun n => Derives g [.nonterminal n] []) ?_ ?_ n hn
  · intro p hp hright
    refine (Derives.production hp).trans (nil_of_forall fun x hx => ?_)
    obtain ⟨m, rfl, hm⟩ := hright x hx
    exact hm
  · exact fun n hn => absurd hn List.not_mem_nil

theorem nil_of_isIn {x : Symbol} (hx : x.isIn g.nullables = true) : Derives g [x] [] := by
  cases x with
  | terminal t => cases hx
  | nonterminal n => exact nil_of_mem_nullables (Symbol.isIn_nonterminal.mp hx)

theorem nil_of_all_isIn {xs : List Symbol} (hxs : xs.all (·.isIn g.nullables) = true) :
    Derives g xs [] :=
  nil_of_forall fun x hx => nil_of_isIn (List.all_eq_true.mp hxs x hx)

/-- What can begin some symbols begins a form that they derive. -/
theorem cons_of_mem_first {firsts : TerminalFamily}
    (hfirsts : ∀ n t, t ∈ firsts.get n → ∃ rest, Derives g [.nonterminal n] (.terminal t :: rest))
    {xs : List Symbol} {t : TerminalId} (ht : t ∈ firstOfSymbols g.nullables firsts xs) :
    ∃ rest, Derives g xs (.terminal t :: rest) := by
  induction xs with
  | nil => exact absurd ht (TerminalSet.not_mem_empty t)
  | cons x xs ih =>
    cases x with
    | terminal u =>
      rw [firstOfSymbols, TerminalSet.mem_singleton] at ht
      exact ⟨xs, ht ▸ .refl _⟩
    | nonterminal n =>
      rcases mem_firstOfSymbols_nonterminal.mp ht with hfirst | ⟨hn, hrest⟩
      · obtain ⟨rest, hrest⟩ := hfirsts n t hfirst
        exact ⟨rest ++ xs, hrest.append_right xs⟩
      · obtain ⟨rest, hrest⟩ := ih hrest
        exact ⟨rest, (nil_of_mem_nullables hn).append hrest⟩

theorem cons_of_mem_firstsWith {n : NonterminalId} {t : TerminalId}
    (ht : t ∈ (g.firstsWith g.nullables).get n) :
    ∃ rest, Derives g [.nonterminal n] (.terminal t :: rest) := by
  refine Grammar.firstsWith_least
    (P := fun n t => ∃ rest, Derives g [.nonterminal n] (.terminal t :: rest)) ?_ n t ht
  intro p hp firsts hfirsts t ht
  obtain ⟨rest, hrest⟩ := cons_of_mem_first hfirsts ht
  exact ⟨rest, (Derives.production hp).trans hrest⟩

end Derives

section Backwards

variable {form next : List Symbol}

theorem DerivationStep.all_isIn (hstep : DerivationStep g form next)
    (hnext : next.all (·.isIn g.nullables) = true) : form.all (·.isIn g.nullables) = true := by
  obtain ⟨before, after, hp⟩ := hstep
  simp only [List.all_append, List.all_cons, Bool.and_eq_true] at hnext ⊢
  obtain ⟨hbefore, hright, hafter⟩ := hnext
  exact ⟨hbefore, Symbol.isIn_nonterminal.mpr (Grammar.left_mem_nullables hp hright), hafter⟩

/-- What can begin the form behind a step can begin the form before it. -/
theorem DerivationStep.mem_first (hg : g.WellFormed) (hstep : DerivationStep g form next)
    {t : TerminalId} (ht : t ∈ firstOfSymbols g.nullables (g.firstsWith g.nullables) next) :
    t ∈ firstOfSymbols g.nullables (g.firstsWith g.nullables) form := by
  obtain ⟨before, after, hp⟩ := hstep
  rw [mem_firstOfSymbols_append] at ht ⊢
  refine ht.imp_right fun ⟨hbefore, hbehind⟩ => ⟨hbefore, ?_⟩
  rw [mem_firstOfSymbols_append] at hbehind
  rw [mem_firstOfSymbols_nonterminal]
  rcases hbehind with hright | ⟨hright, hafter⟩
  · exact .inl (Grammar.mem_firstsWith hg hp hright)
  · exact .inr ⟨Grammar.left_mem_nullables hp hright, hafter⟩

theorem Derives.all_isIn (hderives : Derives g form next)
    (hnext : next.all (·.isIn g.nullables) = true) : form.all (·.isIn g.nullables) = true := by
  induction hderives with
  | refl => exact hnext
  | tail _ hstep ih => exact ih (hstep.all_isIn hnext)

theorem Derives.mem_first (hg : g.WellFormed) (hderives : Derives g form next) {t : TerminalId}
    (ht : t ∈ firstOfSymbols g.nullables (g.firstsWith g.nullables) next) :
    t ∈ firstOfSymbols g.nullables (g.firstsWith g.nullables) form := by
  induction hderives with
  | refl => exact ht
  | tail _ hstep ih => exact ih (hstep.mem_first hg ht)

end Backwards

/-- FIRST of a nonterminal has the terminals that begin the forms it derives. -/
theorem Grammar.WellFormed.mem_first_iff (hg : g.WellFormed) {n : NonterminalId} {t : TerminalId} :
    t ∈ (g.firstsWith g.nullables).get n ↔
      ∃ rest, Derives g [.nonterminal n] (.terminal t :: rest) := by
  refine ⟨Derives.cons_of_mem_firstsWith, ?_⟩
  rintro ⟨rest, hderives⟩
  have hhead : t ∈ firstOfSymbols g.nullables (g.firstsWith g.nullables) (.terminal t :: rest) := by
    rw [firstOfSymbols, TerminalSet.mem_singleton]
  rcases mem_firstOfSymbols_nonterminal.mp (hderives.mem_first hg hhead) with hfirst | hnone
  · exact hfirst
  · exact absurd hnone.2 (TerminalSet.not_mem_empty t)

/-- FIRST of any nonterminal is exact. -/
theorem mem_firsts_iff_derives {declarations : List Declaration}
    (hg : Grammar.ofDeclarations declarations = .ok g) (n : NonterminalId) (t : TerminalId) :
    t ∈ (g.firstsWith g.nullables).get n ↔
      ∃ rest, Derives g [.nonterminal n] (.terminal t :: rest) :=
  (Grammar.wellFormed_of_ofDeclarations hg).mem_first_iff

/-- A word in brackets can begin with the opening one only. -/
theorem brackets_mem_firsts_iff_derives :
    (∃ rest, Derives brackets [.nonterminal brackets.start] (.terminal ⟨1⟩ :: rest)) ∧
      ¬ ∃ rest, Derives brackets [.nonterminal brackets.start] (.terminal ⟨2⟩ :: rest) :=
  ⟨(mem_firsts_iff_derives ofDeclarations_brackets brackets.start ⟨1⟩).mp (by decide +kernel),
    (mem_firsts_iff_derives ofDeclarations_brackets brackets.start ⟨2⟩).not.mp (by decide +kernel)⟩

end ShiftReduce
