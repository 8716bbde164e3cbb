import Mathlib.Order.Bounds.Defs
import Mathlib.Data.Set.Basic
import ShiftReduce.Proofs.Analysis.FollowExact

/-!
# FIRST and FOLLOW are least

Whatever nonterminals are taken as nullable, and whatever sets as FIRST, the sets that the passes
end with are the least that satisfy the inclusions productions ask for. More assumptions ask for
more inclusions, so the sets grow with them.
-/

namespace ShiftReduce

variable {g : Grammar} {nulls : Roster NonterminalId}

/-- The sets of a family as sets. -/
def TerminalFamily.members (f : TerminalFamily) (n : NonterminalId) : Set TerminalId :=
  {t | t ∈ f.get n}

/-- What a symbol begins with: a terminal with itself, a nonterminal with what its set has. -/
def Symbol.beginnings (sets : NonterminalId → Set TerminalId) : Symbol → Set TerminalId
  | .terminal t => {t}
  | .nonterminal n => sets n

theorem Symbol.beginnings_mono {sets more : NonterminalId → Set TerminalId} (hle : sets ≤ more)
    (x : Symbol) : x.beginnings sets ⊆ x.beginnings more := by
  cases x with
  | terminal t => exact subset_rfl
  | nonterminal n => exact hle n

/-- All symbols are nonterminals that are taken as nullable. -/
def AllIn (nulls : Roster NonterminalId) (xs : List Symbol) : Prop :=
  ∀ x ∈ xs, ∃ n ∈ nulls.toList, x = .nonterminal n

theorem all_isIn_iff {xs : List Symbol} : xs.all (·.isIn nulls) = true ↔ AllIn nulls xs := by
  rw [List.all_eq_true]
  refine forall₂_congr fun x _ => ?_
  cases x with
  | terminal t => simp [Symbol.isIn]
  | nonterminal n => simp

theorem AllIn.mono {more : Roster NonterminalId} (hsub : nulls.toList ⊆ more.toList)
    {xs : List Symbol} (hxs : AllIn nulls xs) : AllIn more xs := by
  intro x hx
  obtain ⟨n, hn, heq⟩ := hxs x hx
  exact ⟨n, hsub hn, heq⟩

/-- What some symbols begin with is what one of them begins with, behind nullable ones only. -/
theorem mem_firstOfSymbols_iff {firsts : TerminalFamily} {xs : List Symbol} {t : TerminalId} :
    t ∈ firstOfSymbols nulls firsts xs ↔ ∃ before x after, xs = before ++ x :: after ∧
      AllIn nulls before ∧ t ∈ x.beginnings firsts.members := by
  constructor
  · intro ht
    induction xs with
    | nil => exact absurd ht (TerminalSet.not_mem_empty t)
    | cons x rest ih =>
      rcases mem_firstOfSymbols_cons.mp ht with hhead | ⟨hnull, hrest⟩
      · refine ⟨[], x, rest, rfl, by simp [AllIn], ?_⟩
        cases x with
        | terminal u => exact TerminalSet.mem_singleton.mp hhead
        | nonterminal n =>
          rcases mem_firstOfSymbols_nonterminal.mp hhead with hfirst | ⟨-, hnone⟩
          · exact hfirst
          · exact absurd hnone (TerminalSet.not_mem_empty t)
      · obtain ⟨before, y, after, rfl, hbefore, hy⟩ := ih hrest
        refine ⟨x :: before, y, after, rfl, ?_, hy⟩
        rw [← all_isIn_iff, List.all_cons, hnull, all_isIn_iff.mpr hbefore, Bool.and_self]
  · rintro ⟨before, x, after, rfl, hbefore, hx⟩
    refine mem_firstOfSymbols_append.mpr (.inr ⟨all_isIn_iff.mpr hbefore, ?_⟩)
    refine mem_firstOfSymbols_cons.mpr (.inl ?_)
    cases x with
    | terminal u => exact TerminalSet.mem_singleton.mpr hx
    | nonterminal n => exact mem_firstOfSymbols_nonterminal.mpr (.inl hx)

namespace Grammar

/-- The set of a left-hand side has what each symbol begins with that has nullable symbols only in
front of it on the right-hand side. -/
def IsFirstClosed (g : Grammar) (nulls : Roster NonterminalId)
    (sets : NonterminalId → Set TerminalId) : Prop :=
  ∀ p ∈ g.productionIds, ∀ before x after, (g.production p).right.toList = before ++ x :: after →
    AllIn nulls before → x.beginnings sets ⊆ sets (g.production p).left

/-- The end of input is in the set of the goal. The set of a nonterminal has what each symbol begins
with that comes behind an occurrence with nullable symbols only in between, and if there are only
such symbols behind it, the set of the left-hand side. -/
structure IsFollowClosed (g : Grammar) (nulls : Roster NonterminalId) (firsts : TerminalFamily)
    (sets : NonterminalId → Set TerminalId) : Prop where
  endOfInput_mem : .endOfInput ∈ sets .goal
  beginnings_subset : ∀ p ∈ g.productionIds, ∀ before n between x after,
    (g.production p).right.toList = before ++ .nonterminal n :: (between ++ x :: after) →
      AllIn nulls between → x.beginnings firsts.members ⊆ sets n
  left_subset : ∀ p ∈ g.productionIds, ∀ before n rest,
    (g.production p).right.toList = before ++ .nonterminal n :: rest →
      AllIn nulls rest → sets (g.production p).left ⊆ sets n

section Monotone

variable {more : Roster NonterminalId} (hsub : nulls.toList ⊆ more.toList)
  {sets : NonterminalId → Set TerminalId}

include hsub

theorem IsFirstClosed.of_subset (hsets : g.IsFirstClosed more sets) : g.IsFirstClosed nulls sets :=
  fun p hp before x after hright hbefore => hsets p hp before x after hright (hbefore.mono hsub)

theorem IsFollowClosed.of_subset {firsts others : TerminalFamily}
    (hle : firsts.members ≤ others.members) (hsets : g.IsFollowClosed more others sets) :
    g.IsFollowClosed nulls firsts sets where
  endOfInput_mem := hsets.endOfInput_mem
  beginnings_subset p hp before n between x after hright hbetween :=
    (x.beginnings_mono hle).trans
      (hsets.beginnings_subset p hp before n between x after hright (hbetween.mono hsub))
  left_subset p hp before n rest hright hrest :=
    hsets.left_subset p hp before n rest hright (hrest.mono hsub)

end Monotone

namespace InRange

variable (hg : g.InRange)

include hg

theorem isLeast_firstsWith (nulls : Roster NonterminalId) :
    IsLeast {sets | g.IsFirstClosed nulls sets} (g.firstsWith nulls).members := by
  constructor
  · intro p hp before x after hright hbefore t ht
    exact hg.mem_firstsWith hp (mem_firstOfSymbols_iff.mpr ⟨before, x, after, hright, hbefore, ht⟩)
  · intro sets hsets n t ht
    refine firstsWith_least (P := fun n t => t ∈ sets n) ?_ n t ht
    intro p hp firsts hfirsts t ht
    obtain ⟨before, x, after, hright, hbefore, hx⟩ := mem_firstOfSymbols_iff.mp ht
    exact hsets p hp before x after hright hbefore (x.beginnings_mono hfirsts hx)

theorem isLeast_followsWith (nulls : Roster NonterminalId) (firsts : TerminalFamily) :
    IsLeast {sets | g.IsFollowClosed nulls firsts sets} (g.followsWith nulls firsts).members := by
  constructor
  · refine ⟨hg.endOfInput_mem_followsWith nulls firsts, ?_, ?_⟩
    · intro p hp before n between x after hright hbetween t ht
      refine hg.mem_followsWith hp ⟨before, hright.symm⟩ (mem_behind.mpr (.inl ?_))
      exact mem_firstOfSymbols_iff.mpr ⟨between, x, after, rfl, hbetween, ht⟩
    · intro p hp before n rest hright hrest t ht
      exact hg.mem_followsWith hp ⟨before, hright.symm⟩
        (mem_behind.mpr (.inr ⟨all_isIn_iff.mpr hrest, ht⟩))
  · intro sets hsets n t ht
    refine followsWith_least (P := fun n t => t ∈ sets n) hsets.endOfInput_mem ?_ n t ht
    rintro p hp n rest ⟨before, hright⟩ follows hfollows t ht
    rcases mem_behind.mp ht with hfirst | ⟨hrest, hleft⟩
    · obtain ⟨between, x, after, rfl, hbetween, hx⟩ := mem_firstOfSymbols_iff.mp hfirst
      exact hsets.beginnings_subset p hp before n between x after hright.symm hbetween hx
    · exact hsets.left_subset p hp before n rest hright.symm (all_isIn_iff.mp hrest)
        (hfollows _ t hleft)

theorem firstsWith_mono {more : Roster NonterminalId} (hsub : nulls.toList ⊆ more.toList) :
    (g.firstsWith nulls).members ≤ (g.firstsWith more).members :=
  (hg.isLeast_firstsWith nulls).2 ((hg.isLeast_firstsWith more).1.of_subset hsub)

theorem followsWith_mono {more : Roster NonterminalId} (hsub : nulls.toList ⊆ more.toList)
    {firsts others : TerminalFamily} (hle : firsts.members ≤ others.members) :
    (g.followsWith nulls firsts).members ≤ (g.followsWith more others).members :=
  (hg.isLeast_followsWith nulls firsts).2
    ((hg.isLeast_followsWith more others).1.of_subset hsub hle)

end InRange

end Grammar

end ShiftReduce
