import ShiftReduce.Proofs.Analysis.FirstExact
import ShiftReduce.Proofs.Analysis.Follow

/-!
# FOLLOW is what derivations say

Passes add only what some derivation shows right behind the nonterminal. In the other direction,
what stands behind an occurrence in a derived form contributes to FOLLOW, by induction on the
derivation: a step keeps the occurrences around it, and those in the right-hand side have behind
them the rest of the right-hand side and then what was behind the left-hand side.
-/

namespace ShiftReduce

variable {g : Grammar}

/-- The terminal stands right behind the nonterminal in a form that some nonterminal derives, or it
is the end of input and the nonterminal ends a form that the goal derives. -/
def CanFollow (g : Grammar) (n : NonterminalId) (t : TerminalId) : Prop :=
  (∃ m ∈ g.nonterminalIds, ∃ before after,
    Derives g [.nonterminal m] (before ++ .nonterminal n :: .terminal t :: after)) ∨
  t = .endOfInput ∧ ∃ before, Derives g [.nonterminal .goal] (before ++ [.nonterminal n])

section Least

variable {nulls : Roster NonterminalId} {firsts : TerminalFamily}
  {P : NonterminalId → TerminalId → Prop}

theorem addFollows_least {left : NonterminalId} {xs : List Symbol}
    (hrule : ∀ n rest, .nonterminal n :: rest <:+ xs → ∀ follows : TerminalFamily,
      (∀ n t, t ∈ follows.get n → P n t) → ∀ t, t ∈ behind nulls firsts follows left rest → P n t)
    {follows : TerminalFamily} (hfollows : ∀ n t, t ∈ follows.get n → P n t) (n : NonterminalId)
    (t : TerminalId) : t ∈ (addFollows nulls firsts left follows xs).get n → P n t := by
  induction xs generalizing follows with
  | nil => exact hfollows n t
  | cons x rest ih =>
    have hrest : ∀ m last, .nonterminal m :: last <:+ rest → .nonterminal m :: last <:+ x :: rest :=
      fun _ _ hlast => hlast.trans (List.suffix_cons x rest)
    cases x with
    | terminal u => exact ih (fun m last hlast => hrule m last (hrest m last hlast)) hfollows
    | nonterminal m =>
      rw [addFollows_nonterminal]
      refine ih (fun m last hlast => hrule m last (hrest m last hlast)) fun k u hu => ?_
      rcases TerminalFamily.mem_get_add.mp hu with hold | ⟨rfl, -, hmore⟩
      · exact hfollows k u hold
      · exact hrule k rest List.suffix_rfl follows hfollows u hmore

/-- FOLLOW sets have nothing but the end of input behind the goal and what occurrences hand on. -/
theorem Grammar.followsWith_least (hgoal : P .goal .endOfInput)
    (hrule : ∀ p ∈ g.productionIds, ∀ n rest,
      .nonterminal n :: rest <:+ (g.production p).right.toList → ∀ follows : TerminalFamily,
      (∀ n t, t ∈ follows.get n → P n t) →
        ∀ t, t ∈ behind nulls firsts follows (g.production p).left rest → P n t)
    (n : NonterminalId) (t : TerminalId) : t ∈ (g.followsWith nulls firsts).get n → P n t := by
  refine TerminalFamily.run_passes_invariant (P := fun f => ∀ n t, t ∈ f.get n → P n t)
    (g.followPass nulls firsts) (fun _ => rfl) ?_ _ ?_ n t
  · intro f hf
    unfold followPass
    apply List.foldlRecOn (motive := fun f : TerminalFamily => ∀ n t, t ∈ f.get n → P n t) _ _ hf
    intro f hf production hproduction
    obtain ⟨p, hp, rfl⟩ := mem_toList_productions.mp hproduction
    exact addFollows_least (hrule p hp) hf
  · intro n t ht
    rcases TerminalFamily.mem_get_add.mp ht with hempty | ⟨rfl, -, hsingle⟩
    · rw [TerminalFamily.get_empty] at hempty
      exact absurd hempty (TerminalSet.not_mem_empty t)
    · rwa [TerminalSet.mem_singleton.mp hsingle]

end Least

namespace CanFollow

theorem goal_endOfInput : CanFollow g .goal .endOfInput :=
  .inr ⟨rfl, [], .refl _⟩

/-- A production puts what its rest begins with behind the nonterminal. -/
theorem of_derives_cons (hg : g.WellFormed) {p : ProductionId} (hp : p ∈ g.productionIds)
    {n : NonterminalId} {before rest after : List Symbol}
    (hright : before ++ .nonterminal n :: rest = (g.production p).right.toList) {t : TerminalId}
    (hrest : Derives g rest (.terminal t :: after)) : CanFollow g n t := by
  refine .inl ⟨_, hg.left_mem p hp, before, after, ?_⟩
  have hderives := Derives.production hp
  rw [← hright] at hderives
  exact hderives.trans ((hrest.append_left [.nonterminal n]).append_left before)

/-- Where the rest of a production vanishes, what follows the left-hand side follows the
nonterminal. -/
theorem of_left {p : ProductionId} (hp : p ∈ g.productionIds) {n : NonterminalId}
    {before rest : List Symbol}
    (hright : before ++ .nonterminal n :: rest = (g.production p).right.toList)
    (hrest : Derives g rest []) {t : TerminalId} (hleft : CanFollow g (g.production p).left t) :
    CanFollow g n t := by
  have hends : Derives g [.nonterminal (g.production p).left] (before ++ [.nonterminal n]) := by
    have hderives := Derives.production hp
    rw [← hright] at hderives
    exact hderives.trans ((hrest.append_left [.nonterminal n]).append_left before)
  rcases hleft with ⟨m, hm, front, after, hderives⟩ | ⟨rfl, front, hderives⟩
  · refine .inl ⟨m, hm, front ++ before, after, ?_⟩
    have hreplaced := hderives.trans (hends.between front (.terminal t :: after))
    simpa only [List.append_assoc, List.singleton_append] using hreplaced
  · refine .inr ⟨rfl, front ++ before, ?_⟩
    have hreplaced := hderives.trans (hends.append_left front)
    rwa [← List.append_assoc] at hreplaced

/-- FOLLOW sets have only what can follow. -/
theorem of_mem_follows (hg : g.WellFormed) {n : NonterminalId} {t : TerminalId}
    (ht : t ∈ g.analysis.follows.get n) : CanFollow g n t := by
  refine Grammar.followsWith_least goal_endOfInput ?_ n t ht
  rintro p hp n rest ⟨before, hright⟩ follows hfollows t ht
  rcases mem_behind.mp ht with hfirst | ⟨hnullable, hleft⟩
  · obtain ⟨after, hrest⟩ :=
      Derives.cons_of_mem_first (fun _ _ => Derives.cons_of_mem_firstsWith) hfirst
    exact of_derives_cons hg hp hright hrest
  · exact of_left hp hright (Derives.nil_of_all_isIn hnullable) (hfollows _ t hleft)

end CanFollow

/-- The terminals that can come behind an occurrence in a form that `root` derives, given what
stands behind the occurrence. -/
def Grammar.behindIn (g : Grammar) (root : NonterminalId) : List Symbol → TerminalSet :=
  behind g.nullables (g.firstsWith g.nullables) g.analysis.follows root

theorem Grammar.mem_behindIn_append {root : NonterminalId} {xs ys : List Symbol} {t : TerminalId} :
    t ∈ g.behindIn root (xs ++ ys) ↔
      t ∈ firstOfSymbols g.nullables (g.firstsWith g.nullables) xs ∨
        xs.all (·.isIn g.nullables) = true ∧ t ∈ g.behindIn root ys := by
  rw [behindIn, mem_behind, mem_behind, mem_firstOfSymbols_append, List.all_append,
    Bool.and_eq_true, and_or_left, or_assoc, and_assoc]

/-- Whatever stands behind occurrences of nonterminals in a form is in their FOLLOW sets. -/
def Contributes (g : Grammar) (root : NonterminalId) (form : List Symbol) : Prop :=
  ∀ n after, .nonterminal n :: after <:+ form →
    ∀ t, t ∈ g.behindIn root after → t ∈ g.analysis.follows.get n

/-- A place in two lists one after the other is in the second or in the first. -/
theorem cons_suffix_append_iff {α : Type} {x : α} {rest xs ys : List α} :
    x :: rest <:+ xs ++ ys ↔
      x :: rest <:+ ys ∨ ∃ inner, rest = inner ++ ys ∧ x :: inner <:+ xs := by
  induction xs with
  | nil => simp
  | cons first xs ih =>
    rw [List.cons_append, List.suffix_cons_iff, ih]
    constructor
    · rintro (heq | hys | ⟨inner, rfl, hinner⟩)
      · obtain ⟨rfl, rfl⟩ := List.cons.inj heq
        exact .inr ⟨xs, rfl, List.suffix_rfl⟩
      · exact .inl hys
      · exact .inr ⟨inner, rfl, hinner.trans (List.suffix_cons first xs)⟩
    · rintro (hys | ⟨inner, rfl, hinner⟩)
      · exact .inr (.inl hys)
      · rcases List.suffix_cons_iff.mp hinner with heq | hinner
        · obtain ⟨rfl, rfl⟩ := List.cons.inj heq
          exact .inl rfl
        · exact .inr (.inr ⟨inner, rfl, hinner⟩)

namespace Contributes

variable {root : NonterminalId}

theorem root_alone (root : NonterminalId) : Contributes g root [.nonterminal root] := by
  intro n after hsuffix t ht
  rcases List.suffix_cons_iff.mp hsuffix with heq | hnil
  · obtain ⟨hroot, rfl⟩ := List.cons.inj heq
    obtain rfl := Symbol.nonterminal.inj hroot
    rcases mem_behind.mp ht with hnone | ⟨-, hfollow⟩
    · exact absurd hnone (TerminalSet.not_mem_empty t)
    · exact hfollow
  · cases List.eq_nil_of_suffix_nil hnil

/-- A right-hand side hands on no more than its left-hand side did. -/
theorem mem_behindIn_left (hg : g.WellFormed) {p : ProductionId} (hp : p ∈ g.productionIds)
    {after : List Symbol} {t : TerminalId}
    (ht : t ∈ g.behindIn root ((g.production p).right.toList ++ after)) :
    t ∈ g.behindIn root (.nonterminal (g.production p).left :: after) := by
  rw [← List.singleton_append, Grammar.mem_behindIn_append]
  rcases Grammar.mem_behindIn_append.mp ht with hright | ⟨hright, hafter⟩
  · exact .inl (mem_firstOfSymbols_nonterminal.mpr (.inl (Grammar.mem_firstsWith hg hp hright)))
  · refine .inr ⟨?_, hafter⟩
    rw [List.all_cons, List.all_nil, Bool.and_true, Symbol.isIn_nonterminal]
    exact Grammar.left_mem_nullables hp hright

/-- A step keeps the occurrences around it and adds those of a right-hand side. -/
theorem step (hg : g.WellFormed) {form next : List Symbol} (hform : Contributes g root form)
    (hstep : DerivationStep g form next) : Contributes g root next := by
  obtain ⟨front, back, hp⟩ := hstep
  intro n after hsuffix t ht
  rcases cons_suffix_append_iff.mp hsuffix with hsuffix | ⟨inner, rfl, hfront⟩
  · rcases cons_suffix_append_iff.mp hsuffix with hback | ⟨inner, rfl, hright⟩
    -- behind the right-hand side nothing changes
    · refine hform n after (hback.trans ?_) t ht
      exact (List.suffix_cons _ back).trans (List.suffix_append front _)
    -- in the right-hand side, its rest comes first, and then what was behind the left-hand side
    · refine Grammar.mem_followsWith hg hp hright (mem_behind.mpr ?_)
      rcases Grammar.mem_behindIn_append.mp ht with hfirst | ⟨hnullable, hback⟩
      · exact .inl hfirst
      · exact .inr ⟨hnullable, hform _ back (List.suffix_append front _) t hback⟩
  -- in front of the right-hand side, the left-hand side stood for it
  · refine hform n _ (cons_suffix_append_iff.mpr (.inr ⟨inner, rfl, hfront⟩)) t ?_
    rw [Grammar.mem_behindIn_append] at ht ⊢
    exact ht.imp_right fun ⟨hinner, hbehind⟩ => ⟨hinner, mem_behindIn_left hg hp hbehind⟩

theorem of_derives (hg : g.WellFormed) {form : List Symbol}
    (hderives : Derives g [.nonterminal root] form) : Contributes g root form := by
  induction hderives with
  | refl => exact root_alone root
  | tail _ hstep ih => exact ih.step hg hstep

end Contributes

/-- FOLLOW sets have all that can follow. -/
theorem CanFollow.mem_follows (hg : g.WellFormed) {n : NonterminalId} {t : TerminalId}
    (ht : CanFollow g n t) : t ∈ g.analysis.follows.get n := by
  rcases ht with ⟨m, -, before, after, hderives⟩ | ⟨rfl, before, hderives⟩
  · refine Contributes.of_derives hg hderives n _ (List.suffix_append before _) t ?_
    refine mem_behind.mpr (.inl ?_)
    rw [firstOfSymbols, TerminalSet.mem_singleton]
  · refine Contributes.of_derives hg hderives n [] (List.suffix_append before _) _ ?_
    refine mem_behind.mpr (.inr ⟨rfl, ?_⟩)
    exact Grammar.endOfInput_mem_followsWith hg g.nullables (g.firstsWith g.nullables)

theorem Grammar.WellFormed.mem_follow_iff (hg : g.WellFormed) {n : NonterminalId} {t : TerminalId} :
    t ∈ g.analysis.follows.get n ↔ CanFollow g n t :=
  ⟨CanFollow.of_mem_follows hg, CanFollow.mem_follows hg⟩

/-- FOLLOW of any nonterminal is exact. -/
theorem mem_follows_iff_canFollow {declarations : List Declaration}
    (hg : Grammar.ofDeclarations declarations = .ok g) (n : NonterminalId) (t : TerminalId) :
    t ∈ g.analysis.follows.get n ↔ CanFollow g n t :=
  (Grammar.wellFormed_of_ofDeclarations hg).mem_follow_iff

/-- Behind a word in brackets comes a closing one or the end, but no opening one. -/
theorem brackets_mem_follows_iff_canFollow :
    CanFollow brackets brackets.start ⟨2⟩ ∧ CanFollow brackets brackets.start .endOfInput ∧
      ¬ CanFollow brackets brackets.start ⟨1⟩ :=
  ⟨(mem_follows_iff_canFollow ofDeclarations_brackets brackets.start ⟨2⟩).mp (by decide +kernel),
    (mem_follows_iff_canFollow ofDeclarations_brackets brackets.start _).mp (by decide +kernel),
    (mem_follows_iff_canFollow ofDeclarations_brackets brackets.start ⟨1⟩).not.mp
      (by decide +kernel)⟩

end ShiftReduce
