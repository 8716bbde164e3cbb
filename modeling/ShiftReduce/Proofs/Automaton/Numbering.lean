import ShiftReduce.Proofs.Automaton.Determinization

/-!
# States are numbered in preorder

A recursive traversal numbers an item set when it first comes to it and visits its successors before
it returns. The search keeps the calls that are still to be made on its stack, where a set can stand
several times; what the traversal makes of the stack is the same in every step.
-/

namespace ShiftReduce

variable {g : Grammar}

/-- The symbols over which a set of items is left, by descending name. -/
structure LeavesDescending (g : Grammar) (items : List Item) (symbols : List Symbol) : Prop where
  mem_iff : ∀ x, x ∈ symbols ↔ goto g items x ≠ []
  descending : symbols.Pairwise fun x y => g.symbolName y < g.symbolName x

/-- Visiting some item sets one after the other, each with all that is reached from it. The sets
that were numbered before stand in the first list, and those that are numbered then in the last. -/
inductive Visits (g : Grammar) : List (List Item) → List (List Item) → List (List Item) → Prop
  | done {known : List (List Item)} : Visits g known [] known
  | skip {known rest last : List (List Item)} {items : List Item} (hknown : items ∈ known)
      (hrest : Visits g known rest last) : Visits g known (items :: rest) last
  | visit {known rest inner last : List (List Item)} {items : List Item} {symbols : List Symbol}
      (hnew : items ∉ known) (hsymbols : LeavesDescending g items symbols)
      (hinner : Visits g (known ++ [items]) (symbols.map (goto g items)) inner)
      (hrest : Visits g inner rest last) : Visits g known (items :: rest) last

theorem LeavesDescending.unique {items : List Item} {symbols others : List Symbol}
    (hsymbols : LeavesDescending g items symbols) (hothers : LeavesDescending g items others) :
    symbols = others := by
  have hnodup {xs : List Symbol} (hxs : xs.Pairwise fun x y => g.symbolName y < g.symbolName x) :
      xs.Nodup := by
    refine List.nodup_iff_pairwise_ne.mpr (hxs.imp fun {x y} hlt heq => ?_)
    exact String.lt_irrefl _ (heq ▸ hlt)
  have hperm : symbols.Perm others :=
    (List.perm_ext_iff_of_nodup (hnodup hsymbols.descending) (hnodup hothers.descending)).mpr
      fun x => (hsymbols.mem_iff x).trans (hothers.mem_iff x).symm
  refine hperm.eq_of_pairwise (fun x y _ _ hlt hgt => ?_) hsymbols.descending hothers.descending
  exact absurd hgt (String.lt_asymm hlt)

/-- The symbols behind the markers, from the last name to the first. -/
theorem leavesDescending_reverse (hg : g.WellFormed) {items : List Item}
    (hitems : g.HasItems items) : LeavesDescending g items (nextSymbols g items).reverse where
  mem_iff x := by rw [List.mem_reverse, Ne, goto_eq_nil_iff hg hitems, not_not]
  descending := by
    rw [List.pairwise_reverse]
    exact (pairwise_nextSymbols hg hitems).imp fun hlt => compareOfLessAndEq_eq_lt.mp hlt

namespace Visits

/-- A traversal comes to one end only. -/
theorem unique {known pending last last' : List (List Item)} (hlast : Visits g known pending last)
    (hlast' : Visits g known pending last') : last = last' := by
  induction hlast generalizing last' with
  | done =>
    cases hlast'
    rfl
  | skip hknown _ ih =>
    cases hlast' with
    | skip _ hrest => exact ih hrest
    | visit hnew => exact absurd hknown hnew
  | visit hnew hsymbols _ _ ihinner ihrest =>
    cases hlast' with
    | skip hknown => exact absurd hknown hnew
    | visit _ hothers hinner hrest =>
      obtain rfl := hsymbols.unique hothers
      obtain rfl := ihinner hinner
      exact ihrest hrest

/-- Whatever comes first is visited to the end before the others. -/
theorem exists_of_append {known first second last : List (List Item)}
    (hlast : Visits g known (first ++ second) last) :
    ∃ inner, Visits g known first inner ∧ Visits g inner second last := by
  induction first generalizing known with
  | nil => exact ⟨known, .done, hlast⟩
  | cons items rest ih =>
    cases hlast with
    | skip hknown hrest =>
      obtain ⟨inner, hfirst, hsecond⟩ := ih hrest
      exact ⟨inner, hfirst.skip hknown, hsecond⟩
    | visit hnew hsymbols hinner hrest =>
      obtain ⟨inner, hfirst, hsecond⟩ := ih hrest
      exact ⟨inner, .visit hnew hsymbols hinner hfirst, hsecond⟩

end Visits

namespace Search

theorem eq_of_step_eq_last {s final : Search} (hlast : step g s = .last final) : final = s := by
  unfold step at hlast
  split at hlast
  next => exact (Loop.Step.last.inj hlast).symm
  next => split at hlast <;> cases hlast

/-- A traversal that goes on from what a search has found and visits what is pending there ends
where a traversal from the initial set does. -/
def Resumes (g : Grammar) (s : Search) : Prop :=
  ∀ last, Visits g s.found.keys.toList s.pending last → Visits g [] [initialItems g] last

theorem resumes_start : Resumes g (start g) := fun _ => id

variable {s : Search} (hs : Resumes g s) {items : List Item} {rest : List (List Item)}
  (hpending : s.pending = items :: rest)

include hs hpending

theorem Resumes.skip (hitems : items ∈ s.found.keys.toList) : Resumes g (s.skip rest) := by
  intro last hlast
  apply hs
  rw [hpending]
  exact .skip hitems hlast

theorem Resumes.visit (hg : g.WellFormed) (hhas : g.HasItems items)
    (hitems : items ∉ s.found.keys.toList) : Resumes g (s.visit g items rest) := by
  intro last hlast
  have htargets : (s.visit g items rest).pending =
      (nextSymbols g items).reverse.map (goto g items) ++ rest := by
    simp [Search.visit, successors_eq, Function.comp_def]
  rw [keys_visit hitems, htargets] at hlast
  -- the targets on top of the stack are what the call for `items` visits before it returns
  obtain ⟨inner, hinner, hrest⟩ := hlast.exists_of_append
  apply hs
  rw [hpending]
  exact .visit hitems (leavesDescending_reverse hg hhas) hinner hrest

omit hs hpending in
theorem Resumes.step (hg : g.WellFormed) {next : Search} (hsound : Sound g s) (hs : Resumes g s)
    (hnext : step g s = .next next) : Resumes g next := by
  cases hpending : s.pending with
  | nil =>
    rw [step_of_pending_nil hpending] at hnext
    cases hnext
  | cons items rest =>
    by_cases hitems : items ∈ s.found.keys.toList
    · rw [step_of_mem hpending hitems] at hnext
      obtain rfl := Loop.Step.next.inj hnext
      exact hs.skip hpending hitems
    · rw [step_of_not_mem hpending hitems] at hnext
      obtain rfl := Loop.Step.next.inj hnext
      have hreached := hsound.reached_of_pending items (hpending ▸ List.mem_cons_self)
      exact hs.visit hpending hg (hreached.hasItems hg) hitems

end Search

/-- The search ends with nothing left for the traversal to visit. -/
theorem Search.exists_resumes_last (hg : g.WellFormed) :
    ∃ s, Search.Resumes g s ∧ s.pending = [] ∧ Search.run g = s.found := by
  have hlast : ∀ s final, Sound g s ∧ Resumes g s → step g s = .last final →
      Sound g final ∧ Resumes g final := by
    intro s final hs hlast
    rwa [eq_of_step_eq_last hlast]
  have hnext : ∀ s next, Sound g s ∧ Resumes g s → step g s = .next next →
      Sound g next ∧ Resumes g next := by
    intro s next hs hnext
    exact ⟨(hs.1.step hg hnext).1, hs.2.step hg hs.1 hnext⟩
  have hkept := Loop.run_invariant hlast hnext (bound g) ⟨sound_start hg, resumes_start⟩
  exact ⟨_, hkept.2, (sound_last hg).2, rfl⟩

/-- The traversal from the initial set numbers the sets that the search finds, in the same order. -/
theorem visits_run (hg : g.WellFormed) :
    Visits g [] [initialItems g] (Search.run g).keys.toList := by
  obtain ⟨s, hs, hpending, hrun⟩ := Search.exists_resumes_last hg
  have hnone : Visits g s.found.keys.toList s.pending s.found.keys.toList := by
    rw [hpending]
    exact .done
  rw [hrun]
  exact hs _ hnone

/-- The numbers of states are those of the recursive traversal. -/
structure NumbersInPreorder (g : Grammar) (a : Automaton) : Prop where
  /-- The traversal comes to an end, and it has then numbered the item sets of the states in
  order. -/
  visits_iff : ∀ numbered, Visits g [] [closure g [.start .goal]] numbered ↔
    numbered = a.states.toList.map State.items
  /-- A transition refers to its target by the number of the set that is reached. -/
  target_numbered : ∀ q < a.states.size, ∀ x r, (a.state q).target? x = some r →
    (a.states.toList.map State.items)[r]? = some (goto g (a.state q).items x)

theorem numbersInPreorder {declarations : List Declaration}
    (hg : Grammar.ofDeclarations declarations = .ok g) : NumbersInPreorder g g.automaton := by
  have hwf := Grammar.wellFormed_of_ofDeclarations hg
  have hitems : g.automaton.states.toList.map State.items = (Search.run g).keys.toList := by
    rw [Grammar.toList_states hwf, List.map_map, Function.comp_def]
    simp only [State.ofItems, List.map_id']
  have hvisits : Visits g [] [closure g [.start .goal]] (Search.run g).keys.toList := visits_run hwf
  constructor
  · intro numbered
    rw [hitems]
    constructor
    · intro hnumbered
      exact hnumbered.unique hvisits
    · intro heq
      rw [heq]
      exact hvisits
  · intro q hq x r htarget
    rw [hitems, Grammar.getElem?_items_iff hwf]
    exact ((Automaton.target?_eq_some_iff hwf hq).mp htarget).2

/-- The set behind `id` is reached from the start and behind `+`. -/
def termsDeclarations : List Declaration :=
  [.rule "E" ["E", "+", "T"] "", .rule "E" ["T"] "", .rule "T" ["id"] "", .resultType "E" "int",
    .start "E"]

def terms : Grammar :=
  (Grammar.ofDeclarations termsDeclarations).toOption.getD default

/-- State 1 is found first, over the last of the three names, and is found again in state 4. -/
theorem terms_numbersInPreorder :
    Grammar.ofDeclarations termsDeclarations = .ok terms ∧
      NumbersInPreorder terms terms.automaton ∧
      terms.automaton.states.toList.map (fun s => s.transitions.toList.map Prod.snd) =
        [[3, 2, 1], [], [], [4], [5, 1], []] := by
  have hg : Grammar.ofDeclarations termsDeclarations = .ok terms :=
    eq_ok_getD_of_isOk (by decide +kernel)
  exact ⟨hg, numbersInPreorder hg, by decide +kernel⟩

end ShiftReduce
