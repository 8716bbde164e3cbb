import Mathlib.Data.Finset.Card
import Mathlib.Data.List.ProdSigma
import ShiftReduce.Analysis.TerminalFamily
import ShiftReduce.Loop

/-!
# Saturation

A loop that repeats a pass ends when the pass adds nothing. It does end when all that can be added
is known beforehand and the bound exceeds its number; what a pass that changes nothing goes through
then changes nothing either.
-/

namespace ShiftReduce

universe u v

section Fold

variable {α : Type u} {β : Type v} {step : α → β → α} {R : α → α → Prop} (hrefl : ∀ a, R a a)
  (htrans : ∀ a b c, R a b → R b c → R a c) (hgrow : ∀ a b, R a (step a b))

include hrefl htrans hgrow

theorem rel_foldl (bs : List β) (a : α) : R a (bs.foldl step a) := by
  induction bs generalizing a with
  | nil => exact hrefl a
  | cons b rest ih => exact htrans _ _ _ (hgrow a b) (ih _)

/-- Steps that only add must each leave alone what all of them together leave alone. -/
theorem eq_self_of_foldl (hsame : ∀ a b, R (step a b) a → step a b = a) {bs : List β} {a : α}
    (hfold : R (bs.foldl step a) a) : ∀ b ∈ bs, step a b = a := by
  induction bs with
  | nil => exact fun b hb => absurd hb List.not_mem_nil
  | cons first rest ih =>
    have hrest := rel_foldl hrefl htrans hgrow rest (step a first)
    have hfirst : step a first = a := hsame a first (htrans _ _ _ hrest hfold)
    rw [List.foldl_cons, hfirst] at hfold
    intro b hb
    rcases List.mem_cons.mp hb with rfl | hb
    · exact hfirst
    · exact ih hfold b hb

end Fold

/-- A loop whose steps add facts from a finite stock ends with its last state. -/
theorem Loop.run_saturated {σ : Type u} {α : Type v} {step : σ → Loop.Step σ} {P : σ → Prop}
    (facts : σ → Finset α) (stock : Finset α) (hfacts : ∀ s, facts s ⊆ stock)
    (hgrow : ∀ s t, P s → step s = .next t → P t ∧ facts s ⊂ facts t) {bound : Nat}
    (hbound : stock.card < bound) {start : σ} (hstart : P start) :
    ∃ s, P s ∧ step s = .last (Loop.run step bound start) := by
  apply Loop.run_last (fun s => stock.card - (facts s).card)
  · intro s t hs ht
    obtain ⟨hkept, hmore⟩ := hgrow s t hs ht
    have hlt := Finset.card_lt_card hmore
    have hle := Finset.card_le_card (hfacts t)
    exact ⟨hkept, by omega⟩
  · exact hstart
  · omega

namespace TerminalFamily

/-- The families have as many sets, and each set of the first is part of that of the second. -/
instance : LE TerminalFamily :=
  ⟨fun f other => f.sets.size = other.sets.size ∧ ∀ n t, t ∈ f.get n → t ∈ other.get n⟩

protected theorem le_refl (f : TerminalFamily) : f ≤ f :=
  ⟨rfl, fun _ _ ht => ht⟩

protected theorem le_trans (f other last : TerminalFamily) (hfirst : f ≤ other)
    (hsecond : other ≤ last) : f ≤ last :=
  ⟨hfirst.1.trans hsecond.1, fun n t ht => hsecond.2 n t (hfirst.2 n t ht)⟩

protected theorem le_antisymm {f other : TerminalFamily} (hle : f ≤ other) (hge : other ≤ f) :
    f = other := by
  obtain ⟨sets⟩ := f
  obtain ⟨others⟩ := other
  congr 1
  apply Array.ext hle.1
  intro i hi hj
  apply TerminalSet.ext
  intro t
  have hmem := Iff.intro (hle.2 ⟨i⟩ t) (hge.2 ⟨i⟩ t)
  simpa [get, hi, hj] using hmem

section Fold

variable {β : Type v} {step : TerminalFamily → β → TerminalFamily} (hgrow : ∀ f b, f ≤ step f b)

include hgrow

theorem le_foldl (bs : List β) (f : TerminalFamily) : f ≤ bs.foldl step f :=
  rel_foldl TerminalFamily.le_refl TerminalFamily.le_trans hgrow bs f

theorem eq_self_of_foldl_eq {bs : List β} {f : TerminalFamily} (hfold : bs.foldl step f = f) {b : β}
    (hb : b ∈ bs) : step f b = f := by
  apply eq_self_of_foldl TerminalFamily.le_refl TerminalFamily.le_trans hgrow _ _ b hb
  · exact fun f b hle => TerminalFamily.le_antisymm hle (hgrow f b)
  · rw [hfold]
    exact TerminalFamily.le_refl f

end Fold

theorem mem_get_add {f : TerminalFamily} {n m : NonterminalId} {more : TerminalSet}
    {t : TerminalId} : t ∈ (f.add n more).get m ↔
      t ∈ f.get m ∨ m = n ∧ n.index < f.sets.size ∧ t ∈ more := by
  by_cases heq : m = n
  · subst heq
    by_cases hlt : m.index < f.sets.size
    · simp [get_add_self hlt, hlt]
    · simp [get, hlt]
  · simp [get_add_of_ne heq, heq]

theorem le_add (f : TerminalFamily) (n : NonterminalId) (more : TerminalSet) : f ≤ f.add n more :=
  ⟨(f.size_add n more).symm, fun _ _ ht => mem_get_add.mpr (.inl ht)⟩

/-- What adds nothing is there already. -/
theorem mem_of_add_eq {f : TerminalFamily} {n : NonterminalId} {more : TerminalSet}
    (hadd : f.add n more = f) (hn : n.index < f.sets.size) {t : TerminalId} (ht : t ∈ more) :
    t ∈ f.get n := by
  rw [← hadd]
  exact mem_get_add.mpr (.inr ⟨rfl, hn, ht⟩)

@[simp] theorem get_empty (count : Nat) (n : NonterminalId) : (empty count).get n = ∅ := by
  by_cases hn : n.index < count
  · simp [get, empty, hn]
  · simp [get, empty, hn]

theorem lt_size_of_mem {f : TerminalFamily} {n : NonterminalId} {t : TerminalId}
    (ht : t ∈ f.get n) : n.index < f.sets.size := by
  by_contra hn
  simp [get, hn] at ht

/-- A set for each of so many nonterminals, with given terminals only. -/
structure Within (count : Nat) (ts : List TerminalId) (f : TerminalFamily) : Prop where
  size_eq : f.sets.size = count
  mem_of_mem : ∀ n t, t ∈ f.get n → t ∈ ts

theorem Within.add {count : Nat} {ts : List TerminalId} {f : TerminalFamily}
    (hf : Within count ts f) {n : NonterminalId} {more : TerminalSet}
    (hmore : ∀ t, t ∈ more → t ∈ ts) : Within count ts (f.add n more) where
  size_eq := (f.size_add n more).trans hf.size_eq
  mem_of_mem m t ht := by
    rcases mem_get_add.mp ht with ht | ⟨-, -, ht⟩
    · exact hf.mem_of_mem m t ht
    · exact hmore t ht

/-- Every terminal that a family may have, with every nonterminal. -/
def stock (count : Nat) (ts : List TerminalId) : Finset (NonterminalId × TerminalId) :=
  ((List.range count).map NonterminalId.mk ×ˢ ts).toFinset

theorem mem_stock {count : Nat} {ts : List TerminalId} {n : NonterminalId} {t : TerminalId} :
    (n, t) ∈ stock count ts ↔ n.index < count ∧ t ∈ ts := by
  obtain ⟨i⟩ := n
  rw [stock, List.mem_toFinset, List.mem_product]
  simp

theorem card_stock_le (count : Nat) (ts : List TerminalId) :
    (stock count ts).card ≤ count * ts.length := by
  apply (List.toFinset_card_le _).trans
  rw [List.length_product, List.length_map, List.length_range]

/-- What a family has of the stock. -/
def facts (count : Nat) (ts : List TerminalId) (f : TerminalFamily) :
    Finset (NonterminalId × TerminalId) :=
  (stock count ts).filter fun fact => fact.2 ∈ f.get fact.1

theorem mem_facts {count : Nat} {ts : List TerminalId} {f : TerminalFamily}
    (hf : Within count ts f) {n : NonterminalId} {t : TerminalId} :
    (n, t) ∈ facts count ts f ↔ t ∈ f.get n := by
  rw [facts, Finset.mem_filter, mem_stock]
  constructor
  · exact And.right
  · intro ht
    exact ⟨⟨hf.size_eq ▸ lt_size_of_mem ht, hf.mem_of_mem n t ht⟩, ht⟩

theorem facts_ssubset {count : Nat} {ts : List TerminalId} {f other : TerminalFamily}
    (hf : Within count ts f) (hother : Within count ts other) (hle : f ≤ other) (hne : other ≠ f) :
    facts count ts f ⊂ facts count ts other := by
  refine Finset.ssubset_iff_subset_ne.mpr ⟨?_, fun heq => hne ?_⟩
  · rintro ⟨n, t⟩ ht
    exact (mem_facts hother).mpr (hle.2 n t ((mem_facts hf).mp ht))
  · refine TerminalFamily.le_antisymm ⟨hle.1.symm, fun n t ht => ?_⟩ hle
    have hfact := (mem_facts hother).mpr ht
    rw [← heq] at hfact
    exact (mem_facts hf).mp hfact

section Passes

variable (pass : TerminalFamily → TerminalFamily) {step : TerminalFamily → Loop.Step TerminalFamily}

/-- A loop that repeats a pass while it changes something ends with what the pass leaves alone. -/
theorem run_passes (hstep : ∀ f, step f = if pass f = f then .last f else .next (pass f))
    (hgrow : ∀ f, f ≤ pass f) {count : Nat} {ts : List TerminalId}
    (hwithin : ∀ f, Within count ts f → Within count ts (pass f)) {start : TerminalFamily}
    (hstart : Within count ts start) {bound : Nat} (hbound : count * ts.length < bound) :
    Within count ts (Loop.run step bound start) ∧
      pass (Loop.run step bound start) = Loop.run step bound start := by
  have hadds : ∀ f next, Within count ts f → step f = .next next →
      Within count ts next ∧ facts count ts f ⊂ facts count ts next := by
    intro f next hf hnext
    rw [hstep] at hnext
    split at hnext
    next => cases hnext
    next hne =>
      obtain rfl := Loop.Step.next.inj hnext
      exact ⟨hwithin f hf, facts_ssubset hf (hwithin f hf) (hgrow f) hne⟩
  have hstock : (stock count ts).card < bound := lt_of_le_of_lt (card_stock_le count ts) hbound
  obtain ⟨f, hf, hlast⟩ := Loop.run_saturated (facts count ts) (stock count ts)
    (fun f => Finset.filter_subset _ _) hadds hstock hstart
  rw [hstep] at hlast
  split at hlast
  next hsame =>
    rw [← Loop.Step.last.inj hlast]
    exact ⟨hf, hsame⟩
  next => cases hlast

/-- What every pass keeps, the loop keeps. -/
theorem run_passes_invariant (hstep : ∀ f, step f = if pass f = f then .last f else .next (pass f))
    {P : TerminalFamily → Prop} (hpass : ∀ f, P f → P (pass f)) (bound : Nat)
    {start : TerminalFamily} (hstart : P start) : P (Loop.run step bound start) := by
  refine Loop.run_invariant (fun f final hf hlast => ?_) (fun f next hf hnext => ?_) bound hstart
  · rw [hstep] at hlast
    split at hlast
    next => rwa [← Loop.Step.last.inj hlast]
    next => cases hlast
  · rw [hstep] at hnext
    split at hnext
    next => cases hnext
    next => rw [← Loop.Step.next.inj hnext]; exact hpass f hf

end Passes

end TerminalFamily

end ShiftReduce
