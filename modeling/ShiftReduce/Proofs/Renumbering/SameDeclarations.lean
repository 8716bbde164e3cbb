import Mathlib.Data.List.Perm.Lattice
import ShiftReduce.Proofs.Grammar.Declared
import ShiftReduce.Proofs.Renumbering.Basic

/-!
# Declarations in another order

Grammars that were declared with the same nonterminals, the same productions, the same start symbol
and the same priorities have the same names of everything, at other places. A rearrangement of the
names is a renumbering that carries one grammar to the other.
-/

namespace ShiftReduce

/-- Where the elements of a list stand in a rearrangement of it. -/
theorem exists_places_of_perm {α : Type} {xs ys : List α} (hperm : xs.Perm ys) :
    ∃ places : Equiv.Perm Nat, ∀ i, ys[places i]? = xs[i]? := by
  induction hperm with
  | nil => exact ⟨.refl Nat, fun _ => rfl⟩
  | cons x _ ih =>
    obtain ⟨places, hplaces⟩ := ih
    -- the head stays at place 0, and everything else moves behind it
    refine ⟨{
      toFun := fun i => i.casesOn 0 fun i => places i + 1
      invFun := fun i => i.casesOn 0 fun i => places.symm i + 1
      left_inv := fun i => by cases i <;> simp
      right_inv := fun i => by cases i <;> simp }, fun i => ?_⟩
    cases i with
    | zero => rfl
    | succ i => simpa using hplaces i
  | swap x y xs =>
    refine ⟨Equiv.swap 0 1, fun i => ?_⟩
    match i with
    | 0 => simp
    | 1 => simp
    | i + 2 => rw [Equiv.swap_apply_of_ne_of_ne (by omega) (by omega)]; rfl
  | trans _ _ ihfirst ihsecond =>
    obtain ⟨first, hfirst⟩ := ihfirst
    obtain ⟨second, hsecond⟩ := ihsecond
    exact ⟨first.trans second, fun i => (hsecond (first i)).trans (hfirst i)⟩

def NonterminalId.equivNat : NonterminalId ≃ Nat where
  toFun := index
  invFun := mk
  left_inv _ := rfl
  right_inv _ := rfl

def ProductionId.equivNat : ProductionId ≃ Nat where
  toFun := index
  invFun := mk
  left_inv _ := rfl
  right_inv _ := rfl

/-- Two lists of declarations that declare the same, in whatever order and how often. -/
structure SameDeclarations (ds es : List Declaration) : Prop where
  nonterminal_iff : ∀ name, (∃ d ∈ ds, d.nonterminal? = some name) ↔
    ∃ e ∈ es, e.nonterminal? = some name
  sides_iff : ∀ left right, (∃ d ∈ ds, d.sides? = some (left, right)) ↔
    ∃ e ∈ es, e.sides? = some (left, right)
  exists_start : ∃ start, ds.reverse.findSome? Declaration.start? = some start ∧
    es.reverse.findSome? Declaration.start? = some start
  priorities_eq : ds.filterMap Declaration.priority? = es.filterMap Declaration.priority?

/-- Numbered things with the same names, of which none stands for two, are the same up to their
numbers. -/
theorem exists_renumbering_of_names {ι κ : Type} (e : Nat ≃ ι) {m n : Nat} {xs ys : List ι}
    (hxs : xs = (List.range m).map e) (hys : ys = (List.range n).map e) {name name' : ι → κ}
    (hname : ∀ x ∈ xs, ∀ y ∈ xs, name x = name y → x = y)
    (hname' : ∀ x ∈ ys, ∀ y ∈ ys, name' x = name' y → x = y)
    (hmem : ∀ key, (∃ x ∈ xs, name x = key) ↔ ∃ y ∈ ys, name' y = key) :
    ∃ σ : Equiv.Perm ι, ∀ x, (σ x ∈ ys ↔ x ∈ xs) ∧ (x ∈ xs → name' (σ x) = name x) := by
  subst hxs hys
  have hnodup (count : Nat) : ((List.range count).map e).Nodup := List.nodup_range.map e.injective
  have hperm : (((List.range m).map e).map name).Perm (((List.range n).map e).map name') := by
    refine (List.perm_ext_iff_of_nodup ((hnodup m).map_on hname)
      ((hnodup n).map_on hname')).mpr fun key => ?_
    rw [List.mem_map, List.mem_map]
    exact hmem key
  obtain ⟨places, hplaces⟩ := exists_places_of_perm hperm
  refine ⟨e.permCongr places, fun x => ?_⟩
  obtain ⟨i, rfl⟩ := e.surjective x
  rw [Equiv.permCongr_apply, e.symm_apply_apply]
  have hplace := hplaces i
  have hnone : n ≤ places i ↔ m ≤ i := by simpa using congrArg (· = none) hplace
  have hiff : places i < n ↔ i < m := by omega
  simp only [List.mem_map, List.mem_range, EmbeddingLike.apply_eq_iff_eq, exists_eq_right]
  refine ⟨hiff, fun hi => ?_⟩
  simpa [hi, hiff.mpr hi] using hplace

namespace Grammar

variable {g h : Grammar}

theorem nonterminal_of_not_mem {n : NonterminalId} (hn : n ∉ g.nonterminalIds) :
    g.nonterminal n = default := by
  rw [mem_nonterminalIds, Nat.not_lt] at hn
  rw [nonterminal, Array.getD_eq_getD_getElem?, Array.getElem?_eq_none hn, Option.getD_none]

theorem production_of_not_mem {p : ProductionId} (hp : p ∉ g.productionIds) :
    g.production p = default := by
  rw [mem_productionIds, Nat.not_lt] at hp
  rw [production, Array.getD_eq_getD_getElem?, Array.getElem?_eq_none hp, Option.getD_none]

theorem terminal_of_not_mem {t : TerminalId} (ht : t ∉ g.terminalIds) :
    g.terminal t = default := by
  rw [mem_terminalIds, Nat.not_lt] at ht
  rw [terminal, Array.getD_eq_getD_getElem?, Array.getElem?_eq_none ht, Option.getD_none]

theorem symbol?_of_not_nonterminal {name : String}
    (hname : ∀ n ∈ g.nonterminalIds, (g.nonterminal n).name ≠ name) :
    g.symbol? name =
      ((g.terminals.toList.map Terminal.name).findIdx? (· == name)).map fun i => .terminal ⟨i⟩ := by
  have hnone : g.nonterminals.findIdx? (·.name == name) = none := by
    refine Array.findIdx?_eq_none_iff.mpr fun n hn => ?_
    obtain ⟨i, hi, rfl⟩ := Array.mem_iff_getElem.mp hn
    have hne := hname ⟨i⟩ (mem_nonterminalIds.mpr hi)
    simpa [nonterminal, hi] using hne
  have hterminals : g.terminals.findIdx? (·.name == name) =
      (g.terminals.toList.map Terminal.name).findIdx? (· == name) := by
    rw [List.findIdx?_map, ← List.findIdx?_toArray]
    rfl
  rw [symbol?, hnone, hterminals]

end Grammar

namespace Grammar.Declared

variable {ds es : List Declaration} {g h : Grammar}

theorem terminal_names_eq (hg : g.Declared ds) (hh : h.Declared es)
    (hsame : SameDeclarations ds es) :
    g.terminals.toList.map Terminal.name = h.terminals.toList.map Terminal.name := by
  obtain ⟨names, hnames, hascending, hmem⟩ := hg.exists_terminal_names
  obtain ⟨names', hnames', hascending', hmem'⟩ := hh.exists_terminal_names
  rw [hnames, hnames']
  refine congrArg _ (eq_of_pairwise_lt _ hascending hascending' fun name => ?_)
  simp only [hmem, hmem', hsame.sides_iff, hsame.nonterminal_iff]

theorem exists_production_names_iff (hg : g.Declared ds) {start : String}
    (hstart : ds.reverse.findSome? Declaration.start? = some start)
    (names : List String) : (∃ p ∈ g.productionIds, g.productionNames p = names) ↔
      names = [goalName, start] ∨
        ∃ left right, names = left :: right ∧ ∃ d ∈ ds, d.sides? = some (left, right) := by
  have hgoal : g.productionNames .goal = [goalName, start] := by
    rw [productionNames, hg.wellFormed.goal_production, hg.name_goal]
    exact congrArg (fun name => [goalName, name]) (hg.name_start start hstart)
  constructor
  · rintro ⟨p, hp, rfl⟩
    by_cases hgoalp : p = .goal
    · exact .inl (hgoalp ▸ hgoal)
    · exact .inr ⟨_, _, rfl, (hg.exists_production_iff _ _).mp ⟨p, hp, hgoalp, rfl⟩⟩
  · rintro (rfl | ⟨left, right, rfl, hdeclared⟩)
    · exact ⟨.goal, hg.wellFormed.goal_mem, hgoal⟩
    · obtain ⟨p, hp, -, hnames⟩ := (hg.exists_production_iff left right).mpr hdeclared
      exact ⟨p, hp, hnames⟩

end Grammar.Declared

/-- The renumbering keeps all names of nonterminals and productions. -/
structure Renumbering.KeepsNames (σ : Renumbering) (g h : Grammar) : Prop where
  mem_nonterminalIds_iff : ∀ n, σ.nonterminal n ∈ h.nonterminalIds ↔ n ∈ g.nonterminalIds
  mem_productionIds_iff : ∀ p, σ.production p ∈ h.productionIds ↔ p ∈ g.productionIds
  nonterminal_name : ∀ n ∈ g.nonterminalIds,
    (h.nonterminal (σ.nonterminal n)).name = (g.nonterminal n).name
  productionNames : ∀ p ∈ g.productionIds,
    h.productionNames (σ.production p) = g.productionNames p

namespace Renumbering.KeepsNames

variable {σ : Renumbering} {ds es : List Declaration} {g h : Grammar}

theorem name_nonterminal (hσ : σ.KeepsNames g h) (n : NonterminalId) :
    (h.nonterminal (σ.nonterminal n)).name = (g.nonterminal n).name := by
  by_cases hn : n ∈ g.nonterminalIds
  · exact hσ.nonterminal_name n hn
  · rw [Grammar.nonterminal_of_not_mem hn,
      Grammar.nonterminal_of_not_mem (mt (hσ.mem_nonterminalIds_iff n).mp hn)]

theorem nonterminal_goal (hσ : σ.KeepsNames g h) (hg : g.Declared ds) (hh : h.Declared es) :
    σ.nonterminal .goal = .goal := by
  refine hh.wellFormed.eq_of_nonterminal_name
    ((hσ.mem_nonterminalIds_iff .goal).mpr hg.wellFormed.goal_mem_nonterminalIds)
    hh.wellFormed.goal_mem_nonterminalIds ?_
  rw [hσ.name_nonterminal, hg.name_goal, hh.name_goal]

theorem left_eq (hσ : σ.KeepsNames g h) (hg : g.Declared ds) (hh : h.Declared es)
    (p : ProductionId) :
    (h.production (σ.production p)).left = σ.nonterminal (g.production p).left := by
  by_cases hp : p ∈ g.productionIds
  · have hleft := hg.wellFormed.left_mem p hp
    refine hh.wellFormed.eq_of_nonterminal_name
      (hh.wellFormed.left_mem _ ((hσ.mem_productionIds_iff p).mpr hp))
      ((hσ.mem_nonterminalIds_iff _).mpr hleft) ?_
    rw [hσ.nonterminal_name _ hleft]
    exact (List.cons.inj (hσ.productionNames p hp)).1
  · rw [Grammar.production_of_not_mem hp,
      Grammar.production_of_not_mem (mt (hσ.mem_productionIds_iff p).mp hp)]
    exact (hσ.nonterminal_goal hg hh).symm

end Renumbering.KeepsNames

namespace Grammar.Declared

variable {ds es : List Declaration} {g h : Grammar} (hg : g.Declared ds) (hh : h.Declared es)
  (hsame : SameDeclarations ds es)

include hg hh hsame

theorem exists_keepsNames : ∃ σ : Renumbering, σ.KeepsNames g h := by
  obtain ⟨nonterminal, hnonterminal⟩ := exists_renumbering_of_names NonterminalId.equivNat.symm
    (rfl : g.nonterminalIds = _) (rfl : h.nonterminalIds = _)
    (fun _ hm _ hn => hg.wellFormed.eq_of_nonterminal_name hm hn)
    (fun _ hm _ hn => hh.wellFormed.eq_of_nonterminal_name hm hn)
    (fun name => by
      rw [hg.exists_nonterminal_iff, hh.exists_nonterminal_iff, hsame.nonterminal_iff])
  obtain ⟨start, hstart, hstart'⟩ := hsame.exists_start
  obtain ⟨production, hproduction⟩ := exists_renumbering_of_names ProductionId.equivNat.symm
    (rfl : g.productionIds = _) (rfl : h.productionIds = _)
    (fun _ hp _ hq => hg.wellFormed.eq_of_productionNames hp hq)
    (fun _ hp _ hq => hh.wellFormed.eq_of_productionNames hp hq)
    (fun names => by
      rw [hg.exists_production_names_iff hstart, hh.exists_production_names_iff hstart']
      simp only [hsame.sides_iff])
  exact ⟨⟨nonterminal, production⟩, {
    mem_nonterminalIds_iff := fun n => (hnonterminal n).1
    mem_productionIds_iff := fun p => (hproduction p).1
    nonterminal_name := fun n => (hnonterminal n).2
    productionNames := fun p => (hproduction p).2 }⟩

theorem size_terminals_eq : g.terminals.size = h.terminals.size := by
  simpa using congrArg List.length (hg.terminal_names_eq hh hsame)

theorem mem_terminalIds_iff (t : TerminalId) : t ∈ h.terminalIds ↔ t ∈ g.terminalIds := by
  rw [mem_terminalIds, mem_terminalIds, hg.size_terminals_eq hh hsame]

theorem terminal_name_eq (t : TerminalId) : (h.terminal t).name = (g.terminal t).name := by
  by_cases ht : t ∈ g.terminalIds
  · have ht' := (hg.mem_terminalIds_iff hh hsame t).mpr ht
    have hname := congrArg (·[t.index]?) (hg.terminal_names_eq hh hsame)
    rw [mem_terminalIds] at ht ht'
    simpa [terminal, ht, ht'] using hname.symm
  · rw [terminal_of_not_mem ht, terminal_of_not_mem (mt (hg.mem_terminalIds_iff hh hsame t).mp ht)]

theorem terminal_priority_eq (t : TerminalId) :
    (h.terminal t).priority = (g.terminal t).priority := by
  by_cases ht : t ∈ g.terminalIds
  · have ht' := (hg.mem_terminalIds_iff hh hsame t).mpr ht
    rw [hh.priority_eq t ht', hg.priority_eq t ht, hg.terminal_name_eq hh hsame,
      hh.priorities_eq, hg.priorities_eq, hsame.priorities_eq]
  · rw [terminal_of_not_mem ht, terminal_of_not_mem (mt (hg.mem_terminalIds_iff hh hsame t).mp ht)]

section Renumbered

variable {σ : Renumbering} (hσ : σ.KeepsNames g h)

include hσ

/-- A symbol of a right-hand side is found under its new number by its name. -/
theorem symbol?_renumbered {x : Symbol} (hx : g.Mentions x) :
    h.symbol? (g.symbolName x) = some (σ.symbol x) := by
  have hfound := hg.wellFormed.symbol?_mentioned x hx
  cases x with
  | nonterminal n =>
    have hn : n ∈ g.nonterminalIds := hg.wellFormed.hasSymbol_of_mentions hx
    have hnew := hh.wellFormed.symbol?_nonterminal _ ((hσ.mem_nonterminalIds_iff n).mpr hn)
    rwa [hσ.nonterminal_name n hn] at hnew
  | terminal t =>
    -- in neither grammar does the name belong to a nonterminal
    have hnot : ∀ n ∈ g.nonterminalIds, (g.nonterminal n).name ≠ g.symbolName (.terminal t) := by
      intro n hn heq
      rw [← heq, hg.wellFormed.symbol?_nonterminal n hn] at hfound
      cases hfound
    have hnot' : ∀ n ∈ h.nonterminalIds, (h.nonterminal n).name ≠ g.symbolName (.terminal t) := by
      intro n hn
      obtain ⟨n, rfl⟩ := σ.nonterminal.surjective n
      rw [hσ.mem_nonterminalIds_iff] at hn
      rw [hσ.nonterminal_name n hn]
      exact hnot n hn
    rwa [symbol?_of_not_nonterminal hnot, hg.terminal_names_eq hh hsame,
      ← symbol?_of_not_nonterminal hnot'] at hfound

theorem right_eq (p : ProductionId) :
    (h.production (σ.production p)).right = (g.production p).right.map σ.symbol := by
  by_cases hp : p ∈ g.productionIds
  · have hsymbols := hh.wellFormed.map_symbol?_names ((hσ.mem_productionIds_iff p).mpr hp)
    rw [(List.cons.inj (hσ.productionNames p hp)).2, List.map_map] at hsymbols
    refine Array.toList_inj.mp (List.map_injective_iff.mpr (Option.some_injective _) ?_)
    rw [← hsymbols, Array.toList_map, List.map_map]
    refine List.map_congr_left fun x hx => ?_
    exact hg.symbol?_renumbered hh hsame hσ (mentions_of_mem hp hx)
  · rw [production_of_not_mem hp, production_of_not_mem (mt (hσ.mem_productionIds_iff p).mp hp)]
    exact Array.map_empty.symm

theorem rank_eq (p : ProductionId) : h.rank (σ.production p) = g.rank p := by
  have hpriority (x : Symbol) : h.symbolPriority? (σ.symbol x) = g.symbolPriority? x := by
    cases x with
    | terminal t => exact hg.terminal_priority_eq hh hsame t
    | nonterminal n => rfl
  rw [rank, hg.right_eq hh hsame hσ, Array.toList_map, List.findSome?_map, hh.priorities_eq,
    ← hsame.priorities_eq, ← hg.priorities_eq]
  simp only [Function.comp_def, hpriority]
  rfl

theorem carries : σ.Carries g h where
  source_wellFormed := hg.wellFormed
  target_wellFormed := hh.wellFormed
  terminal_name := hg.terminal_name_eq hh hsame
  nonterminal_name := hσ.name_nonterminal
  nonterminal_goal := hσ.nonterminal_goal hg hh
  production_goal := by
    refine hh.wellFormed.eq_goal_of_left _
      ((hσ.mem_productionIds_iff .goal).mpr hg.wellFormed.goal_mem) ?_
    rw [hσ.left_eq hg hh, hg.wellFormed.goal_production, hσ.nonterminal_goal hg hh]
  mem_nonterminalIds_iff := hσ.mem_nonterminalIds_iff
  mem_productionIds_iff := hσ.mem_productionIds_iff
  left := hσ.left_eq hg hh
  right := hg.right_eq hh hsame hσ
  rank_le_iff p q := by rw [hg.rank_eq hh hsame hσ, hg.rank_eq hh hsame hσ]

end Renumbered

/-- The same declarations in another order, or more often, only renumber a grammar. -/
theorem exists_carries : ∃ σ : Renumbering, σ.Carries g h := by
  obtain ⟨σ, hσ⟩ := hg.exists_keepsNames hh hsame
  exact ⟨σ, hg.carries hh hsame hσ⟩

end Grammar.Declared

end ShiftReduce
