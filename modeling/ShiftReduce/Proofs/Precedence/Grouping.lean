import ShiftReduce.Proofs.Parsing.Tree
import ShiftReduce.Proofs.Precedence.OperatorGrammar

/-!
# Grouping by precedence

An expression is split at the leftmost of its operators with the greatest rank. The driver finds
these splits: it reads on while operators get no worse, and it reduces before an operator of worse
rank. So the tree has the leftmost operator of the greatest rank on top at every node.
-/

namespace ShiftReduce

/-- The operators of an expression, split at the leftmost one of greatest rank, and so on in what
stands before and after. -/
inductive Grouping (rank : TerminalId → Nat) : List TerminalId → Prop
  | operand : Grouping rank []
  | operator {before after : List TerminalId} {t : TerminalId}
      (hbefore : ∀ u ∈ before, rank u < rank t) (hafter : ∀ u ∈ after, rank u ≤ rank t)
      (left : Grouping rank before) (right : Grouping rank after) :
      Grouping rank (before ++ t :: after)

theorem exists_split (rank : TerminalId → Nat) {ts : List TerminalId} (hts : ts ≠ []) :
    ∃ before t after, ts = before ++ t :: after ∧ (∀ u ∈ before, rank u < rank t) ∧
      ∀ u ∈ after, rank u ≤ rank t := by
  induction ts with
  | nil => exact absurd rfl hts
  | cons first rest ih =>
    by_cases hrest : rest = []
    · exact ⟨[], first, [], by rw [hrest]; rfl, by simp, by simp⟩
    · obtain ⟨before, t, after, rfl, hbefore, hafter⟩ := ih hrest
      -- the first operator takes the place of the split unless it has a better rank
      by_cases hfirst : rank first < rank t
      · exact ⟨first :: before, t, after, rfl, by simpa [hfirst] using hbefore, hafter⟩
      · have hle : ∀ u ∈ before ++ t :: after, rank u ≤ rank t := by
          intro u hu
          rcases List.mem_append.mp hu with hu | hu
          · exact (hbefore u hu).le
          · rcases List.mem_cons.mp hu with rfl | hu
            · exact Nat.le_refl _
            · exact hafter u hu
        exact ⟨[], first, _, rfl, by simp, fun u hu => (hle u hu).trans (Nat.not_lt.mp hfirst)⟩

/-- Every expression can be split all the way down. -/
theorem Grouping.total (rank : TerminalId → Nat) (ts : List TerminalId) : Grouping rank ts := by
  induction hlength : ts.length using Nat.strong_induction_on generalizing ts with
  | _ length ih =>
    by_cases hts : ts = []
    · exact hts ▸ .operand
    · obtain ⟨before, t, after, rfl, hbefore, hafter⟩ := exists_split rank hts
      rw [List.length_append, List.length_cons] at hlength
      exact .operator hbefore hafter (ih _ (by omega) before rfl) (ih _ (by omega) after rfl)

variable {rank : TerminalId → Nat}

/-- The tokens of an expression with some operators. -/
def tokensOf {α : Type} (operand : α) (operators : List α) : List α :=
  operand :: operators.flatMap fun operator => [operator, operand]

theorem tokensOf_append_cons {α : Type} (operand x : α) (before after : List α) :
    tokensOf operand (before ++ x :: after) =
      tokensOf operand before ++ x :: tokensOf operand after := by
  simp [tokensOf]

theorem map_tokensOf {α β : Type} (f : α → β) (operand : α) (operators : List α) :
    (tokensOf operand operators).map f = tokensOf (f operand) (operators.map f) := by
  simp [tokensOf, List.map_flatMap, List.flatMap_map]

/-- A node is the operand, or its root is the leftmost of its operators with the greatest rank. -/
def LeftmostGreatest {α : Type} (rank : α → Nat) (operand : α) (children : List (List α)) : Prop :=
  children = [[operand]] ∨ ∃ before operator after,
    children = [tokensOf operand before, [operator], tokensOf operand after] ∧
      (∀ u ∈ before, rank u < rank operator) ∧ ∀ u ∈ after, rank u ≤ rank operator

theorem LeftmostGreatest.map {α β : Type} {rank : α → Nat} {rank' : β → Nat} {f : α → β}
    (hrank : ∀ x, rank' (f x) = rank x) {operand : α} {children : List (List α)}
    (h : LeftmostGreatest rank operand children) :
    LeftmostGreatest rank' (f operand) (children.map (List.map f)) := by
  rcases h with rfl | ⟨before, operator, after, rfl, hbefore, hafter⟩
  · exact .inl rfl
  · refine .inr ⟨before.map f, f operator, after.map f, by simp [map_tokensOf], ?_, ?_⟩
    · simpa [hrank] using hbefore
    · simpa [hrank] using hafter

/-- An expression holds together between the pending operators and the terminal that comes next. -/
structure HoldsTogether (rank : TerminalId → Nat) (operators pending ts : List TerminalId)
    (next : TerminalId) : Prop where
  pending_mem : ∀ t ∈ pending, t ∈ operators
  le_pending : ∀ u, pending.getLast? = some u → ∀ t ∈ ts, rank t ≤ rank u
  next_cases : next = .endOfInput ∨ next ∈ operators ∧ ∀ t ∈ ts, rank t < rank next

namespace HoldsTogether

variable {operators pending before after : List TerminalId} {t next : TerminalId}
  (h : HoldsTogether rank operators pending (before ++ t :: after) next)

include h

theorem left (ht : t ∈ operators) (hbefore : ∀ u ∈ before, rank u < rank t) :
    HoldsTogether rank operators pending before t where
  pending_mem := h.pending_mem
  le_pending u hu s hs := h.le_pending u hu s (List.mem_append_left _ hs)
  next_cases := .inr ⟨ht, hbefore⟩

theorem right (ht : t ∈ operators) (hafter : ∀ u ∈ after, rank u ≤ rank t) :
    HoldsTogether rank operators (pending ++ [t]) after next where
  pending_mem u hu := by
    rcases List.mem_append.mp hu with hu | hu
    · exact h.pending_mem u hu
    · exact List.mem_singleton.mp hu ▸ ht
  le_pending u hu := by
    obtain rfl : t = u := by simpa using hu
    exact hafter
  next_cases := h.next_cases.imp_right fun ⟨hnext, hlt⟩ =>
    ⟨hnext, fun s hs => hlt s (List.mem_append_right _ (List.mem_cons_of_mem t hs))⟩

end HoldsTogether

section Trees

variable {g : Grammar} {operators : List TerminalId} {operand : TerminalId}

/-- The tree of an expression, by which the driver reads it wherever it holds together. -/
structure Groups (rank : TerminalId → Nat) (operators : List TerminalId) (operand : TerminalId)
    (ts : List TerminalId) (tree : Tree g (.nonterminal g.start)) : Prop where
  yield_eq : tree.yield = tokensOf operand ts
  everyNode : tree.EveryNode (LeftmostGreatest rank operand)
  drives : ∀ (pending : List TerminalId) (stack : List StateId) (input : List TerminalId)
    (reduced : List ProductionId),
    HoldsTogether rank operators pending ts (input.headD .endOfInput) →
    Walk g.automaton (g.awaiting pending) stack →
    ∃ last, Walk g.automaton (g.awaiting pending ++ [.nonterminal g.start]) last ∧
      Drives g g.compile.table ⟨stack, tree.yield ++ input, reduced⟩
        ⟨last, input, tree.postorder.reverse ++ reduced⟩

namespace Groups

variable (h : g.IsOperatorGrammar operators operand rank)

include h

theorem exists_operand :
    ∃ tree : Tree g (.nonterminal g.start), Groups rank operators operand [] tree := by
  obtain ⟨p, hp, hleft, hright⟩ := h.exists_operand
  obtain ⟨tree, hyield, hpostorder, hnodes⟩ :=
    Tree.exists_node hp hleft hright (.cons (.leaf operand) .nil)
  refine ⟨tree, hyield, (hnodes _).mpr ⟨.inl rfl, trivial, trivial⟩, ?_⟩
  intro pending stack input reduced hholds hwalk
  rw [hyield, hpostorder]
  obtain ⟨middle, hmiddle, hread⟩ := h.drive_operand hholds.pending_mem hwalk
  obtain ⟨last, hlast, hreduce⟩ := h.reduce_operand hholds.pending_mem hp hright hmiddle rfl
    (hholds.next_cases.imp_right And.left)
  exact ⟨last, hlast, .head hread (.single hreduce)⟩

/-- The trees on both sides of an operator are put together under it. -/
theorem exists_operator {before after : List TerminalId} {t : TerminalId} (ht : t ∈ operators)
    (hbefore : ∀ u ∈ before, rank u < rank t) (hafter : ∀ u ∈ after, rank u ≤ rank t)
    {left right : Tree g (.nonterminal g.start)} (hleft : Groups rank operators operand before left)
    (hright : Groups rank operators operand after right) :
    ∃ tree : Tree g (.nonterminal g.start),
      Groups rank operators operand (before ++ t :: after) tree := by
  obtain ⟨p, hp, hstart, hbinary⟩ := h.exists_binary t ht
  obtain ⟨tree, hyield, hpostorder, hnodes⟩ := Tree.exists_node hp hstart hbinary
    (.cons left (.cons (.leaf t) (.cons right .nil)))
  have hroot : LeftmostGreatest rank operand [left.yield, [t], right.yield] :=
    .inr ⟨before, t, after, by rw [hleft.yield_eq, hright.yield_eq], hbefore, hafter⟩
  refine ⟨tree, ?_, (hnodes _).mpr ⟨hroot, hleft.everyNode, trivial, hright.everyNode, trivial⟩, ?_⟩
  · rw [hyield, tokensOf_append_cons, ← hleft.yield_eq, ← hright.yield_eq]
    simp [Forest.yield, Tree.yield]
  · intro pending stack input reduced hholds hwalk
    have hholds' := hholds.right ht hafter
    obtain ⟨first, hfirst, hdrives⟩ := hleft.drives pending stack (t :: (right.yield ++ input))
      reduced (hholds.left ht hbefore) hwalk
    obtain ⟨second, hsecond, hread⟩ := h.drive_operator hholds.pending_mem hfirst ht
      fun u hu => hholds.le_pending u hu t (by simp)
    obtain ⟨third, hthird, hdrives'⟩ := hright.drives (pending ++ [t]) second input
      (left.postorder.reverse ++ reduced) hholds' hsecond
    obtain ⟨last, hlast, hreduce⟩ := h.reduce_operator hholds.pending_mem ht hp hbinary hthird rfl
      (hholds.next_cases.imp_right fun ⟨hnext, hlt⟩ => ⟨hnext, hlt t (by simp)⟩)
    refine ⟨last, hlast, ?_⟩
    have hall : Drives g _ _ _ := hdrives.trans (.head hread (hdrives'.tail hreduce))
    rw [hyield, hpostorder]
    simpa [Forest.yield, Tree.yield, Forest.postorder, Tree.postorder] using hall

end Groups

/-- Every expression has such a tree. -/
theorem Grouping.exists_groups (h : g.IsOperatorGrammar operators operand rank)
    {ts : List TerminalId} (hts : Grouping rank ts) (hmem : ∀ t ∈ ts, t ∈ operators) :
    ∃ tree : Tree g (.nonterminal g.start), Groups rank operators operand ts tree := by
  induction hts with
  | operand => exact Groups.exists_operand h
  | @operator before after t hbefore hafter _ _ ihleft ihright =>
    obtain ⟨left, hleft⟩ := ihleft fun u hu => hmem u (by simp [hu])
    obtain ⟨right, hright⟩ := ihright fun u hu => hmem u (by simp [hu])
    exact Groups.exists_operator h (hmem t (by simp)) hbefore hafter hleft hright

/-- The driver accepts every expression, and its tree has the leftmost operator of the greatest rank
on top at every node. -/
theorem Grammar.IsOperatorGrammar.exists_accepts (h : g.IsOperatorGrammar operators operand rank)
    {ts : List TerminalId} (hmem : ∀ t ∈ ts, t ∈ operators) :
    ∃ tree : Tree g (.nonterminal g.start), tree.yield = tokensOf operand ts ∧
      Accepts g g.compile.table tree.yield tree.postorder ∧
        tree.EveryNode (LeftmostGreatest rank operand) := by
  obtain ⟨tree, htree⟩ := (Grouping.total rank ts).exists_groups h hmem
  have hholds : HoldsTogether rank operators [] ts .endOfInput :=
    ⟨by simp, by simp, .inl rfl⟩
  obtain ⟨last, hlast, hdrives⟩ := htree.drives [] [0] [] [] hholds .nil
  rw [List.append_nil, List.append_nil] at hdrives
  exact ⟨tree, htree.yield_eq, ⟨_, hdrives, h.drive_accepted hlast, List.reverse_reverse _⟩,
    htree.everyNode⟩

end Trees

end ShiftReduce
