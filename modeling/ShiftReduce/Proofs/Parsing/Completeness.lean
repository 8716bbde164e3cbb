import ShiftReduce.Proofs.Parsing.Moves
import ShiftReduce.Proofs.Parsing.Soundness
import ShiftReduce.Proofs.Parsing.Tree
import ShiftReduce.Proofs.Table.ConflictFree

/-!
# Conflict-free tables accept every sentence

Where an item expects a symbol, the driver reads the yield of any tree for it, reduces the tree in
postorder and goes on behind the symbol. Whatever comes next then is in FOLLOW, so every complete
item is ready when its turn comes.
-/

namespace ShiftReduce

variable {g : Grammar}

/-- What comes next behind a nonterminal is in its FOLLOW set. -/
theorem Forest.headD_mem_follow (hg : g.WellFormed) {p : ProductionId} (hp : p ∈ g.productionIds)
    {n : NonterminalId} {xs : List Symbol} (forest : Forest g xs)
    (hsuffix : .nonterminal n :: xs <:+ (g.production p).right.toList) {input : List TerminalId}
    (hinput : input.headD .endOfInput ∈ g.analysis.follows.get (g.production p).left) :
    (forest.yield ++ input).headD .endOfInput ∈ g.analysis.follows.get n := by
  apply Grammar.mem_followsWith hg hp hsuffix
  rw [mem_behind]
  rcases forest.headD_mem hg input with hfirst | ⟨hnullable, hnext⟩
  · exact .inl hfirst
  · rw [hnext]
    exact .inr ⟨hnullable, hinput⟩

namespace ConflictFree

variable (hg : g.WellFormed) (hreserved : g.ReservedFree) (hfree : ConflictFree g)
  {symbols : List Symbol} {stack : List StateId} {item : Item} {input : List TerminalId}
  {reduced : List ProductionId}

include hg hfree

/-- A terminal that some item expects is read. -/
theorem drive_shift (hwalk : Walk g.automaton symbols stack) (hitem : Reaches g symbols item)
    {t : TerminalId} (hnext : item.next? g = some (.terminal t)) :
    ∃ last, Walk g.automaton (symbols ++ [.terminal t]) last ∧
      drive g g.compile.table ⟨stack, t :: input, reduced⟩ = .running ⟨last, input, reduced⟩ := by
  obtain ⟨hlt, hholds⟩ := hwalk.holdsReached hg
  have ht := hg.mem_terminalIds_of_mentions (Item.mentions_of_next? (hitem.production_mem hg) hnext)
  refine hwalk.drive_shift hg hitem hnext fun other hother => absurd hnext ?_
  exact hfree.not_expected_of_ready _ hlt t ht other hother.mem_items item ((hholds item).mpr hitem)
    hother

include hreserved

/-- A right-hand side on top is reduced where its left-hand side is expected and what comes next may
follow it. -/
theorem drive_reduce {p : ProductionId} (hp : p ∈ g.productionIds)
    (hwalk : Walk g.automaton (symbols ++ (g.production p).right.toList) stack)
    (hitem : Reaches g symbols item)
    (hnext : item.next? g = some (.nonterminal (g.production p).left))
    (hfollow : input.headD .endOfInput ∈ g.analysis.follows.get (g.production p).left) :
    ∃ last, Walk g.automaton (symbols ++ [.nonterminal (g.production p).left]) last ∧
      drive g g.compile.table ⟨stack, input, reduced⟩ = .running ⟨last, input, p :: reduced⟩ := by
  have hgoal : p ≠ .goal := by
    rintro rfl
    rw [hg.goal_production] at hnext
    exact hreserved.goal_not_mentioned (Item.mentions_of_next? (hitem.production_mem hg) hnext)
  obtain ⟨last, hlast, rfl, hcomplete⟩ :=
    (hitem.free ⟨p, hp, hnext, rfl⟩).complete (Item.rest_start p)
  obtain ⟨hlt, hholds⟩ := hwalk.holdsReached hg
  have hreduce := hfree.action?_of_ready hg hlt ⟨(hholds last).mpr hlast, hcomplete, hfollow⟩
  rw [Filling.completion, if_neg hgoal] at hreduce
  exact hwalk.drive_reduce hg hitem hnext hreduce

end ConflictFree

mutual

/-- The driver gets past the tree of a symbol that some item expects. -/
theorem Tree.drives (hg : g.WellFormed) (hreserved : g.ReservedFree) (hfree : ConflictFree g) :
    {x : Symbol} → (tree : Tree g x) → ∀ (reduced : List ProductionId) {symbols : List Symbol}
    {stack : List StateId} {item : Item} {input : List TerminalId},
    Walk g.automaton symbols stack → Reaches g symbols item → item.next? g = some x →
    (∀ n, x = .nonterminal n → input.headD .endOfInput ∈ g.analysis.follows.get n) →
    ∃ last, Walk g.automaton (symbols ++ [x]) last ∧
      Drives g g.compile.table ⟨stack, tree.yield ++ input, reduced⟩
        ⟨last, input, tree.postorder.reverse ++ reduced⟩
  | _, .leaf t, reduced, symbols, stack, item, input, hwalk, hitem, hnext, _ => by
    obtain ⟨last, hgoes, hdrive⟩ := hfree.drive_shift hg hwalk hitem hnext
    exact ⟨last, hgoes, .single hdrive⟩
  | _, .node p hp children, reduced, symbols, stack, item, input, hwalk, hitem, hnext, hfollow => by
    have hbegun := hitem.free ⟨p, hp, hnext, rfl⟩
    obtain ⟨middle, hmiddle, hchildren⟩ :=
      children.drives hg hreserved hfree reduced hwalk hbegun (Item.rest_start p) (hfollow _ rfl)
    obtain ⟨last, hgoes, hdrive⟩ :=
      hfree.drive_reduce hg hreserved hp hmiddle hitem hnext (hfollow _ rfl)
    refine ⟨last, hgoes, ?_⟩
    rw [Tree.postorder, List.reverse_append]
    exact hchildren.tail hdrive

/-- The driver gets past the trees of everything behind the marker of an item. -/
theorem Forest.drives (hg : g.WellFormed) (hreserved : g.ReservedFree) (hfree : ConflictFree g) :
    {xs : List Symbol} → (forest : Forest g xs) → ∀ (reduced : List ProductionId)
    {symbols : List Symbol} {stack : List StateId} {item : Item} {input : List TerminalId},
    Walk g.automaton symbols stack → Reaches g symbols item → item.rest g = xs →
    input.headD .endOfInput ∈ g.analysis.follows.get (g.production item.production).left →
    ∃ last, Walk g.automaton (symbols ++ xs) last ∧
      Drives g g.compile.table ⟨stack, forest.yield ++ input, reduced⟩
        ⟨last, input, forest.postorder.reverse ++ reduced⟩
  | _, .nil, reduced, symbols, stack, item, input, hwalk, _, _, _ => by
    refine ⟨stack, ?_, .refl⟩
    rwa [List.append_nil]
  | _, @Forest.cons _ x xs tree others, reduced, symbols, stack, item, input, hwalk, hitem, hrest,
      hfollow => by
    have hnext := Item.next?_of_rest hrest
    have hsuffix : x :: xs <:+ (item.right g).toList := hrest ▸ List.drop_suffix _ _
    -- the trees behind this one decide what comes next once it has been reduced
    have hbetween : ∀ n, x = .nonterminal n →
        (others.yield ++ input).headD .endOfInput ∈ g.analysis.follows.get n := by
      rintro n rfl
      exact others.headD_mem_follow hg (hitem.production_mem hg) hsuffix hfollow
    have hadvanced := Item.rest_advance hrest
    obtain ⟨middle, hmiddle, htree⟩ :=
      tree.drives hg hreserved hfree reduced hwalk hitem hnext hbetween
    obtain ⟨last, hgoes, hothers⟩ :=
      others.drives hg hreserved hfree _ hmiddle (hitem.advance hnext) hadvanced hfollow
    refine ⟨last, by rwa [List.append_assoc, List.singleton_append] at hgoes, ?_⟩
    rw [Forest.yield, Forest.postorder, List.append_assoc, List.reverse_append, List.append_assoc]
    exact htree.trans hothers

end

/-- The whole yield of a tree for the start symbol is accepted. -/
theorem Tree.accepts (hg : g.WellFormed) (hreserved : g.ReservedFree) (hfree : ConflictFree g)
    (tree : Tree g (.nonterminal g.start)) :
    Accepts g g.compile.table tree.yield tree.postorder := by
  have hrest : (Item.start .goal).rest g = [.nonterminal g.start] := by
    rw [Item.rest_start, hg.goal_production]
  have hgoal : ([] : List TerminalId).headD .endOfInput ∈
      g.analysis.follows.get (g.production .goal).left := by
    rw [hg.goal_production]
    exact Grammar.endOfInput_mem_followsWith hg g.nullables (g.firstsWith g.nullables)
  -- the goal's production is no node of the tree, so its right-hand side is a forest of one tree
  obtain ⟨last, hlast, hdrives⟩ := (Forest.cons tree .nil).drives hg hreserved hfree [] Walk.nil
    .start hrest hgoal
  obtain ⟨item, hitem, hproduction, hcomplete⟩ := Reaches.start.complete hrest
  obtain ⟨hlt, hholds⟩ := hlast.holdsReached hg
  have hready : Ready g (last.headD 0) .endOfInput item :=
    ⟨(hholds item).mpr hitem, hcomplete, by rwa [hproduction]⟩
  have haccept := hfree.action?_of_ready hg hlt hready
  rw [hproduction] at haccept
  simp only [Forest.yield, Forest.postorder, List.append_nil] at hdrives
  exact ⟨_, hdrives, drive_of_accept haccept, List.reverse_reverse _⟩

/-- The table of a conflict-free grammar accepts the yield of every tree for the start symbol and
reduces the tree in postorder, so no other tree has the same yield. -/
theorem accepts_of_conflictFree {declarations : List Declaration}
    (hg : Grammar.ofDeclarations declarations = .ok g) (hreserved : g.ReservedFree)
    (hfree : ConflictFree g) (tree : Tree g (.nonterminal g.start)) :
    Accepts g g.compile.table tree.yield tree.postorder ∧
      ∀ other : Tree g (.nonterminal g.start), other.yield = tree.yield → other = tree := by
  have hwf := Grammar.wellFormed_of_ofDeclarations hg
  have haccepts := tree.accepts hwf hreserved hfree
  refine ⟨haccepts, fun other hyield => Tree.eq_of_postorder ?_⟩
  have hother := other.accepts hwf hreserved hfree
  rw [hyield] at hother
  exact hother.unique haccepts

/-- The tree of a pair of brackets with two empty words. -/
def bracketPair : Tree brackets (.nonterminal brackets.start) :=
  have hempty : (brackets.production ⟨2⟩).left = brackets.start := by decide +kernel
  have hpair : (brackets.production ⟨1⟩).left = brackets.start := by decide +kernel
  have hnone : (brackets.production ⟨2⟩).right.toList = [] := by decide +kernel
  have hfour : (brackets.production ⟨1⟩).right.toList = [.terminal ⟨1⟩, .nonterminal brackets.start,
    .terminal ⟨2⟩, .nonterminal brackets.start] := by decide +kernel
  let empty : Tree brackets (.nonterminal brackets.start) :=
    hempty ▸ .node ⟨2⟩ (by decide +kernel) (hnone ▸ .nil)
  hpair ▸ .node ⟨1⟩ (by decide +kernel)
    (hfour ▸ .cons (.leaf ⟨1⟩) (.cons empty (.cons (.leaf ⟨2⟩) (.cons empty .nil))))

theorem conflictFree_brackets : ConflictFree brackets :=
  ⟨by decide +kernel, by decide +kernel⟩

theorem brackets_accepts_of_conflictFree :
    Accepts brackets brackets.compile.table [⟨1⟩, ⟨2⟩] [⟨2⟩, ⟨2⟩, ⟨1⟩] ∧
      ∀ other : Tree brackets (.nonterminal brackets.start),
        other.yield = [⟨1⟩, ⟨2⟩] → other = bracketPair := by
  have hyield : bracketPair.yield = [⟨1⟩, ⟨2⟩] := by decide +kernel
  have hpostorder : bracketPair.postorder = [⟨2⟩, ⟨2⟩, ⟨1⟩] := by decide +kernel
  rw [← hyield, ← hpostorder]
  exact accepts_of_conflictFree ofDeclarations_brackets reservedFree_brackets conflictFree_brackets
    bracketPair

end ShiftReduce
