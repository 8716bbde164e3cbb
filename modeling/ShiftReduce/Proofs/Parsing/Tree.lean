import ShiftReduce.Proofs.Analysis.Follow

/-!
# Parse trees

A tree for a nonterminal is a production with a tree for each symbol on its right-hand side. The
postorder of its productions determines the tree, and its yield begins as NULLABLE and FIRST say.
-/

namespace ShiftReduce

mutual

/-- What a symbol can be parsed as. -/
inductive Tree (g : Grammar) : Symbol → Type
  | leaf (t : TerminalId) : Tree g (.terminal t)
  | node (p : ProductionId) (hp : p ∈ g.productionIds)
      (children : Forest g (g.production p).right.toList) :
      Tree g (.nonterminal (g.production p).left)

/-- A tree for each of some symbols. -/
inductive Forest (g : Grammar) : List Symbol → Type
  | nil : Forest g []
  | cons {x : Symbol} {xs : List Symbol} (tree : Tree g x) (others : Forest g xs) :
      Forest g (x :: xs)

end

variable {g : Grammar}

mutual

/-- The terminals at the leaves, from left to right. -/
def Tree.yield : {x : Symbol} → Tree g x → List TerminalId
  | _, .leaf t => [t]
  | _, .node _ _ children => children.yield

def Forest.yield : {xs : List Symbol} → Forest g xs → List TerminalId
  | _, .nil => []
  | _, .cons tree others => tree.yield ++ others.yield

end

mutual

/-- The productions at the nodes, children before parents and from left to right. -/
def Tree.postorder : {x : Symbol} → Tree g x → List ProductionId
  | _, .leaf _ => []
  | _, .node p _ children => children.postorder ++ [p]

def Forest.postorder : {xs : List Symbol} → Forest g xs → List ProductionId
  | _, .nil => []
  | _, .cons tree others => tree.postorder ++ others.postorder

end

/-- The yields of some trees, one by one. -/
def Forest.yields : {xs : List Symbol} → Forest g xs → List (List TerminalId)
  | _, .nil => []
  | _, .cons tree others => tree.yield :: others.yields

mutual

/-- Every node satisfies what is said of the yields of its children. -/
def Tree.EveryNode (P : List (List TerminalId) → Prop) : {x : Symbol} → Tree g x → Prop
  | _, .leaf _ => True
  | _, .node _ _ children => P children.yields ∧ children.EveryNode P

def Forest.EveryNode (P : List (List TerminalId) → Prop) :
    {xs : List Symbol} → Forest g xs → Prop
  | _, .nil => True
  | _, .cons tree others => tree.EveryNode P ∧ others.EveryNode P

end

mutual

theorem Tree.EveryNode.imp {P Q : List (List TerminalId) → Prop}
    (himp : ∀ children, P children → Q children) :
    {x : Symbol} → {tree : Tree g x} → tree.EveryNode P → tree.EveryNode Q
  | _, .leaf _, _ => trivial
  | _, .node _ _ children, h => ⟨himp _ h.1, Forest.EveryNode.imp himp children h.2⟩

theorem Forest.EveryNode.imp {P Q : List (List TerminalId) → Prop}
    (himp : ∀ children, P children → Q children) :
    {xs : List Symbol} → (forest : Forest g xs) → forest.EveryNode P → forest.EveryNode Q
  | _, .nil, _ => trivial
  | _, .cons _ others, h => ⟨Tree.EveryNode.imp himp h.1, Forest.EveryNode.imp himp others h.2⟩

end

/-- A production and trees for the symbols on its right make a tree for the symbol on its left. -/
theorem Tree.exists_node {p : ProductionId} (hp : p ∈ g.productionIds) {n : NonterminalId}
    (hleft : (g.production p).left = n) {xs : List Symbol}
    (hright : (g.production p).right.toList = xs) (children : Forest g xs) :
    ∃ tree : Tree g (.nonterminal n), tree.yield = children.yield ∧
      tree.postorder = children.postorder ++ [p] ∧
        ∀ P, tree.EveryNode P ↔ P children.yields ∧ children.EveryNode P := by
  subst hleft hright
  exact ⟨.node p hp children, rfl, rfl, fun _ => .rfl⟩

mutual

/-- Read from its end, a postorder tells which production to expand next. -/
theorem Tree.heq_of_postorder : {x y : Symbol} → (tree : Tree g x) → (other : Tree g y) → x = y →
    ∀ before after : List ProductionId, before ++ tree.postorder = after ++ other.postorder →
      HEq tree other ∧ before = after
  | _, _, .leaf t, .leaf u, hsymbol, before, after, hsame => by
    obtain rfl := Symbol.terminal.inj hsymbol
    simpa [Tree.postorder] using hsame
  | _, _, .node p hp children, .node q hq others, _, before, after, hsame => by
    simp only [Tree.postorder, ← List.append_assoc] at hsame
    obtain ⟨hrest, hlast⟩ := List.append_inj' hsame rfl
    obtain rfl := List.singleton_inj.mp hlast
    obtain ⟨rfl, hbefore⟩ := Forest.eq_of_postorder children others before after hrest
    exact ⟨.rfl, hbefore⟩

theorem Forest.eq_of_postorder : {xs : List Symbol} → (forest other : Forest g xs) →
    ∀ before after : List ProductionId, before ++ forest.postorder = after ++ other.postorder →
      forest = other ∧ before = after
  | _, .nil, .nil, before, after, hsame => by simpa [Forest.postorder] using hsame
  | _, .cons tree others, .cons tree' others', before, after, hsame => by
    simp only [Forest.postorder, ← List.append_assoc] at hsame
    -- the last trees are told apart first, since reading starts from the end
    obtain ⟨rfl, hrest⟩ := Forest.eq_of_postorder others others' _ _ hsame
    obtain ⟨htree, hbefore⟩ := Tree.heq_of_postorder tree tree' rfl before after hrest
    exact ⟨by rw [eq_of_heq htree], hbefore⟩

end

/-- Trees for a symbol with the same postorder are the same. -/
theorem Tree.eq_of_postorder {x : Symbol} {tree other : Tree g x}
    (hsame : tree.postorder = other.postorder) : tree = other :=
  eq_of_heq (Tree.heq_of_postorder tree other rfl [] [] (by simpa using hsame)).1

mutual

/-- Only nullable symbols have trees without leaves. -/
theorem Tree.isIn_of_yield : {x : Symbol} → (tree : Tree g x) → tree.yield = [] →
    x.isIn g.nullables = true
  | _, .leaf t, hyield => absurd hyield (List.cons_ne_nil t [])
  | _, .node _ hp children, hyield =>
    Symbol.isIn_nonterminal.mpr (Grammar.left_mem_nullables hp (children.all_isIn_of_yield hyield))

theorem Forest.all_isIn_of_yield : {xs : List Symbol} → (forest : Forest g xs) → forest.yield = [] →
    xs.all (·.isIn g.nullables) = true
  | _, .nil, _ => rfl
  | _, .cons tree others, hyield => by
    obtain ⟨htree, hothers⟩ := List.append_eq_nil_iff.mp hyield
    rw [List.all_cons, tree.isIn_of_yield htree, others.all_isIn_of_yield hothers]
    rfl

end

mutual

/-- The first leaf is in FIRST of the symbol. -/
theorem Tree.mem_first_of_yield (hg : g.WellFormed) {t : TerminalId} {ts : List TerminalId} :
    {x : Symbol} → (tree : Tree g x) → tree.yield = t :: ts →
      t ∈ firstOfSymbols g.nullables (g.firstsWith g.nullables) [x]
  | _, .leaf u, hyield => by
    rw [firstOfSymbols, TerminalSet.mem_singleton]
    exact (List.cons.inj hyield).1.symm
  | _, .node p hp children, hyield => by
    rw [mem_firstOfSymbols_nonterminal]
    exact .inl (Grammar.mem_firstsWith hg hp (children.mem_first_of_yield hg hyield))

theorem Forest.mem_first_of_yield (hg : g.WellFormed) {t : TerminalId} {ts : List TerminalId} :
    {xs : List Symbol} → (forest : Forest g xs) → forest.yield = t :: ts →
      t ∈ firstOfSymbols g.nullables (g.firstsWith g.nullables) xs
  | _, .nil, hyield => absurd hyield (List.cons_ne_nil t ts).symm
  | _, .cons tree others, hyield => by
    rw [mem_firstOfSymbols_cons]
    rw [Forest.yield] at hyield
    cases htree : tree.yield with
    | nil =>
      rw [htree, List.nil_append] at hyield
      exact .inr ⟨tree.isIn_of_yield htree, others.mem_first_of_yield hg hyield⟩
    | cons u us =>
      rw [htree] at hyield
      obtain rfl := (List.cons.inj hyield).1
      exact .inl (tree.mem_first_of_yield hg htree)

end

/-- What comes next before a forest and some input begins the forest, or begins the input if the
forest may vanish. -/
theorem Forest.headD_mem (hg : g.WellFormed) {xs : List Symbol} (forest : Forest g xs)
    (input : List TerminalId) :
    (forest.yield ++ input).headD .endOfInput ∈
      firstOfSymbols g.nullables (g.firstsWith g.nullables) xs ∨
    xs.all (·.isIn g.nullables) = true ∧
      (forest.yield ++ input).headD .endOfInput = input.headD .endOfInput := by
  cases hyield : forest.yield with
  | nil => exact .inr ⟨forest.all_isIn_of_yield hyield, rfl⟩
  | cons t ts => exact .inl (forest.mem_first_of_yield hg hyield)

end ShiftReduce
