import ShiftReduce.Proofs.Grammar.Declared

/-!
# Which declarations are accepted

Declarations are refused for the name of the goal only. A draft is then built if its start symbol
has rules and a type, and if there are not too many names, productions, or symbols in a production.
-/

namespace ShiftReduce

/-- What is listed without repetition among some names is no longer than these. -/
theorem Roster.size_le {α : Type} [Ord α] [Std.TransOrd α] [Std.LawfulEqOrd α] {r : Roster α}
    {xs : List α} (hr : ∀ x ∈ r.toList, x ∈ xs) : r.size ≤ xs.length :=
  (List.subperm_of_subset r.nodup hr).length_le

namespace Block

/-- The block begins with `first` and has none but the given right-hand sides. -/
structure Fits (first : Nat) (rights : List (List Symbol)) (b : Block) : Prop where
  first_eq : b.first = first
  mem_rights : ∀ right ∈ b.actions.toList.map Prod.fst, right ∈ rights

variable {v : Vocabulary} {name : String} {first : Nat} {rights : List (List Symbol)}
  (hroom : first + rights.length ≤ sizeLimit + 1)

include hroom

theorem Fits.exists_addRule {b : Block} (hb : b.Fits first rights) {rule : Rule}
    (hshort : rule.right.length ≤ sizeLimit) (hright : rule.right.map v.resolve ∈ rights) :
    ∃ next, b.addRule v name rule = .ok next ∧ next.Fits first rights := by
  rw [addRule, if_neg (Nat.not_lt.mpr hshort)]
  dsimp only
  split
  next => exact ⟨b, rfl, hb⟩
  next hcontains =>
    have hfresh := OrderedMap.contains_iff.not.mp hcontains
    -- the right-hand sides so far and the new one are all different
    have hmore : (rule.right.map v.resolve :: b.actions.toList.map Prod.fst).Subperm rights := by
      refine List.subperm_of_subset (List.nodup_cons.mpr ⟨hfresh, b.actions.nodup_keys⟩) ?_
      exact List.cons_subset.mpr ⟨hright, hb.mem_rights⟩
    have hsize := hmore.length_le
    rw [List.length_cons, List.length_map, length_toList_actions] at hsize
    rw [if_neg (by rw [next, hb.first_eq]; omega)]
    refine ⟨_, rfl, hb.first_eq, fun right hmem => ?_⟩
    rw [OrderedMap.toList_insert_of_not_mem hfresh, List.map_append, List.mem_append] at hmem
    rcases hmem with hmem | hmem
    · exact hb.mem_rights right hmem
    · exact List.mem_singleton.mp hmem ▸ hright

/-- Short rules make up a block if there is room for all their right-hand sides. -/
theorem exists_addRules {rules : List Rule}
    (hshort : ∀ rule ∈ rules, rule.right.length ≤ sizeLimit)
    (hrights : ∀ rule ∈ rules, rule.right.map v.resolve ∈ rights) :
    ∃ b, rules.foldlM (addRule v name) ⟨first, ∅⟩ = .ok b := by
  have hnone : Fits first rights ⟨first, ∅⟩ := ⟨rfl, by simp⟩
  obtain ⟨b, hb, -⟩ := exists_foldlM (fun b hb rule hrule =>
    hb.exists_addRule hroom (hshort rule hrule) (hrights rule hrule)) hnone
  exact ⟨b, hb⟩

end Block

namespace Draft

theorem exists_declareAll {declarations : List Declaration}
    (hnonterminal : ∀ declaration ∈ declarations, declaration.nonterminal? ≠ some goalName)
    (hstart : ∀ declaration ∈ declarations, declaration.start? ≠ some goalName) :
    ∃ d, declareAll {} declarations = .ok d := by
  have hdeclare : ∀ d : Draft, True → ∀ declaration ∈ declarations,
      ∃ next, d.declare declaration = .ok next ∧ True := by
    intro d _ declaration hmem
    have hnonterminal := hnonterminal declaration hmem
    have hstart := hstart declaration hmem
    cases declaration with
    | nonterminal | rule =>
      exact ⟨_, if_neg fun heq => hnonterminal (congrArg some heq), trivial⟩
    | start => exact ⟨_, if_neg fun heq => hstart (congrArg some heq), trivial⟩
    | resultType | priority | headerExtra | verbose | parserName => exact ⟨_, rfl, trivial⟩
  obtain ⟨d, hd, -⟩ := exists_foldlM hdeclare trivial
  exact ⟨d, hd⟩

variable {d : Draft}

theorem hasRules_of_mem_rulesOf {name : String} {rule : Rule} (hrule : rule ∈ d.rulesOf name) :
    d.hasRules name = true := by
  rw [rulesOf] at hrule
  rw [hasRules]
  cases hfound : d.rules.get? name with
  | none => simp [hfound] at hrule
  | some rules =>
    have hne : rules ≠ #[] := by rintro rfl; simp [hfound] at hrule
    simpa using hne

/-- Names are numbered if there are few enough nonterminals, and few enough others. -/
theorem exists_vocabulary (hkeys : d.rules.keys.toList.length ≤ sizeLimit)
    {names : List String} (hlength : names.length ≤ sizeLimit)
    (hnames : ∀ name ∈ d.mentioned, name ∈ d.rules.keys.toList ∨ name ∈ names) :
    ∃ v, d.vocabulary = .ok v := by
  have hnonterminals : (Vocabulary.nonterminalsOf d.rules.keys.toList).size ≤ sizeLimit + 1 :=
    Nat.le_trans (Roster.size_le fun _ => Roster.mem_ofList.mp) (Nat.succ_le_succ hkeys)
  have hmem : ∀ name ∈ (Vocabulary.terminalsOf (Vocabulary.nonterminalsOf d.rules.keys.toList)
      d.mentioned).toList, name ∈ endOfInputName :: names := by
    intro name hname
    rw [Vocabulary.mem_terminalsOf, Vocabulary.nonterminalsOf, Roster.mem_ofList] at hname
    rcases hname with rfl | ⟨hmentioned, hother⟩
    · exact List.mem_cons_self
    · refine List.mem_cons_of_mem _ ((hnames name hmentioned).resolve_left fun hkey => ?_)
      exact hother (List.mem_cons_of_mem _ hkey)
  have hterminals := Nat.le_trans (Roster.size_le hmem) (Nat.succ_le_succ hlength)
  unfold vocabulary
  dsimp only
  rw [if_neg (Nat.not_lt.mpr hnonterminals), if_neg (Nat.not_lt.mpr hterminals)]
  exact ⟨_, rfl⟩

section Single

/-! A draft with a single nonterminal is built if its rules are short and few. -/

variable {start : String} (hkeys : d.rules.keys.toList = [start]) {rights : List (List String)}
  (hrights : ∀ rule ∈ d.rulesOf start, rule.right ∈ rights)

include hkeys hrights

theorem exists_mem_rights {name : String} (hname : name ∈ d.mentioned) :
    ∃ right ∈ rights, name ∈ right := by
  obtain ⟨left, rule, hrule, hname⟩ := mem_mentioned_iff.mp hname
  obtain ⟨rules, hentry, -⟩ := mem_rulesOf_iff.mp hrule
  have hleft : left ∈ d.rules.keys.toList :=
    OrderedMap.map_fst_toList d.rules ▸ List.mem_map_of_mem hentry
  rw [hkeys, List.mem_singleton] at hleft
  exact ⟨rule.right, hrights rule (hleft ▸ hrule), hname⟩

theorem exists_blocks (v : Vocabulary) (hfew : rights.length ≤ sizeLimit)
    (hshort : ∀ right ∈ rights, right.length ≤ sizeLimit) :
    ∃ blocks, d.rules.toList.foldlM (Block.append v) #[] = .ok blocks := by
  obtain ⟨⟨left, rules⟩, hentries, hleft⟩ :=
    List.map_eq_singleton_iff.mp (d.rules.map_fst_toList.trans hkeys)
  obtain rfl : start = left := hleft.symm
  have hrulesOf : ∀ rule ∈ rules.toList, rule ∈ d.rulesOf start := fun rule hrule =>
    mem_rulesOf_iff.mpr ⟨rules, by simp [hentries], hrule⟩
  have hroom : 1 + (rights.map (List.map v.resolve)).length ≤ sizeLimit + 1 := by
    rw [List.length_map]
    omega
  have hblock : ∃ b, rules.toList.foldlM (Block.addRule v start) ⟨1, ∅⟩ = .ok b :=
    Block.exists_addRules hroom
      (fun rule hrule => hshort _ (hrights rule (hrulesOf rule hrule)))
      fun rule hrule => List.mem_map_of_mem (hrights rule (hrulesOf rule hrule))
  obtain ⟨b, hb⟩ := hblock
  refine ⟨#[b], ?_⟩
  simp [hentries, Block.append, hb, bind, Except.bind, pure, Except.pure]

theorem exists_build {startType : String} (hstart : d.startName = .ok start)
    (hrules : d.hasRules start = true) (htype : d.resultTypes.get? start = some startType)
    (hfew : rights.length ≤ sizeLimit) (hshort : ∀ right ∈ rights, right.length ≤ sizeLimit)
    {names : List String} (hlength : names.length ≤ sizeLimit)
    (hnames : ∀ right ∈ rights, ∀ name ∈ right, name = start ∨ name ∈ names) :
    ∃ g, d.build = .ok g := by
  have hmentioned : ∀ name ∈ d.mentioned, name ∈ d.rules.keys.toList ∨ name ∈ names := by
    intro name hname
    obtain ⟨right, hright, hname⟩ := exists_mem_rights hkeys hrights hname
    rw [hkeys, List.mem_singleton]
    exact hnames right hright name hname
  obtain ⟨v, hv⟩ := exists_vocabulary (by simp [hkeys, sizeLimit]) hlength hmentioned
  obtain ⟨blocks, hblocks⟩ := exists_blocks hkeys hrights v hfew hshort
  simp [build, hstart, hrules, htype, hv, hblocks, bind, Except.bind, pure, Except.pure]

end Single

end Draft

end ShiftReduce
