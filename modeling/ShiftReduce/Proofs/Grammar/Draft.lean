import ShiftReduce.Grammar.Build
import ShiftReduce.Proofs.Checked

/-!
# Drafts keep the goal's name out

The name of the goal is refused wherever it is declared, so neither the nonterminals of a draft nor
its start symbol have it.
-/

namespace ShiftReduce.Draft

/-- Neither a nonterminal nor the start symbol has the name of the goal. -/
structure KeepsGoalFree (d : Draft) : Prop where
  goalName_not_mem : goalName ∉ d.rules.keys.toList
  start_ne : d.start ≠ some goalName

theorem keepsGoalFree_empty : KeepsGoalFree {} :=
  ⟨by simp, by simp⟩

theorem mem_keys_alter {m : OrderedMap String (Array Rule)} {name other : String}
    {change : Option (Array Rule) → Array Rule} :
    other ∈ (m.alter name change).keys.toList ↔ other ∈ m.keys.toList ∨ other = name := by
  rw [← OrderedMap.map_fst_toList, OrderedMap.toList_alter, keys_alterEntry,
    ← OrderedMap.map_fst_toList]
  split
  next hmem => exact ⟨.inl, fun h => h.elim id fun heq => heq ▸ hmem⟩
  next => simp

theorem KeepsGoalFree.declare {d next : Draft} (hd : d.KeepsGoalFree) {declaration : Declaration}
    (hnext : d.declare declaration = .ok next) : next.KeepsGoalFree := by
  have halter {name : String} (hname : name ≠ goalName) (change) :
      goalName ∉ (d.rules.alter name change).keys.toList := fun hmem =>
    (mem_keys_alter.mp hmem).elim hd.goalName_not_mem hname.symm
  cases declaration with
  | nonterminal name =>
    simp only [Draft.declare] at hnext
    split at hnext
    next => cases hnext
    next hname =>
      obtain rfl := Except.ok.inj hnext
      exact ⟨halter hname _, hd.start_ne⟩
  | rule left right action =>
    simp only [Draft.declare] at hnext
    split at hnext
    next => cases hnext
    next hname =>
      obtain rfl := Except.ok.inj hnext
      exact ⟨halter hname _, hd.start_ne⟩
  | start name =>
    simp only [Draft.declare] at hnext
    split at hnext
    next => cases hnext
    next hname =>
      obtain rfl := Except.ok.inj hnext
      exact ⟨hd.goalName_not_mem, by simpa using hname⟩
  | resultType | priority | headerExtra | verbose | parserName =>
    obtain rfl := Except.ok.inj hnext
    exact ⟨hd.goalName_not_mem, hd.start_ne⟩

theorem keepsGoalFree_of_declareAll {declarations : List Declaration} {d : Draft}
    (hd : declareAll {} declarations = .ok d) : d.KeepsGoalFree :=
  foldlM_invariant (P := fun _ d => KeepsGoalFree d)
    (fun _ _ _ _ hkept hnext => hkept.declare hnext) keepsGoalFree_empty hd

/-- The start symbol of a draft that has rules for it is one of its nonterminals. -/
theorem mem_keys_of_hasRules {d : Draft} {name : String} (hrules : d.hasRules name = true) :
    name ∈ d.rules.keys.toList := by
  cases hfound : d.rules.keys.idx? name with
  | none => simp [hasRules, OrderedMap.get?, hfound] at hrules
  | some i => exact List.mem_of_getElem? (Roster.idx?_eq_some_iff.mp hfound)

end ShiftReduce.Draft
