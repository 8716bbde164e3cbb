import Mathlib.Data.List.Forall2
import ShiftReduce.Grammar.Build
import ShiftReduce.Proofs.Checked

/-!
# Numbering productions by blocks

Blocks are numbered on from one another, so the number of a production tells its block and its
place in it. The list of all productions has each where its block does.
-/

namespace ShiftReduce.Block

/-- The first block begins with `first`, and each other where the one before it ends. -/
def Consecutive : Nat → List Block → Prop
  | _, [] => True
  | first, b :: rest => b.first = first ∧ Consecutive b.next rest

/-- The right-hand sides of the block are those of the rules. -/
def IsMadeOf (v : Vocabulary) (rules : List Rule) (b : Block) : Prop :=
  ∀ right, right ∈ b.actions.toList.map Prod.fst ↔
    ∃ rule ∈ rules, right = rule.right.map v.resolve

theorem consecutive_concat {first : Nat} {blocks : List Block} {b : Block}
    (hblocks : Consecutive first blocks) (hb : b.first = (blocks.getLast?.map next).getD first) :
    Consecutive first (blocks ++ [b]) := by
  induction blocks generalizing first with
  | nil => exact ⟨hb, trivial⟩
  | cons head rest ih =>
    refine ⟨hblocks.1, ih hblocks.2 ?_⟩
    cases rest with
    | nil => simpa using hb
    | cons => simpa [List.getLast?_cons] using hb

theorem first_le_of_mem {first : Nat} {blocks : List Block} (hblocks : Consecutive first blocks)
    {b : Block} (hb : b ∈ blocks) : first ≤ b.first := by
  induction blocks generalizing first with
  | nil => simp at hb
  | cons head rest ih =>
    rcases List.mem_cons.mp hb with rfl | hb
    · exact Nat.le_of_eq hblocks.1.symm
    · have hfirst := hblocks.1
      have hlater := ih hblocks.2 hb
      simp only [next] at hlater
      omega

section Building

variable {v : Vocabulary} {name : String}

/-- One more rule adds its right-hand side, unless that is there already. -/
theorem IsMadeOf.addRule {rules : List Rule} {rule : Rule} {b next : Block}
    (hb : b.IsMadeOf v rules) (hnext : b.addRule v name rule = .ok next) :
    next.first = b.first ∧ next.IsMadeOf v (rules ++ [rule]) := by
  have hmore : ∀ right, (∃ known ∈ rules ++ [rule], right = known.right.map v.resolve) ↔
      right ∈ b.actions.toList.map Prod.fst ∨ right = rule.right.map v.resolve := by
    intro right
    rw [hb]
    simp [or_and_right, exists_or]
  simp only [Block.addRule] at hnext
  split at hnext
  next => cases hnext
  next =>
    split at hnext
    next hcontains =>
      obtain rfl := Except.ok.inj hnext
      refine ⟨rfl, fun right => ?_⟩
      have hknown := OrderedMap.contains_iff.mp hcontains
      rw [hmore]
      exact ⟨.inl, fun h => h.elim id fun heq => heq ▸ hknown⟩
    next hcontains =>
      split at hnext
      next => cases hnext
      next =>
        obtain rfl := Except.ok.inj hnext
        refine ⟨rfl, fun right => ?_⟩
        have hfresh := (OrderedMap.contains_iff (m := b.actions)).not.mp hcontains
        rw [hmore, OrderedMap.toList_insert_of_not_mem hfresh, List.map_append, List.mem_append]
        simp

/-- Each of the blocks is made of the rules of its entry, and they are numbered from 1. -/
def Follow (v : Vocabulary) (entries : List (String × Array Rule)) (blocks : Array Block) : Prop :=
  Consecutive 1 blocks.toList ∧
    List.Forall₂ (fun entry b => IsMadeOf v entry.2.toList b) entries blocks.toList

theorem Follow.append {entries : List (String × Array Rule)} {entry : String × Array Rule}
    {blocks next : Array Block} (hblocks : Follow v entries blocks)
    (hnext : append v blocks entry = .ok next) : Follow v (entries ++ [entry]) next := by
  obtain ⟨b, hb, hpush⟩ := exists_of_bind_eq_ok hnext
  obtain rfl := Except.ok.inj hpush
  have hadd : ∀ rules rule (b next : Block),
      b.first = (blocks.back?.map Block.next).getD 1 ∧ b.IsMadeOf v rules →
      b.addRule v entry.1 rule = .ok next →
      next.first = (blocks.back?.map Block.next).getD 1 ∧ next.IsMadeOf v (rules ++ [rule]) := by
    rintro rules rule b next ⟨hfirst, hmade⟩ hnext
    obtain ⟨hsame, hmore⟩ := hmade.addRule hnext
    exact ⟨hsame.trans hfirst, hmore⟩
  obtain ⟨hfirst, hmade⟩ := foldlM_invariant hadd ⟨rfl, by simp [IsMadeOf]⟩ hb
  refine ⟨?_, ?_⟩
  · rw [Array.toList_push]
    exact consecutive_concat hblocks.1 (by simpa using hfirst)
  · rw [Array.toList_push]
    exact List.rel_append hblocks.2 (.cons hmade .nil)

theorem follow_of_foldlM {entries : List (String × Array Rule)} {blocks : Array Block}
    (hblocks : entries.foldlM (Block.append v) #[] = .ok blocks) : Follow v entries blocks :=
  have hnone : Follow v [] #[] := ⟨trivial, .nil⟩
  foldlM_invariant (fun _ _ _ _ hkept hadd => hkept.append hadd) hnone hblocks

end Building

/-- The productions of blocks whose nonterminals are numbered from `left`. -/
def declared (left : Nat) (blocks : List Block) : List Production :=
  (blocks.mapIdx fun i b => b.productions ⟨i + left⟩).flatten

theorem declared_cons (left : Nat) (b : Block) (rest : List Block) :
    declared left (b :: rest) = b.productions ⟨left⟩ ++ declared (left + 1) rest := by
  simp only [declared, List.mapIdx_cons, List.flatten_cons, Nat.zero_add, Nat.add_assoc,
    Nat.add_comm 1 left]

theorem getElem?_productions_iff {b : Block} {left : NonterminalId} {k : Nat} {p : Production} :
    (b.productions left)[k]? = some p ↔
      ∃ right action, b.actions.toList[k]? = some (right, action) ∧
        p = ⟨left, right.toArray, action⟩ := by
  rw [productions, List.getElem?_map, Option.map_eq_some_iff]
  constructor
  · rintro ⟨⟨right, action⟩, hentry, rfl⟩
    exact ⟨right, action, hentry, rfl⟩
  · rintro ⟨right, action, hentry, rfl⟩
    exact ⟨(right, action), hentry, rfl⟩

theorem left_of_getElem?_productions {b : Block} {left : NonterminalId} {k : Nat} {p : Production}
    (hp : (b.productions left)[k]? = some p) : p.left = left := by
  obtain ⟨right, action, -, rfl⟩ := getElem?_productions_iff.mp hp
  rfl

theorem length_toList_actions (b : Block) : b.actions.toList.length = b.actions.size := by
  rw [← List.length_map (f := Prod.fst), OrderedMap.map_fst_toList, OrderedMap.length_eq]
  simp [OrderedMap.size]

theorem length_productions (b : Block) (left : NonterminalId) :
    (b.productions left).length = b.actions.size := by
  rw [productions, List.length_map, length_toList_actions]

theorem mem_ids {b : Block} {p : ProductionId} :
    p ∈ b.ids ↔ ∃ m < b.actions.size, p.index = b.first + m := by
  obtain ⟨k⟩ := p
  simp only [ids, List.mem_map, List.mem_range'_1, ProductionId.mk.injEq]
  constructor
  · rintro ⟨i, ⟨hle, hlt⟩, rfl⟩
    exact ⟨i - b.first, by omega, by omega⟩
  · rintro ⟨m, hm, rfl⟩
    exact ⟨b.first + m, by omega, rfl⟩

/-- A declared production stands in a block, at the place that its number tells. -/
theorem exists_block_of_getElem?_declared {first left : Nat} {blocks : List Block}
    (hblocks : Consecutive first blocks) {k : Nat} {p : Production}
    (hp : (declared left blocks)[k]? = some p) :
    ∃ (j : Nat) (b : Block) (m : Nat), blocks[j]? = some b ∧
      (b.productions ⟨left + j⟩)[m]? = some p ∧ first + k = b.first + m := by
  induction blocks generalizing first left k with
  | nil => simp [declared] at hp
  | cons head rest ih =>
    obtain ⟨rfl, hrest⟩ := hblocks
    rw [declared_cons] at hp
    by_cases hk : k < head.actions.size
    · rw [List.getElem?_append_left (by rwa [length_productions])] at hp
      exact ⟨0, head, k, rfl, hp, rfl⟩
    · have hle : (head.productions ⟨left⟩).length ≤ k := by
        rw [length_productions]
        exact Nat.le_of_not_lt hk
      rw [List.getElem?_append_right hle, length_productions] at hp
      obtain ⟨j, b, m, hj, hm, hnumber⟩ := ih hrest hp
      refine ⟨j + 1, b, m, hj, ?_, ?_⟩
      · rwa [Nat.add_comm j 1, ← Nat.add_assoc]
      · simp only [next] at hnumber
        omega

/-- What stands in block `j` is declared with the left-hand side `left + j`. -/
theorem getElem?_declared_of_block {first left : Nat} {blocks : List Block}
    (hblocks : Consecutive first blocks) {j k m : Nat} {b : Block} {p : Production}
    (hj : blocks[j]? = some b) (hm : (b.productions ⟨left + j⟩)[m]? = some p)
    (hnumber : first + k = b.first + m) : (declared left blocks)[k]? = some p := by
  induction blocks generalizing first left j k with
  | nil => simp at hj
  | cons head rest ih =>
    obtain ⟨rfl, hrest⟩ := hblocks
    rw [declared_cons]
    cases j with
    | zero =>
      obtain rfl : head = b := by simpa using hj
      obtain rfl : k = m := by omega
      rw [Nat.add_zero] at hm
      rwa [List.getElem?_append_left (List.getElem?_eq_some_iff.mp hm).1]
    | succ j =>
      -- the blocks behind the first one begin where it ends
      have hlater := first_le_of_mem hrest (List.mem_of_getElem? hj)
      simp only [next] at hlater
      rw [List.getElem?_append_right (by rw [length_productions]; omega), length_productions]
      refine ih hrest hj ?_ ?_
      · rwa [Nat.add_assoc, Nat.add_comm 1 j]
      · simp only [next]
        omega

end ShiftReduce.Block
