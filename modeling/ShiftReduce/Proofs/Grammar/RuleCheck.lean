import Mathlib.Data.Finset.Card
import ShiftReduce.Proofs.Grammar.Build

/-!
# Rules are checked one by one

Blocks find out about rules that are too long, and about too many productions, as they go through
the rules in order. What they find depends on the two sides of the rules alone: a rule counts if no
earlier one has the same sides, and the first rule that is too long or one too many is refused.
-/

namespace ShiftReduce

/-- No rule is too long, and there are not too many different ones. -/
structure RulesFit (rules : List (String × List String)) : Prop where
  length_le : ∀ rule ∈ rules, rule.2.length ≤ 65535
  card_le : rules.toFinset.card ≤ 65535

/-- What is wrong with the first rule that does not fit with those before it. Its length comes
before the number of rules. -/
inductive FirstRuleProblem (rules : List (String × List String)) : GrammarError → Prop
  | tooManySymbols (before after : List (String × List String)) (left : String)
      (right : List String) (hrules : rules = before ++ (left, right) :: after)
      (hbefore : RulesFit before) (hlong : 65535 < right.length) :
      FirstRuleProblem rules (.tooManySymbols left right.length)
  | tooManyProductions (before after : List (String × List String)) (left : String)
      (right : List String) (hrules : rules = before ++ (left, right) :: after)
      (hbefore : RulesFit before) (hshort : right.length ≤ 65535)
      (hmany : 65535 < (before ++ [(left, right)]).toFinset.card) :
      FirstRuleProblem rules .tooManyProductions

theorem rulesFit_nil : RulesFit [] :=
  ⟨by simp, by simp⟩

/-- Rules that do not all fit have a first one that does not. -/
theorem rulesFit_or_exists_firstRuleProblem (rules : List (String × List String)) :
    RulesFit rules ∨ ∃ e, FirstRuleProblem rules e := by
  induction rules using List.reverseRecOn with
  | nil => exact .inl rulesFit_nil
  | append_singleton before rule ih =>
    rcases ih with hbefore | ⟨e, he⟩
    · by_cases hlong : 65535 < rule.2.length
      · exact .inr ⟨_, .tooManySymbols before [] rule.1 rule.2 rfl hbefore hlong⟩
      by_cases hmany : 65535 < (before ++ [rule]).toFinset.card
      · exact .inr ⟨_, .tooManyProductions before [] rule.1 rule.2 rfl hbefore
          (Nat.not_lt.mp hlong) hmany⟩
      refine .inl ⟨List.forall_mem_append.mpr ⟨hbefore.length_le, ?_⟩, Nat.not_lt.mp hmany⟩
      exact List.forall_mem_singleton.mpr (Nat.not_lt.mp hlong)
    · right
      cases he with
      | tooManySymbols first after left right hrules hfirst hlong =>
        exact ⟨_, .tooManySymbols first (after ++ [rule]) left right (by simp [hrules]) hfirst
          hlong⟩
      | tooManyProductions first after left right hrules hfirst hshort hmany =>
        exact ⟨_, .tooManyProductions first (after ++ [rule]) left right (by simp [hrules]) hfirst
          hshort hmany⟩

/-- Puts a rule behind those that were checked before, unless it does not fit with them. -/
def checkRule (done : List (String × List String)) (rule : String × List String) :
    Except GrammarError (List (String × List String)) :=
  if 65535 < rule.2.length then .error (.tooManySymbols rule.1 rule.2.length)
  else if 65535 < (done ++ [rule]).toFinset.card then .error .tooManyProductions
  else .ok (done ++ [rule])

theorem RulesFit.foldlM_checkRule {rules : List (String × List String)} (hrules : RulesFit rules) :
    rules.foldlM checkRule [] = .ok rules := by
  induction rules using List.reverseRecOn with
  | nil => rfl
  | append_singleton before rule ih =>
    obtain ⟨hbefore, hrule⟩ := List.forall_mem_append.mp hrules.length_le
    have hcard : before.toFinset.card ≤ 65535 := by
      refine Nat.le_trans (Finset.card_le_card fun x hx => ?_) hrules.card_le
      exact List.mem_toFinset.mpr (List.mem_append_left _ (List.mem_toFinset.mp hx))
    have hstep : checkRule before rule = .ok (before ++ [rule]) := by
      rw [checkRule, if_neg (Nat.not_lt.mpr (hrule rule List.mem_cons_self)),
        if_neg (Nat.not_lt.mpr hrules.card_le)]
    rw [foldlM_append_of_eq_ok (ih ⟨hbefore, hcard⟩), List.foldlM_cons, hstep]
    rfl

theorem FirstRuleProblem.foldlM_checkRule {rules : List (String × List String)} {e : GrammarError}
    (he : FirstRuleProblem rules e) : rules.foldlM checkRule [] = .error e := by
  cases he with
  | tooManySymbols before after left right hrules hbefore hlong =>
    have hstep : checkRule before (left, right) = .error (.tooManySymbols left right.length) :=
      if_pos hlong
    rw [hrules, foldlM_append_of_eq_ok hbefore.foldlM_checkRule, List.foldlM_cons, hstep]
    rfl
  | tooManyProductions before after left right hrules hbefore hshort hmany =>
    have hstep : checkRule before (left, right) = .error .tooManyProductions := by
      rw [checkRule, if_neg (Nat.not_lt.mpr hshort), if_pos hmany]
    rw [hrules, foldlM_append_of_eq_ok hbefore.foldlM_checkRule, List.foldlM_cons, hstep]
    rfl

namespace Vocabulary

/-- The name that has a symbol's number. -/
def name? (v : Vocabulary) : Symbol → Option String
  | .nonterminal n => v.nonterminals.toList[n.index]?
  | .terminal t => v.terminals.toList[t.index]?

theorem name?_resolve {v : Vocabulary} {name : String}
    (hname : name ∈ v.nonterminals.toList ∨ name ∈ v.terminals.toList) :
    v.name? (v.resolve name) = some name := by
  rw [resolve]
  cases hnonterminal : v.nonterminals.idx? name with
  | some i => exact Roster.idx?_eq_some_iff.mp hnonterminal
  | none =>
    cases hterminal : v.terminals.idx? name with
    | some i => exact Roster.idx?_eq_some_iff.mp hterminal
    | none =>
      exact absurd hname (not_or.mpr ⟨Roster.idx?_eq_none_iff.mp hnonterminal,
        Roster.idx?_eq_none_iff.mp hterminal⟩)

end Vocabulary

namespace Draft

variable {d : Draft} {v : Vocabulary}

/-- Different names that are mentioned mean different symbols. -/
theorem eq_of_map_resolve (hv : d.vocabulary = .ok v) {names others : List String}
    (hnames : ∀ name ∈ names, name ∈ d.mentioned) (hothers : ∀ name ∈ others, name ∈ d.mentioned)
    (heq : names.map v.resolve = others.map v.resolve) : names = others := by
  have hback (names : List String) (hnames : ∀ name ∈ names, name ∈ d.mentioned) :
      (names.map v.resolve).map v.name? = names.map some := by
    rw [List.map_map]
    refine List.map_congr_left fun name hname => Vocabulary.name?_resolve ?_
    by_cases hnonterminal : name ∈ v.nonterminals.toList
    · exact .inl hnonterminal
    · exact .inr (mem_terminals_of_vocabulary hv (hnames name hname) hnonterminal)
  have hfound := hback names hnames
  rw [heq, hback others hothers] at hfound
  exact List.map_injective_iff.mpr (Option.some_injective _) hfound.symm

end Draft

namespace Block

/-- The sides of the rules of a nonterminal. -/
def sidesOf (name : String) (rules : List Rule) : List (String × List String) :=
  rules.map fun rule => (name, rule.right)

/-- The block has the given rules of a nonterminal, of which none were checked before, and is
numbered behind the different rules that have been checked. -/
structure Tallies (v : Vocabulary) (name : String) (earlier : List (String × List String))
    (rules : List Rule) (done : List (String × List String)) (b : Block) : Prop where
  done_eq : done = earlier ++ sidesOf name rules
  fresh : ∀ rule ∈ earlier, rule.1 ≠ name
  isMadeOf : b.IsMadeOf v rules
  next_eq : b.next = done.toFinset.card + 1
  card_le : done.toFinset.card ≤ 65535

variable {v : Vocabulary} {name : String} {earlier done : List (String × List String)}
  {rules : List Rule} {b : Block}

theorem card_toFinset_concat (xs : List (String × List String)) (x : String × List String) :
    (xs ++ [x]).toFinset.card = if x ∈ xs then xs.toFinset.card else xs.toFinset.card + 1 := by
  have hinsert : (xs ++ [x]).toFinset = insert x xs.toFinset := by ext; simp
  rw [hinsert, Finset.card_insert_eq_ite]
  simp only [List.mem_toFinset]

theorem Tallies.contains_iff (hb : b.Tallies v name earlier rules done) {rule : Rule}
    (hinj : ∀ known ∈ rules, rule.right.map v.resolve = known.right.map v.resolve →
      rule.right = known.right) :
    b.actions.contains (rule.right.map v.resolve) = true ↔ (name, rule.right) ∈ done := by
  rw [OrderedMap.contains_iff, hb.isMadeOf, hb.done_eq, List.mem_append]
  constructor
  · rintro ⟨known, hknown, heq⟩
    exact .inr (List.mem_map.mpr ⟨known, hknown, by rw [hinj known hknown heq]⟩)
  · rintro (hearlier | hsides)
    · exact absurd rfl (hb.fresh _ hearlier)
    · obtain ⟨known, hknown, heq⟩ := List.mem_map.mp hsides
      exact ⟨known, hknown, by rw [(Prod.mk.inj heq).2]⟩

/-- A block has one more number when it has one more right-hand side. -/
theorem next_insert {right : List Symbol} (hfresh : ¬ b.actions.contains right = true)
    (action : String) : next { b with actions := b.actions.insert right action } = b.next + 1 := by
  have hkey := OrderedMap.contains_iff.not.mp hfresh
  have hlength := congrArg List.length (OrderedMap.toList_insert_of_not_mem hkey action)
  rw [List.length_append, length_toList_actions, List.length_singleton] at hlength
  have hsize :
      (b.actions.insert right action).toList.length = (b.actions.insert right action).size :=
    length_toList_actions { b with actions := b.actions.insert right action }
  simp only [next]
  omega

/-- A block and the list of all rules so far make the same of one more rule. -/
theorem Tallies.addRule (hb : b.Tallies v name earlier rules done) {rule : Rule}
    (hinj : ∀ known ∈ rules, rule.right.map v.resolve = known.right.map v.resolve →
      rule.right = known.right) :
    Alike (fun b done => b.Tallies v name earlier (rules ++ [rule]) done)
      (b.addRule v name rule) (checkRule done (name, rule.right)) := by
  have hdone : done ++ [(name, rule.right)] = earlier ++ sidesOf name (rules ++ [rule]) := by
    simp [hb.done_eq, sidesOf]
  have hcard := card_toFinset_concat done (name, rule.right)
  have htallies {next : Block} (hnext : b.addRule v name rule = .ok next)
      (hnumber : next.next = (done ++ [(name, rule.right)]).toFinset.card + 1)
      (hle : (done ++ [(name, rule.right)]).toFinset.card ≤ 65535) :
      next.Tallies v name earlier (rules ++ [rule]) (done ++ [(name, rule.right)]) :=
    ⟨hdone, hb.fresh, (hb.isMadeOf.addRule hnext).2, hnumber, hle⟩
  by_cases hlong : 65535 < rule.right.length
  · have hrefused : b.addRule v name rule = .error (.tooManySymbols name rule.right.length) :=
      if_pos hlong
    rw [hrefused, checkRule, if_pos hlong]
    exact .error _
  rw [checkRule, if_neg hlong]
  have hadd : b.addRule v name rule = if b.actions.contains (rule.right.map v.resolve) then .ok b
      else if b.next > sizeLimit then .error .tooManyProductions
      else .ok { b with actions := b.actions.insert (rule.right.map v.resolve) rule.action } :=
    if_neg hlong
  by_cases hknown : (name, rule.right) ∈ done
  · -- a rule that is known counts neither here nor there
    rw [if_pos ((hb.contains_iff hinj).mpr hknown)] at hadd
    rw [if_pos hknown] at hcard
    rw [if_neg (by rw [hcard]; exact Nat.not_lt.mpr hb.card_le), hadd]
    exact .ok (htallies hadd (by rw [hcard, hb.next_eq]) (by rw [hcard]; exact hb.card_le))
  · -- a new one takes the next number, unless that is one too many
    have hfresh := (hb.contains_iff hinj).not.mpr hknown
    rw [if_neg hfresh, hb.next_eq] at hadd
    rw [if_neg hknown] at hcard
    by_cases hmany : 65535 < done.toFinset.card + 1
    · have hrefused : b.addRule v name rule = .error .tooManyProductions :=
        hadd.trans (if_pos hmany)
      rw [hrefused, if_pos (by rw [hcard]; exact hmany)]
      exact .error _
    · have haccepted := hadd.trans (if_neg hmany)
      have hle : (done ++ [(name, rule.right)]).toFinset.card ≤ 65535 := by
        rw [hcard]
        exact Nat.not_lt.mp hmany
      rw [haccepted, if_neg (Nat.not_lt.mpr hle)]
      exact .ok (htallies haccepted (by rw [next_insert hfresh, hb.next_eq, hcard]) hle)

/-- A block and the list of all rules so far make the same of the rules of a nonterminal. -/
theorem Tallies.foldlM_addRule {more : List Rule} (hb : b.Tallies v name earlier rules done)
    (hinj : ∀ rule ∈ rules ++ more, ∀ known ∈ rules ++ more,
      rule.right.map v.resolve = known.right.map v.resolve → rule.right = known.right) :
    Alike (fun b done => b.Tallies v name earlier (rules ++ more) done)
      (more.foldlM (Block.addRule v name) b) ((sidesOf name more).foldlM checkRule done) := by
  induction more generalizing rules done b with
  | nil =>
    rw [List.append_nil]
    exact .ok hb
  | cons rule more ih =>
    have hsame : ∀ known ∈ rules, rule.right.map v.resolve = known.right.map v.resolve →
        rule.right = known.right := fun known hknown =>
      hinj rule (by simp) known (List.mem_append_left _ hknown)
    have hstep := hb.addRule hsame
    rw [sidesOf, List.map_cons, List.foldlM_cons, List.foldlM_cons]
    refine hstep.bind fun next done hnext => ?_
    rw [List.append_cons] at hinj ⊢
    exact ih hnext hinj

/-- The sides of the rules of some nonterminals, in order. -/
def sidesOfEntries (entries : List (String × Array Rule)) : List (String × List String) :=
  entries.flatMap fun entry => sidesOf entry.1 entry.2.toList

/-- Blocks are refused as the list of all rules is. -/
theorem alike_foldlM_append {entries : List (String × Array Rule)} {blocks : Array Block}
    (hnodup : (entries.map Prod.fst).Nodup)
    (hfresh : ∀ rule ∈ done, rule.1 ∉ entries.map Prod.fst)
    (hinj : ∀ entry ∈ entries, ∀ rule ∈ entry.2.toList, ∀ known ∈ entry.2.toList,
      rule.right.map v.resolve = known.right.map v.resolve → rule.right = known.right)
    (hnext : (blocks.back?.map next).getD 1 = done.toFinset.card + 1)
    (hcard : done.toFinset.card ≤ 65535) :
    Alike (fun _ _ => True) (entries.foldlM (append v) blocks)
      ((sidesOfEntries entries).foldlM checkRule done) := by
  -- on the nonterminals that are left, none of which has had a rule checked
  induction entries generalizing blocks done with
  | nil => exact .ok trivial
  | cons entry entries ih =>
    rw [List.map_cons, List.nodup_cons] at hnodup
    have hfirst : Tallies v entry.1 done [] done ⟨(blocks.back?.map next).getD 1, ∅⟩ := {
      done_eq := (List.append_nil done).symm
      fresh rule hrule heq := hfresh rule hrule (heq ▸ List.mem_cons_self)
      isMadeOf right := by simp
      next_eq := hnext
      card_le := hcard }
    have hblock := hfirst.foldlM_addRule (hinj entry List.mem_cons_self)
    rw [sidesOfEntries, List.flatMap_cons, List.foldlM_append, List.foldlM_cons, append, bind_assoc]
    refine hblock.bind fun b done' hb => ?_
    refine ih hnodup.2 ?_ (fun other hother => hinj other (.tail _ hother)) ?_ hb.card_le
    · intro rule hrule hkey
      rw [hb.done_eq] at hrule
      rcases List.mem_append.mp hrule with hearlier | hsides
      · exact hfresh rule hearlier (.tail _ hkey)
      · obtain ⟨_, -, rfl⟩ := List.mem_map.mp hsides
        exact hnodup.1 hkey
    · simpa using hb.next_eq

end Block

namespace Draft

variable {d : Draft} {v : Vocabulary} (hv : d.vocabulary = .ok v)

include hv

theorem alike_blocks : Alike (fun _ _ => True) (d.rules.toList.foldlM (Block.append v) #[])
    ((Block.sidesOfEntries d.rules.toList).foldlM checkRule []) := by
  refine Block.alike_foldlM_append d.rules.nodup_keys (by simp) ?_ rfl (by simp)
  intro entry hentry rule hrule known hknown
  exact eq_of_map_resolve hv (fun _ => mem_mentioned hentry hrule) fun _ =>
    mem_mentioned hentry hknown

theorem exists_blocks_of_rulesFit (hrules : RulesFit (Block.sidesOfEntries d.rules.toList)) :
    ∃ blocks, d.rules.toList.foldlM (Block.append v) #[] = .ok blocks := by
  have halike := alike_blocks hv
  rw [hrules.foldlM_checkRule] at halike
  generalize d.rules.toList.foldlM (Block.append v) #[] = result at halike
  cases halike with
  | ok _ => exact ⟨_, rfl⟩

theorem blocks_eq_error {e : GrammarError}
    (he : FirstRuleProblem (Block.sidesOfEntries d.rules.toList) e) :
    d.rules.toList.foldlM (Block.append v) #[] = .error e := by
  have halike := alike_blocks hv
  rw [he.foldlM_checkRule] at halike
  generalize d.rules.toList.foldlM (Block.append v) #[] = result at halike
  cases halike with
  | error => rfl

end Draft

end ShiftReduce
