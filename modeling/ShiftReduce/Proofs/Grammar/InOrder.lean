import ShiftReduce.Proofs.Collection.FirstOccurrence
import ShiftReduce.Proofs.Grammar.Declared

/-!
# Declarations in order

What a list of declarations says when its order counts: nonterminals by first declaration, the rules
of each in turn, and the last word on types and on the start symbol. Drafts keep exactly that, and
blocks keep of the rules those with a new right-hand side.
-/

namespace ShiftReduce

namespace Declaration

/-- The rule that is declared for a nonterminal. -/
def ruleOf? (left : String) : Declaration → Option Rule
  | rule other right action => if left = other then some ⟨right, action⟩ else none
  | _ => none

/-- The type that is declared for a nonterminal. -/
def typeOf? (name : String) : Declaration → Option String
  | resultType other type => if name = other then some type else none
  | _ => none

end Declaration

namespace Declarations

variable (declarations : List Declaration)

/-- The nonterminals in the order in which they are first declared. -/
def nonterminals : List String :=
  (declarations.filterMap Declaration.nonterminal?).eraseDups

/-- The rules of a nonterminal in the order in which they are declared. -/
def rulesOf (left : String) : List Rule :=
  declarations.filterMap (Declaration.ruleOf? left)

/-- The type that is declared last for a nonterminal. -/
def type? (name : String) : Option String :=
  declarations.reverse.findSome? (Declaration.typeOf? name)

/-- The start symbol that is declared last, or else the first nonterminal. -/
def start? : Option String :=
  (declarations.reverse.findSome? Declaration.start?).or (nonterminals declarations).head?

end Declarations

/-- The rules with a right-hand side that no earlier one has. -/
def distinctRules (rules : List Rule) : List Rule :=
  rules.eraseDupsBy fun rule known => rule.right == known.right

namespace Draft

theorem keys_alter (m : OrderedMap String (Array Rule)) (name : String)
    (change : Option (Array Rule) → Array Rule) :
    (m.alter name change).keys.toList =
      if name ∈ m.keys.toList then m.keys.toList else m.keys.toList ++ [name] := by
  rw [← OrderedMap.map_fst_toList, OrderedMap.toList_alter, keys_alterEntry,
    ← OrderedMap.map_fst_toList]

/-- A draft has what was declared, in order. -/
structure Lists (declarations : List Declaration) (d : Draft) : Prop where
  keys_eq : d.rules.keys.toList = Declarations.nonterminals declarations
  rulesOf_eq : ∀ name, d.rulesOf name = Declarations.rulesOf declarations name
  type_eq : ∀ name, d.resultTypes.get? name = Declarations.type? declarations name

section Add

variable (d : Draft) (declaration : Declaration)

theorem keys_add : (d.add declaration).rules.keys.toList =
    match declaration.nonterminal? with
    | some name => if name ∈ d.rules.keys.toList then d.rules.keys.toList
      else d.rules.keys.toList ++ [name]
    | none => d.rules.keys.toList := by
  cases declaration with
  | nonterminal | rule => exact keys_alter ..
  | _ => rfl

theorem rulesOf_add (name : String) :
    (d.add declaration).rulesOf name = d.rulesOf name ++ (declaration.ruleOf? name).toList := by
  cases declaration with
  | nonterminal other => simp [add, rulesOf_addNonterminal, Declaration.ruleOf?]
  | rule left right action =>
    simp only [add, rulesOf_addRule, Declaration.ruleOf?]
    split <;> simp
  | _ => simp [add, rulesOf, Declaration.ruleOf?]

theorem type_add (name : String) : (d.add declaration).resultTypes.get? name =
    (declaration.typeOf? name).or (d.resultTypes.get? name) := by
  cases declaration with
  | resultType other type =>
    simp only [add, OrderedMap.get?_insert, Declaration.typeOf?]
    split <;> rfl
  | _ => rfl

end Add

theorem lists_empty : Lists [] {} where
  keys_eq := rfl
  rulesOf_eq _ := by simp [rulesOf, OrderedMap.get?_eq_lookup, Declarations.rulesOf]
  type_eq _ := by simp [OrderedMap.get?_eq_lookup, Declarations.type?]

theorem Lists.declare {declarations : List Declaration} {d next : Draft}
    (hd : d.Lists declarations) {declaration : Declaration}
    (hnext : d.declare declaration = .ok next) : next.Lists (declarations ++ [declaration]) := by
  obtain rfl := eq_add_of_declare hnext
  exact {
    keys_eq := by
      rw [keys_add, hd.keys_eq, Declarations.nonterminals, Declarations.nonterminals,
        List.filterMap_append]
      cases hname : declaration.nonterminal? with
      | none => simp [hname]
      | some name =>
        simp only [List.filterMap_cons, hname, List.filterMap_nil, eraseDups_concat,
          List.mem_eraseDups]
    rulesOf_eq name := by
      rw [rulesOf_add, hd.rulesOf_eq, Declarations.rulesOf, Declarations.rulesOf,
        List.filterMap_append]
      cases hrule : declaration.ruleOf? name <;> simp [hrule]
    type_eq name := by
      rw [type_add, hd.type_eq, Declarations.type?, Declarations.type?, List.reverse_append]
      cases htype : declaration.typeOf? name <;> simp [htype] }

theorem lists_of_declareAll {declarations : List Declaration} {d : Draft}
    (hd : declareAll {} declarations = .ok d) : d.Lists declarations :=
  foldlM_invariant (P := Lists) (fun _ _ _ _ hkept hnext => hkept.declare hnext) lists_empty hd

end Draft

namespace Block

variable {v : Vocabulary} {name : String}

/-- The block has the resolved rules, but none with a right-hand side that an earlier one has. -/
def Holds (v : Vocabulary) (rules : List Rule) (b : Block) : Prop :=
  b.actions.toList = (rules.map fun rule => (rule.right.map v.resolve, rule.action)).eraseDupsBy
    fun x known => x.1 == known.1

theorem Holds.addRule {rules : List Rule} {rule : Rule} {b next : Block} (hb : b.Holds v rules)
    (hnext : b.addRule v name rule = .ok next) : next.Holds v (rules ++ [rule]) := by
  have hknown : (b.actions.toList.any fun known => rule.right.map v.resolve == known.1) = true ↔
      b.actions.contains (rule.right.map v.resolve) = true := by
    rw [OrderedMap.contains_iff, List.any_eq_true, List.mem_map]
    refine exists_congr fun known => and_congr_right fun _ => ?_
    rw [beq_iff_eq, eq_comm]
  rw [Holds, List.map_append, List.map_singleton, eraseDupsBy_concat, ← hb]
  simp only [Block.addRule] at hnext
  split at hnext
  next => cases hnext
  next =>
    split at hnext
    next hcontains =>
      obtain rfl := Except.ok.inj hnext
      rw [if_pos (hknown.mpr hcontains)]
    next hcontains =>
      split at hnext
      next => cases hnext
      next =>
        obtain rfl := Except.ok.inj hnext
        rw [if_neg (hknown.not.mpr hcontains)]
        exact OrderedMap.toList_insert_of_not_mem (OrderedMap.contains_iff.not.mp hcontains) _

theorem holds_of_foldlM {entries : List (String × Array Rule)} {blocks : Array Block}
    (hblocks : entries.foldlM (Block.append v) #[] = .ok blocks) :
    List.Forall₂ (fun entry b => Holds v entry.2.toList b) entries blocks.toList := by
  refine foldlM_invariant
    (P := fun entries (blocks : Array Block) =>
      List.Forall₂ (fun entry b => Holds v entry.2.toList b) entries blocks.toList)
    (fun before entry blocks next hkept hnext => ?_) .nil hblocks
  obtain ⟨b, hb, hpush⟩ := exists_of_bind_eq_ok hnext
  obtain rfl := Except.ok.inj hpush
  have hnone (first : Nat) : Holds v [] ⟨first, ∅⟩ := rfl
  have hholds : b.Holds v entry.2.toList :=
    foldlM_invariant (fun _ _ _ _ hkept hadd => hkept.addRule hadd) (hnone _) hb
  rw [Array.toList_push]
  exact List.rel_append hkept (.cons hholds .nil)

end Block

end ShiftReduce
