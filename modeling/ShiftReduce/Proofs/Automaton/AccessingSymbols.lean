import ShiftReduce.Proofs.Automaton.Determinization

/-!
# Accessing symbols

All transitions into a state pass the same symbol, which stands before the marker in all items of
the state that are under way. The other items are begun in the state: they belong to nonterminals
over which the state is left, but for the goal's start item in state 0.
-/

namespace ShiftReduce

variable {g : Grammar}

/-- The symbol right before the marker. -/
def Item.previous? (g : Grammar) (item : Item) : Option Symbol :=
  match item.marker with
  | 0 => none
  | marker + 1 => (item.right g)[marker]?

@[simp] theorem Item.previous?_advance (item : Item) :
    item.advance.previous? g = item.next? g := rfl

namespace Reaches

/-- Free moves lead to start items, so the marker can only be moved by passing a symbol. -/
theorem marker_eq_zero {item : Item} (hitem : Reaches g [] item) : item.marker = 0 := by
  cases Reaches.nil_iff.mp hitem with
  | refl => rfl
  | tail _ hmove =>
    obtain ⟨p, -, -, rfl⟩ := hmove
    rfl

/-- An item that is under way has just passed the last symbol. -/
theorem previous?_eq {symbols : List Symbol} {x : Symbol} {item : Item}
    (hitem : Reaches g (symbols ++ [x]) item) (hmarker : item.marker ≠ 0) :
    item.previous? g = some x := by
  obtain ⟨passed, -, hnext, hmoves⟩ := Reaches.concat_iff.mp hitem
  cases hmoves with
  | refl => rwa [Item.previous?_advance]
  | tail _ hmove =>
    obtain ⟨p, -, -, rfl⟩ := hmove
    exact absurd rfl hmarker

/-- Some item is under way behind every symbol. -/
theorem exists_under_way {symbols : List Symbol} {x : Symbol} {item : Item}
    (hitem : Reaches g (symbols ++ [x]) item) :
    ∃ other, Reaches g (symbols ++ [x]) other ∧ other.marker ≠ 0 := by
  obtain ⟨passed, hpassed, hnext, -⟩ := Reaches.concat_iff.mp hitem
  exact ⟨passed.advance, hpassed.advance hnext, Nat.succ_ne_zero _⟩

/-- Whatever is begun is the goal at the very start, or it is expected. -/
theorem start_cases {symbols : List Symbol} {item : Item} (hitem : Reaches g symbols item)
    (hmarker : item.marker = 0) :
    (symbols = [] ∧ item = .start .goal) ∨
      ∃ other, Reaches g symbols other ∧
        other.next? g = some (.nonterminal (g.production item.production).left) := by
  cases hitem with
  | start => exact .inl ⟨rfl, rfl⟩
  | advance => exact absurd hmarker (Nat.succ_ne_zero _)
  | free hbefore hmove =>
    obtain ⟨p, -, hnext, rfl⟩ := hmove
    exact .inr ⟨_, hbefore, hnext⟩

end Reaches

namespace Automaton

variable (hg : g.WellFormed) {q r : StateId}

include hg

/-- The target of a transition has items under way, and these have all passed its symbol. -/
theorem under_way_of_transition (hq : q < g.automaton.states.size) {x : Symbol}
    (hr : (x, r) ∈ (g.automaton.state q).transitions.toList) :
    (∃ item ∈ (g.automaton.state r).items, item.marker ≠ 0) ∧
      ∀ item ∈ (g.automaton.state r).items, item.marker ≠ 0 → item.previous? g = some x := by
  obtain ⟨symbols, hbefore⟩ := (isReachedSet_items hg hq).holds
  obtain ⟨-, hlt, hitems⟩ := (mem_transitions_iff hg hq).mp hr
  have hholds : HoldsReached g (symbols ++ [x]) (g.automaton.state r).items :=
    hitems ▸ hbefore.goto hg x
  obtain ⟨item, hitem⟩ := List.exists_mem_of_ne_nil _ (isReachedSet_items hg hlt).ne_nil
  obtain ⟨moved, hmoved, hmarker⟩ := ((hholds item).mp hitem).exists_under_way
  refine ⟨⟨moved, (hholds moved).mpr hmoved, hmarker⟩, fun other hother hunderWay => ?_⟩
  exact ((hholds other).mp hother).previous?_eq hunderWay

/-- Into every state but the first there is a transition. -/
theorem exists_transition_into (hr : r < g.automaton.states.size) (hne : r ≠ 0) :
    ∃ q < g.automaton.states.size, ∃ x, (x, r) ∈ (g.automaton.state q).transitions.toList := by
  obtain ⟨symbols, hrun⟩ := exists_run? hg hr
  cases symbols using List.reverseRecOn with
  | nil => exact absurd (Option.some.inj hrun).symm hne
  | append_singleton symbols x _ =>
    rw [run?_concat, Option.bind_eq_some_iff] at hrun
    obtain ⟨q, hq, htarget⟩ := hrun
    have hlt := (holdsReached_of_run? hg hq).1
    exact ⟨q, hlt, x, OrderedMap.get?_eq_some_iff.mp htarget⟩

end Automaton

/-- The state is entered by passing one symbol only, which is told by its items. -/
structure IsAccessedOver (g : Grammar) (a : Automaton) (q : StateId) (x : Symbol) : Prop where
  exists_transition : ∃ p < a.states.size, (x, q) ∈ (a.state p).transitions.toList
  symbol_eq : ∀ p < a.states.size, ∀ y, (y, q) ∈ (a.state p).transitions.toList → y = x
  previous?_eq : ∀ item ∈ (a.state q).items, item.marker ≠ 0 → item.previous? g = some x
  exists_under_way : ∃ item ∈ (a.state q).items, item.marker ≠ 0

/-- How the states of an automaton are entered and what is begun in them. -/
structure HasAccessingSymbols (g : Grammar) (a : Automaton) : Prop where
  exists_accessing : ∀ q < a.states.size, q ≠ 0 → ∃ x, IsAccessedOver g a q x
  initial_not_entered : ∀ p < a.states.size, ∀ x, (x, 0) ∉ (a.state p).transitions.toList
  /-- The goal's start item is begun in state 0. What else is begun has a transition. -/
  begun : ∀ q < a.states.size, ∀ item ∈ (a.state q).items, item.marker = 0 →
    (q = 0 ∧ item = .start .goal) ∨
      ∃ r, (.nonterminal (g.production item.production).left, r) ∈
        (a.state q).transitions.toList

theorem hasAccessingSymbols {declarations : List Declaration}
    (hg : Grammar.ofDeclarations declarations = .ok g) : HasAccessingSymbols g g.automaton := by
  have hwf := Grammar.wellFormed_of_ofDeclarations hg
  constructor
  case exists_accessing =>
    intro q hq hne
    obtain ⟨p, hp, x, hx⟩ := Automaton.exists_transition_into hwf hq hne
    obtain ⟨⟨moved, hmoved, hmarker⟩, hprevious⟩ := Automaton.under_way_of_transition hwf hp hx
    refine ⟨x, ⟨p, hp, hx⟩, ?_, hprevious, moved, hmoved, hmarker⟩
    -- whatever other symbol leads here has been passed by the same item
    intro p' hp' y hy
    have hsame := (Automaton.under_way_of_transition hwf hp' hy).2 moved hmoved hmarker
    rw [hprevious moved hmoved hmarker] at hsame
    exact (Option.some.inj hsame).symm
  case initial_not_entered =>
    intro p hp x hx
    obtain ⟨⟨moved, hmoved, hmarker⟩, -⟩ := Automaton.under_way_of_transition hwf hp hx
    rw [(Automaton.initial_state hwf).2] at hmoved
    exact hmarker ((HoldsReached.initial hwf moved).mp hmoved).marker_eq_zero
  case begun =>
    intro q hq item hitem hmarker
    obtain ⟨symbols, hrun⟩ := Automaton.exists_run? hwf hq
    obtain ⟨-, hholds⟩ := Automaton.holdsReached_of_run? hwf hrun
    rcases ((hholds item).mp hitem).start_cases hmarker with ⟨rfl, rfl⟩ | ⟨other, hother, hnext⟩
    · exact .inl ⟨(Option.some.inj hrun).symm, rfl⟩
    · obtain ⟨r, hr⟩ := (Automaton.exists_target_iff hwf hq).mpr
        ⟨other, (hholds other).mpr hother, hnext⟩
      exact .inr ⟨r, OrderedMap.get?_eq_some_iff.mp hr⟩

/-- The goal is begun again behind `(`, in a state that other symbols leave as well. -/
def nestedDeclarations : List Declaration :=
  [.rule "S" ["(", "_parserInternalStart", ")"] "", .rule "S" ["E"] "",
    .rule "E" ["E", "+", "x"] "", .rule "E" ["x"] "", .resultType "S" "int", .start "S"]

def nested : Grammar :=
  (Grammar.ofDeclarations nestedDeclarations).toOption.getD default

theorem nested_hasAccessingSymbols :
    Grammar.ofDeclarations nestedDeclarations = .ok nested ∧
      HasAccessingSymbols nested nested.automaton ∧
      ∃ q < nested.automaton.states.size, q ≠ 0 ∧
        Item.start .goal ∈ (nested.automaton.state q).items := by
  have hg : Grammar.ofDeclarations nestedDeclarations = .ok nested :=
    eq_ok_getD_of_isOk (by decide +kernel)
  have hagain : ∃ q < nested.automaton.states.size, q ≠ 0 ∧
      Item.start .goal ∈ (nested.automaton.state q).items := by decide +kernel
  exact ⟨hg, hasAccessingSymbols hg, hagain⟩

end ShiftReduce
