import ShiftReduce.Proofs.Analysis.Follow
import ShiftReduce.Proofs.Parsing.Walk

/-!
# Accepted inputs are derived

The symbols of the walk with the input behind them are a form that derives the whole input by the
reductions made so far, the latest first. When the driver accepts, that form is the start symbol.
-/

namespace ShiftReduce

variable {g : Grammar}

/-- The last nonterminal of a form gives way to a right-hand side. -/
inductive RightmostStep (g : Grammar) (p : ProductionId) : List Symbol → List Symbol → Prop
  | replace (before : List Symbol) (after : List TerminalId) (hp : p ∈ g.productionIds) :
      RightmostStep g p (before ++ .nonterminal (g.production p).left :: after.map .terminal)
        (before ++ (g.production p).right.toList ++ after.map .terminal)

/-- Rightmost steps by some productions, the first one first. -/
inductive RightmostDerivation (g : Grammar) : List ProductionId → List Symbol → List Symbol → Prop
  | refl (form : List Symbol) : RightmostDerivation g [] form form
  | step {p : ProductionId} {ps : List ProductionId} {form next last : List Symbol}
      (hstep : RightmostStep g p form next) (hrest : RightmostDerivation g ps next last) :
      RightmostDerivation g (p :: ps) form last

/-- What a configuration has made of the input. -/
structure Parsed (g : Grammar) (input : List TerminalId) (symbols : List Symbol)
    (c : Configuration) : Prop where
  walk : Walk g.automaton symbols c.stack
  derivation : RightmostDerivation g c.reduced (symbols ++ c.input.map .terminal)
    (input.map .terminal)
  suffix : c.input <:+ input

namespace Parsed

variable {input : List TerminalId} {symbols : List Symbol} {c next : Configuration}

theorem start (input : List TerminalId) : Parsed g input [] (.start input) where
  walk := .nil
  derivation := .refl _
  suffix := List.suffix_rfl

/-- The end of input is not read, so whatever is read is part of the input. -/
theorem drive (hg : g.WellFormed) (hfree : g.ReservedFree) (hparsed : Parsed g input symbols c)
    (hnext : ShiftReduce.drive g g.compile.table c = .running next) :
    ∃ symbols, Parsed g input symbols next := by
  obtain ⟨hwalk, hderivation, hsuffix⟩ := hparsed
  rcases hwalk.of_drive hg hnext with ⟨hmentions, hgoes, hinput, hreduced⟩ |
    ⟨p, hp, before, rfl, hgoes, hinput, hreduced⟩
  -- reading moves a terminal from the input to the symbols and leaves the form as it is
  · refine ⟨_, hgoes, ?_, hinput ▸ (List.tail_suffix c.input).trans hsuffix⟩
    cases hread : c.input with
    | nil =>
      rw [Configuration.lookahead, hread] at hmentions
      exact absurd hmentions hfree.endOfInput_not_mentioned
    | cons t rest =>
      rw [hread] at hderivation
      rw [hinput, hreduced, Configuration.lookahead, hread, List.append_assoc]
      exact hderivation
  -- reducing undoes a rightmost step, since only terminals stand behind the right-hand side
  · refine ⟨_, hgoes, ?_, hinput ▸ hsuffix⟩
    rw [hinput, hreduced, List.append_assoc]
    exact .step (.replace before c.input hp) hderivation

end Parsed

/-- While no right-hand side mentions the goal, its production is begun at the very start only. -/
theorem Reaches.eq_nil_of_start_goal (hg : g.WellFormed)
    (hgoal : ¬ g.Mentions (.nonterminal .goal)) {symbols : List Symbol}
    (hstart : Reaches g symbols (.start .goal)) : symbols = [] := by
  generalize hitem : Item.start .goal = item at hstart
  cases hstart with
  | start => rfl
  | advance => exact absurd (congrArg Item.marker hitem) (Nat.succ_ne_zero _).symm
  | free hbefore hmove =>
    -- a free move to the goal's item would come from an item that expects the goal
    obtain ⟨p, -, hnext, rfl⟩ := hmove
    obtain rfl : .goal = p := congrArg Item.production hitem
    rw [hg.goal_production] at hnext
    exact absurd (Item.mentions_of_next? (hbefore.production_mem hg) hnext) hgoal

/-- The goal is complete only behind the start symbol and before the end of input. -/
theorem Parsed.eq_start_of_accept (hg : g.WellFormed) (hfree : g.ReservedFree)
    {input : List TerminalId} {symbols : List Symbol} {c : Configuration}
    (hparsed : Parsed g input symbols c)
    (haccept : g.compile.table.action? c.top (.terminal c.lookahead) = some .accept) :
    symbols = [.nonterminal g.start] ∧ c.lookahead = .endOfInput := by
  obtain ⟨t, item, ht, hready, hproduction⟩ := ParseTable.exists_ready_of_accept haccept
  have hreached := ((hparsed.walk.holdsReached hg).2 item).mp hready.mem_items
  obtain ⟨before, rfl, hbegun⟩ := hreached.exists_before_right hready.complete
  have hfollow := hready.mem_follow
  rw [hproduction] at hbegun
  rw [hproduction, hg.goal_production] at hfollow
  constructor
  · rw [hbegun.eq_nil_of_start_goal hg hfree.goal_not_mentioned, Item.right, hproduction,
      hg.goal_production]
    rfl
  · rw [Symbol.terminal.inj ht]
    exact Grammar.eq_endOfInput_of_mem_followsWith hfree.goal_not_mentioned hfollow

/-- Reductions of an accepted input are a rightmost derivation of it from the start symbol, in
reverse. -/
theorem rightmostDerivation_of_accepts {declarations : List Declaration}
    (hg : Grammar.ofDeclarations declarations = .ok g) (hfree : g.ReservedFree)
    {input : List TerminalId} (hinput : ∀ t ∈ input, t ≠ .endOfInput)
    {reductions : List ProductionId} (haccepts : Accepts g g.compile.table input reductions) :
    RightmostDerivation g reductions.reverse [.nonterminal g.start] (input.map .terminal) := by
  have hwf := Grammar.wellFormed_of_ofDeclarations hg
  obtain ⟨c, hdrives, haccepted, rfl⟩ := haccepts
  have hparsed : ∃ symbols, Parsed g input symbols c := by
    apply hdrives.invariant
    · exact ⟨[], .start input⟩
    · rintro c next ⟨symbols, hparsed⟩ hnext
      exact hparsed.drive hwf hfree hnext
  obtain ⟨symbols, hparsed⟩ := hparsed
  obtain ⟨rfl, hend⟩ := hparsed.eq_start_of_accept hwf hfree (action?_of_drive_accepted haccepted)
  have hderivation := hparsed.derivation
  cases hread : c.input with
  | nil =>
    rw [hread] at hderivation
    rwa [List.reverse_reverse]
  | cons t rest =>
    -- the end of input comes next, but no terminal of the input is it
    rw [Configuration.lookahead, hread] at hend
    exact absurd hend (hinput t (hparsed.suffix.subset (hread ▸ List.mem_cons_self)))

/-- A pair of brackets is accepted after its two empty words have been reduced. -/
theorem accepts_brackets :
    Accepts brackets brackets.compile.table [⟨1⟩, ⟨2⟩] [⟨2⟩, ⟨2⟩, ⟨1⟩] := by
  refine ⟨⟨[1, 0], [], [⟨1⟩, ⟨2⟩, ⟨2⟩]⟩, ?_, by decide +kernel, rfl⟩
  exact drives_brackets.tail (by decide +kernel)

theorem reservedFree_brackets : brackets.ReservedFree :=
  ⟨by decide +kernel, by decide +kernel⟩

theorem brackets_rightmostDerivation :
    RightmostDerivation brackets [⟨1⟩, ⟨2⟩, ⟨2⟩] [.nonterminal brackets.start]
      [.terminal ⟨1⟩, .terminal ⟨2⟩] :=
  rightmostDerivation_of_accepts ofDeclarations_brackets reservedFree_brackets (by decide)
    accepts_brackets

end ShiftReduce
