import ShiftReduce.Proofs.Parsing.Driver
import ShiftReduce.Proofs.Table.Entry

/-!
# The stack is a walk

The states on the stack are those that some string of symbols leads through. A reduction is entered
for a complete item on top only; the string ends with its right-hand side, so the states of that can
be popped, and the state below expects the left-hand side.
-/

namespace ShiftReduce

variable {g : Grammar}

/-- The stack holds the states that the symbols lead through, the last one on top. -/
inductive Walk (a : Automaton) : List Symbol → List StateId → Prop
  | nil : Walk a [] [0]
  | concat {symbols : List Symbol} {q target : StateId} {rest : List StateId} {x : Symbol}
      (hwalk : Walk a symbols (q :: rest)) (htarget : (a.state q).target? x = some target) :
      Walk a (symbols ++ [x]) (target :: q :: rest)

namespace Walk

variable {a : Automaton} {symbols : List Symbol} {stack : List StateId}

theorem run?_eq (hwalk : Walk a symbols stack) : a.run? symbols = some (stack.headD 0) := by
  induction hwalk with
  | nil => rfl
  | concat _ htarget ih =>
    rw [Automaton.run?_concat, ih]
    exact htarget

theorem exists_cons (hwalk : Walk a symbols stack) : ∃ q rest, stack = q :: rest := by
  cases hwalk with
  | nil => exact ⟨_, _, rfl⟩
  | concat => exact ⟨_, _, rfl⟩

/-- Popping a state takes the last symbol back. -/
theorem of_concat {x : Symbol} (hwalk : Walk a (symbols ++ [x]) stack) :
    ∃ target rest, stack = target :: rest ∧ Walk a symbols rest := by
  generalize hall : symbols ++ [x] = all at hwalk
  cases hwalk with
  | nil => simp at hall
  | concat hwalk _ =>
    obtain ⟨rfl, -⟩ := List.append_inj' hall rfl
    exact ⟨_, _, rfl, hwalk⟩

theorem drop {before after : List Symbol} (hwalk : Walk a (before ++ after) stack) :
    Walk a before (stack.drop after.length) := by
  induction after using List.reverseRecOn generalizing stack with
  | nil => simpa using hwalk
  | append_singleton after x ih =>
    rw [← List.append_assoc] at hwalk
    obtain ⟨target, rest, rfl, hrest⟩ := hwalk.of_concat
    rw [List.length_append, List.length_singleton, List.drop_succ_cons]
    exact ih hrest

variable (hg : g.WellFormed)

include hg

/-- The items on top are those that the symbols lead to. -/
theorem holdsReached (hwalk : Walk g.automaton symbols stack) :
    stack.headD 0 < g.automaton.states.size ∧
      HoldsReached g symbols (g.automaton.state (stack.headD 0)).items :=
  Automaton.holdsReached_of_run? hg hwalk.run?_eq

/-- Where the symbols lead to an item that goes on with another one, the walk can go on. -/
theorem exists_concat (hwalk : Walk g.automaton symbols stack) {item : Item} {x : Symbol}
    (hitem : Reaches g symbols item) (hnext : item.next? g = some x) :
    ∃ target, (g.automaton.state (stack.headD 0)).target? x = some target ∧
      Walk g.automaton (symbols ++ [x]) (target :: stack) := by
  obtain ⟨hlt, hholds⟩ := hwalk.holdsReached hg
  obtain ⟨target, htarget⟩ :=
    (Automaton.exists_target_iff hg hlt).mpr ⟨item, (hholds item).mpr hitem, hnext⟩
  obtain ⟨q, rest, rfl⟩ := hwalk.exists_cons
  exact ⟨target, htarget, hwalk.concat htarget⟩

/-- A reduction finds its right-hand side on top of a state that expects the left-hand side. -/
theorem before_right (hwalk : Walk g.automaton symbols stack) {x : Symbol} {p : ProductionId}
    (hreduce : g.compile.table.action? (stack.headD 0) x = some (.reduce p)) :
    p ∈ g.productionIds ∧ ∃ before expecting, symbols = before ++ (g.production p).right.toList ∧
      Walk g.automaton before (stack.drop (g.production p).right.size) ∧
      Reaches g before expecting ∧
      expecting.next? g = some (.nonterminal (g.production p).left) := by
  obtain ⟨hgoal, t, item, -, hready, rfl⟩ := ParseTable.exists_ready_of_reduce hreduce
  -- back from the complete item to where it was begun, and from there to the item that expects it
  have hreached := ((hwalk.holdsReached hg).2 item).mp hready.mem_items
  obtain ⟨before, rfl, hbegun⟩ := hreached.exists_before_right hready.complete
  obtain ⟨expecting, hexpecting, hnext⟩ := hbegun.exists_expecting hgoal
  refine ⟨hreached.production_mem hg, before, expecting, rfl, ?_, hexpecting, hnext⟩
  rw [← Array.length_toList]
  exact hwalk.drop

/-- A step goes on by the terminal that was read, or by a left-hand side instead of the right. -/
theorem of_drive {c next : Configuration} (hwalk : Walk g.automaton symbols c.stack)
    (hnext : drive g g.compile.table c = .running next) :
    (g.Mentions (.terminal c.lookahead) ∧
      Walk g.automaton (symbols ++ [.terminal c.lookahead]) next.stack ∧
      next.input = c.input.tail ∧ next.reduced = c.reduced) ∨
    ∃ p ∈ g.productionIds, ∃ before, symbols = before ++ (g.production p).right.toList ∧
      Walk g.automaton (before ++ [.nonterminal (g.production p).left]) next.stack ∧
      next.input = c.input ∧ next.reduced = p :: c.reduced := by
  rcases drive_cases hnext with ⟨target, hshift, rfl⟩ |
    ⟨p, q, rest, target, hreduce, hexposed, hshift, rfl⟩
  · left
    have htarget := ParseTable.target?_of_shift hshift
    obtain ⟨hlt, hholds⟩ := hwalk.holdsReached hg
    obtain ⟨item, hitem, hnext⟩ := (Automaton.exists_target_iff hg hlt).mp ⟨target, htarget⟩
    refine ⟨Item.mentions_of_next? (hholds.hasItems hg item hitem) hnext, ?_, rfl, rfl⟩
    obtain ⟨other, hother, hgoes⟩ := hwalk.exists_concat hg ((hholds item).mp hitem) hnext
    rwa [Option.some.inj (hother.symm.trans htarget)] at hgoes
  · right
    obtain ⟨hp, before, -, rfl, hpopped, -⟩ := hwalk.before_right hg hreduce
    rw [hexposed] at hpopped
    exact ⟨p, hp, before, rfl, hpopped.concat (ParseTable.target?_of_shift hshift), rfl, rfl⟩

end Walk

/-- A walk is kept up by every step. -/
theorem Drives.exists_walk (hg : g.WellFormed) {input : List TerminalId} {c : Configuration}
    (hdrives : Drives g g.compile.table (.start input) c) :
    ∃ symbols, Walk g.automaton symbols c.stack := by
  apply hdrives.invariant
  · exact ⟨[], .nil⟩
  · rintro c next ⟨symbols, hwalk⟩ hnext
    rcases hwalk.of_drive hg hnext with ⟨-, hgoes, -⟩ | ⟨p, -, before, -, hgoes, -⟩
    · exact ⟨_, hgoes⟩
    · exact ⟨_, hgoes⟩

/-- A reduction always finds its states, and below them a shift over its left-hand side. -/
theorem reduction_not_stuck {declarations : List Declaration}
    (hg : Grammar.ofDeclarations declarations = .ok g) {input : List TerminalId} {c : Configuration}
    (hdrives : Drives g g.compile.table (.start input) c) {p : ProductionId}
    (hreduce : g.compile.table.action? c.top (.terminal c.lookahead) = some (.reduce p)) :
    (g.production p).right.size < c.stack.length ∧
      ∃ q rest target, c.stack.drop (g.production p).right.size = q :: rest ∧
        g.compile.table.action? q (.nonterminal (g.production p).left) = some (.shift target) ∧
        (g.automaton.state q).target? (.nonterminal (g.production p).left) = some target := by
  have hwf := Grammar.wellFormed_of_ofDeclarations hg
  obtain ⟨symbols, hwalk⟩ := hdrives.exists_walk hwf
  obtain ⟨-, before, expecting, -, hpopped, hexpecting, hnext⟩ := hwalk.before_right hwf hreduce
  obtain ⟨q, rest, hexposed⟩ := hpopped.exists_cons
  rw [hexposed] at hpopped
  obtain ⟨target, htarget, -⟩ := hpopped.exists_concat hwf hexpecting hnext
  have hq := (hpopped.holdsReached hwf).1
  refine ⟨?_, q, rest, target, hexposed, ParseTable.action?_nonterminal hwf hq htarget, htarget⟩
  by_contra hshort
  rw [List.drop_of_length_le (Nat.not_lt.mp hshort)] at hexposed
  cases hexposed

/-- Before a pair of brackets is reduced as a whole, its empty words have been. -/
theorem drives_brackets : Drives brackets brackets.compile.table (.start [⟨1⟩, ⟨2⟩])
    ⟨[5, 4, 3, 2, 0], [], [⟨2⟩, ⟨2⟩]⟩ := by
  apply Drives.step ⟨[2, 0], [⟨2⟩], []⟩ (by decide +kernel)
  apply Drives.step ⟨[3, 2, 0], [⟨2⟩], [⟨2⟩]⟩ (by decide +kernel)
  apply Drives.step ⟨[4, 3, 2, 0], [], [⟨2⟩]⟩ (by decide +kernel)
  exact .single (by decide +kernel)

theorem brackets_reduction_not_stuck :
    (brackets.production ⟨1⟩).right.size < 5 ∧
      ∃ q rest target, [5, 4, 3, 2, 0].drop (brackets.production ⟨1⟩).right.size = q :: rest ∧
        brackets.compile.table.action? q (.nonterminal (brackets.production ⟨1⟩).left) =
          some (.shift target) ∧
        (brackets.automaton.state q).target? (.nonterminal (brackets.production ⟨1⟩).left) =
          some target :=
  reduction_not_stuck ofDeclarations_brackets drives_brackets (by decide +kernel)

end ShiftReduce
