import ShiftReduce.Proofs.Artifact.Rows
import ShiftReduce.Proofs.Parsing.Driver

/-!
# The driver of an artifact

A parser that has the artifact and not the grammar knows its tokens by name, pops as many states as
an entry says and calls thunks by name. It makes the moves of the table's driver: a step of one is a
step of the other with names in place of numbers, and so is a run of any length.
-/

namespace ShiftReduce

/-- A parser with an artifact in the middle of its input. -/
structure NamedConfiguration where
  /-- The states, the one on top first. -/
  stack : List StateId
  /-- The names of the tokens that are left. -/
  input : List String
  /-- The names of the thunks called so far, the latest first. -/
  called : List String
deriving DecidableEq

namespace NamedConfiguration

def start (input : List String) : NamedConfiguration where
  stack := [0]
  input := input
  called := []

variable (c : NamedConfiguration)

def shift (target : StateId) : NamedConfiguration :=
  { c with stack := target :: c.stack, input := c.input.tail }

def reduce (thunk : String) (exposed : List StateId) (target : StateId) : NamedConfiguration :=
  { c with stack := target :: exposed, called := thunk :: c.called }

end NamedConfiguration

/-- What comes of one step of the driver. -/
inductive NamedOutcome where
  | running (c : NamedConfiguration)
  | accepted
  /-- The row has no entry for the token that comes next. -/
  | rejected
  /-- A reduction finds too few states or no shift over its nonterminal. -/
  | stuck
deriving DecidableEq

namespace Artifact

variable (a : Artifact)

/-- Pops as many states as the entry says and looks up the nonterminal in the one below. -/
def driveReduce (c : NamedConfiguration) (left : String) (arity : Nat) (thunk : String) :
    NamedOutcome :=
  match c.stack.drop arity with
  | [] => .stuck
  | q :: rest =>
    match (a.entry? q left false).map TableEntry.action with
    | some (.shift target) => .running (c.reduce thunk (q :: rest) target)
    | _ => .stuck

def drive (c : NamedConfiguration) : NamedOutcome :=
  match (a.entry? (c.stack.headD 0) (c.input.headD endOfInputName) true).map TableEntry.action with
  | some (.shift target) => .running (c.shift target)
  | some (.reduce left arity thunk) => a.driveReduce c left arity thunk
  | some .accept => .accepted
  | none => .rejected

/-- What comes of at most `n` steps of the driver. -/
def driveFor : Nat → NamedConfiguration → NamedOutcome
  | 0, c => .running c
  | n + 1, c =>
    match a.drive c with
    | .running next => driveFor n next
    | outcome => outcome

end Artifact

section Names

variable (g : Grammar)

/-- The same configuration with names in place of numbers. -/
def Configuration.named (c : Configuration) : NamedConfiguration where
  stack := c.stack
  input := c.input.map fun t => (g.terminal t).name
  called := c.reduced.map (g.plans g.automaton).thunkName

def Outcome.named : Outcome → NamedOutcome
  | .running c => .running (c.named g)
  | .accepted => .accepted
  | .rejected => .rejected
  | .stuck => .stuck

end Names

variable {g : Grammar} {declarations : List Declaration} (hg : g.Declared declarations)
  {c : Configuration}

section Step

include hg

theorem Artifact.action_entry? (q : StateId) {x : Symbol} (hx : g.HasSymbol x) :
    (g.compile.artifact.entry? q (g.symbolName x) x.isTerminal).map TableEntry.action =
      (g.compile.table.action? q x).map (entryAction g (g.plans g.automaton)) := by
  rw [Artifact.entry?_symbolName hg hx, Option.map_map]
  rfl

theorem Configuration.headD_named :
    (c.named g).input.headD endOfInputName = g.symbolName (.terminal c.lookahead) := by
  rw [Configuration.named, Configuration.lookahead]
  cases c.input with
  | nil => exact hg.name_endOfInput.symm
  | cons t rest => rfl

theorem Configuration.hasSymbol_lookahead (hc : ∀ t ∈ c.input, t ∈ g.terminalIds) :
    g.HasSymbol (.terminal c.lookahead) := by
  rw [Configuration.lookahead]
  cases hinput : c.input with
  | nil => exact hg.wellFormed.endOfInput_mem
  | cons t rest => exact hc t (hinput ▸ List.mem_cons_self)

theorem driveReduce_named {p : ProductionId} (hp : p ∈ g.productionIds) :
    g.compile.artifact.driveReduce (c.named g) (g.nonterminal (g.production p).left).name
        (g.production p).right.size ((g.plans g.automaton).thunkName p) =
      (driveReduce g g.compile.table c p).named g := by
  have hstack : (c.named g).stack = c.stack := rfl
  rw [Artifact.driveReduce, driveReduce, hstack]
  cases c.stack.drop (g.production p).right.size with
  | nil => rfl
  | cons q rest =>
    have hentry := Artifact.action_entry? hg q (x := .nonterminal (g.production p).left)
      (hg.wellFormed.left_mem p hp)
    simp only [Grammar.symbolName, Symbol.isTerminal] at hentry
    simp only [hentry]
    rcases g.compile.table.action? q (.nonterminal (g.production p).left) with
      _ | ⟨target | other | _⟩ <;> rfl

/-- A step with the artifact is the step with the table. -/
theorem drive_named (hc : ∀ t ∈ c.input, t ∈ g.terminalIds) :
    g.compile.artifact.drive (c.named g) = (drive g g.compile.table c).named g := by
  have hentry := Artifact.action_entry? hg c.top (Configuration.hasSymbol_lookahead hg hc)
  rw [← Configuration.headD_named hg] at hentry
  have htop : (c.named g).stack.headD 0 = c.top := rfl
  rw [Artifact.drive, drive, htop]
  simp only [Symbol.isTerminal] at hentry
  simp only [hentry]
  cases haction : g.compile.table.action? c.top (.terminal c.lookahead) with
  | none => rfl
  | some action =>
    cases action with
    | shift target => simp [Artifact.entryAction, Outcome.named, NamedConfiguration.shift,
        Configuration.shift, Configuration.named]
    | reduce p =>
      exact driveReduce_named hg (ParseTable.mem_productionIds_of_reduce hg.wellFormed haction)
    | accept => rfl

/-- So is a run of any length. -/
theorem driveFor_named (n : Nat) (hc : ∀ t ∈ c.input, t ∈ g.terminalIds) :
    g.compile.artifact.driveFor n (c.named g) = (driveFor g g.compile.table n c).named g := by
  induction n generalizing c with
  | zero => rfl
  | succ n ih =>
    rw [Artifact.driveFor, driveFor, drive_named hg hc]
    cases hstep : drive g g.compile.table c with
    | running next => exact ih fun t ht => hc t (input_subset_of_drive hstep t ht)
    | accepted | rejected | stuck => rfl

end Step

/-- The artifact has the rows of the table, and its driver makes the moves of the table's. -/
structure FollowsTable (g : Grammar) : Prop where
  /-- Rows appear by state. -/
  length_actionTable : g.compile.artifact.actionTable.length = g.compile.table.rows.size
  /-- A row has an entry for each action of the table's row and no other. -/
  perm_rowOf : ∀ q, (g.compile.artifact.rowOf q).Perm
    ((g.compile.table.row q).actions.map (Artifact.entry g (g.plans g.automaton)))
  /-- No row has two entries for the symbol of a kind that has a name. -/
  nodup_names : ∀ q, ((g.compile.artifact.rowOf q).map fun e => (e.symbol, e.terminal)).Nodup
  /-- After any number of steps on any tokens the drivers have got equally far: to the same states
  and tokens with the thunks of the same productions, to acceptance, or to the same error. -/
  driveFor_named : ∀ input : List TerminalId, (∀ t ∈ input, t ∈ g.terminalIds) → ∀ n,
    g.compile.artifact.driveFor n (.start (input.map fun t => (g.terminal t).name)) =
      (driveFor g g.compile.table n (.start input)).named g

/-- Every artifact follows its table. -/
theorem artifact_followsTable {declarations : List Declaration}
    (hg : Grammar.ofDeclarations declarations = .ok g) : FollowsTable g := by
  have hdeclared := Grammar.declared_of_ofDeclarations hg
  exact {
    length_actionTable := Artifact.length_actionTable
    perm_rowOf := Artifact.perm_rowOf
    nodup_names := Artifact.nodup_names hdeclared
    driveFor_named input hinput n :=
      ShiftReduce.driveFor_named (c := .start input) hdeclared n hinput }

/-- A grammar in which a nonterminal has the name of the end of input. -/
def namesakeDeclarations : List Declaration :=
  [.rule "S" [endOfInputName, "b"] "", .rule endOfInputName ["a"] "", .resultType "S" "int",
    .start "S"]

def namesake : Grammar :=
  (Grammar.ofDeclarations namesakeDeclarations).toOption.getD default

theorem namesake_followsTable : Grammar.ofDeclarations namesakeDeclarations = .ok namesake ∧
    FollowsTable namesake ∧
    namesake.compile.artifact.driveFor 5 (.start ["a", "b"]) = .accepted := by
  have hg : Grammar.ofDeclarations namesakeDeclarations = .ok namesake :=
    eq_ok_getD_of_isOk (by decide +kernel)
  exact ⟨hg, artifact_followsTable hg, by decide +kernel⟩

end ShiftReduce
