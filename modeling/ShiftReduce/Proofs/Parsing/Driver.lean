import Mathlib.Logic.Relation
import ShiftReduce.Report.Compilation

/-!
# The driver of a parse table

A parser keeps the states it has passed on a stack. The entry for the state on top and the terminal
that comes next tells it what to do; the end of input comes next when nothing is left.
-/

namespace ShiftReduce

/-- A parser in the middle of its input. -/
structure Configuration where
  /-- The states, the one on top first. -/
  stack : List StateId
  input : List TerminalId
  /-- The productions reduced so far, the latest first. -/
  reduced : List ProductionId
deriving DecidableEq

namespace Configuration

def start (input : List TerminalId) : Configuration where
  stack := [0]
  input := input
  reduced := []

variable (c : Configuration)

def top : StateId :=
  c.stack.headD 0

def lookahead : TerminalId :=
  c.input.headD .endOfInput

/-- Pushes a state and reads the terminal that comes next. -/
def shift (target : StateId) : Configuration :=
  { c with stack := target :: c.stack, input := c.input.tail }

/-- Replaces the states of a right-hand side by the one that the left-hand side leads to. -/
def reduce (p : ProductionId) (exposed : List StateId) (target : StateId) : Configuration :=
  { c with stack := target :: exposed, reduced := p :: c.reduced }

end Configuration

/-- What comes of one step of the driver. -/
inductive Outcome where
  | running (c : Configuration)
  | accepted
  /-- The row has no entry for the terminal that comes next. -/
  | rejected
  /-- A reduction finds too few states or no shift over its left-hand side. -/
  | stuck
deriving DecidableEq

section Driver

variable (g : Grammar) (table : ParseTable)

/-- Pops a state for each symbol on the right and follows the shift over the left-hand side. -/
def driveReduce (c : Configuration) (p : ProductionId) : Outcome :=
  match c.stack.drop (g.production p).right.size with
  | [] => .stuck
  | q :: rest =>
    match table.action? q (.nonterminal (g.production p).left) with
    | some (.shift target) => .running (c.reduce p (q :: rest) target)
    | _ => .stuck

def drive (c : Configuration) : Outcome :=
  match table.action? c.top (.terminal c.lookahead) with
  | some (.shift target) => .running (c.shift target)
  | some (.reduce p) => driveReduce g table c p
  | some .accept => .accepted
  | none => .rejected

/-- What comes of at most `n` steps of the driver. -/
def driveFor : Nat → Configuration → Outcome
  | 0, c => .running c
  | n + 1, c =>
    match drive g table c with
    | .running next => driveFor n next
    | outcome => outcome

/-- The driver gets from one configuration to the other. -/
def Drives : Configuration → Configuration → Prop :=
  Relation.ReflTransGen fun c next => drive g table c = .running next

/-- The driver accepts an input after reducing some productions, the first one first. -/
def Accepts (input : List TerminalId) (reductions : List ProductionId) : Prop :=
  ∃ c, Drives g table (.start input) c ∧ drive g table c = .accepted ∧
    c.reduced.reverse = reductions

end Driver

variable {g : Grammar} {table : ParseTable} {c next : Configuration}

theorem drive_of_shift {target : StateId}
    (hshift : table.action? c.top (.terminal c.lookahead) = some (.shift target)) :
    drive g table c = .running (c.shift target) := by
  rw [drive, hshift]

theorem drive_of_reduce {p : ProductionId} {q target : StateId} {rest : List StateId}
    (hreduce : table.action? c.top (.terminal c.lookahead) = some (.reduce p))
    (hexposed : c.stack.drop (g.production p).right.size = q :: rest)
    (hshift : table.action? q (.nonterminal (g.production p).left) = some (.shift target)) :
    drive g table c = .running (c.reduce p (q :: rest) target) := by
  simp [drive, hreduce, driveReduce, hexposed, hshift]

theorem drive_of_accept (haccept : table.action? c.top (.terminal c.lookahead) = some .accept) :
    drive g table c = .accepted := by
  rw [drive, haccept]

theorem action?_of_drive_accepted (haccept : drive g table c = .accepted) :
    table.action? c.top (.terminal c.lookahead) = some .accept := by
  unfold drive driveReduce at haccept
  split at haccept
  next => cases haccept
  next =>
    split at haccept
    next => cases haccept
    next => split at haccept <;> cases haccept
  next hentry => exact hentry
  next => cases haccept

/-- A step is a shift, or a reduction that finds its states and its shift. -/
theorem drive_cases (hnext : drive g table c = .running next) :
    (∃ target, table.action? c.top (.terminal c.lookahead) = some (.shift target) ∧
      next = c.shift target) ∨
    ∃ p q rest target, table.action? c.top (.terminal c.lookahead) = some (.reduce p) ∧
      c.stack.drop (g.production p).right.size = q :: rest ∧
      table.action? q (.nonterminal (g.production p).left) = some (.shift target) ∧
      next = c.reduce p (q :: rest) target := by
  unfold drive driveReduce at hnext
  split at hnext
  next target hentry => exact .inl ⟨target, hentry, (Outcome.running.inj hnext).symm⟩
  next p hentry =>
    split at hnext
    next => cases hnext
    next q rest hexposed =>
      split at hnext
      next target hshift =>
        exact .inr ⟨p, q, rest, target, hentry, hexposed, hshift, (Outcome.running.inj hnext).symm⟩
      next => cases hnext
  next => cases hnext
  next => cases hnext

theorem Drives.step {d : Configuration} (next : Configuration)
    (hnext : drive g table c = .running next) (hrest : Drives g table next d) :
    Drives g table c d :=
  .head hnext hrest

theorem driveFor_succ (hnext : drive g table c = .running next) (n : Nat) :
    driveFor g table (n + 1) c = driveFor g table n next := by
  rw [driveFor, hnext]

/-- The driver gets somewhere in some number of steps. -/
theorem drives_iff_exists_driveFor {d : Configuration} :
    Drives g table c d ↔ ∃ n, driveFor g table n c = .running d := by
  constructor
  · intro hdrives
    induction hdrives using Relation.ReflTransGen.head_induction_on with
    | refl => exact ⟨0, rfl⟩
    | head hnext _ ih =>
      obtain ⟨n, hn⟩ := ih
      exact ⟨n + 1, (driveFor_succ hnext n).trans hn⟩
  · rintro ⟨n, hn⟩
    induction n generalizing c with
    | zero =>
      obtain rfl := Outcome.running.inj hn
      exact .refl
    | succ n ih =>
      cases hstep : drive g table c with
      | running next => exact .step next hstep (ih ((driveFor_succ hstep n).symm.trans hn))
      | accepted | rejected | stuck => simp [driveFor, hstep] at hn

/-- No step puts a token into the input. -/
theorem input_subset_of_drive (hnext : drive g table c = .running next) :
    ∀ t ∈ next.input, t ∈ c.input := by
  rcases drive_cases hnext with ⟨target, -, rfl⟩ | ⟨p, q, rest, target, -, -, -, rfl⟩
  · exact fun t ht => List.mem_of_mem_tail ht
  · exact fun t ht => ht

/-- What holds at the start and is kept by every step holds all the way. -/
theorem Drives.invariant {P : Configuration → Prop} {c d : Configuration}
    (hdrives : Drives g table c d) (hstart : P c)
    (hstep : ∀ c next, P c → drive g table c = .running next → P next) : P d := by
  induction hdrives with
  | refl => exact hstart
  | tail _ hnext ih => exact hstep _ _ ih hnext

theorem eq_of_drives_of_accepted {d : Configuration} (hdrives : Drives g table c d)
    (haccepted : drive g table c = .accepted) : c = d := by
  rcases Relation.ReflTransGen.cases_head hdrives with heq | ⟨next, hnext, -⟩
  · exact heq
  · rw [haccepted] at hnext
    cases hnext

/-- There is one way only to accept an input. -/
theorem Accepts.unique {input : List TerminalId} {reductions others : List ProductionId}
    (haccepts : Accepts g table input reductions) (hothers : Accepts g table input others) :
    reductions = others := by
  obtain ⟨c, hc, hcaccepted, rfl⟩ := haccepts
  obtain ⟨d, hd, hdaccepted, rfl⟩ := hothers
  have hunique : Relator.RightUnique fun c next => drive g table c = .running next := by
    intro c next other hnext hother
    exact Outcome.running.inj (hnext.symm.trans hother)
  rcases Relation.ReflTransGen.total_of_right_unique hunique hc hd with hcd | hdc
  · rw [eq_of_drives_of_accepted hcd hcaccepted]
  · rw [eq_of_drives_of_accepted hdc hdaccepted]

end ShiftReduce
