import ShiftReduce.Proofs.Grammar.WellFormed
import ShiftReduce.Loop

/-!
# Checked lookups

A grammar answers every number with something. The functions called `read` say when there was
nothing to answer with: they compute what their namesakes do, and are `none` as soon as a number or
a key is looked up that is not there. Here are the lookups in the grammar itself, and the ways in
which checked steps make up checked lists, folds and loops.
-/

namespace ShiftReduce

section Checked

variable {α β γ : Type}

/-- A list is read when each of its elements is. -/
theorem mapM_eq_some {read : α → Option β} {f : α → β} {xs : List α}
    (hread : ∀ x ∈ xs, read x = some (f x)) : xs.mapM read = some (xs.map f) := by
  induction xs with
  | nil => rfl
  | cons x xs ih =>
    rw [List.mapM_cons, hread x List.mem_cons_self,
      ih fun y hy => hread y (List.mem_cons_of_mem x hy)]
    rfl

/-- Elements that are read with their places. -/
theorem mapM_zipIdx_eq_some {read : α × Nat → Option β} {f : Nat → α → β} {xs : List α}
    (hread : ∀ x ∈ xs, ∀ i, read (x, i) = some (f i x)) :
    xs.zipIdx.mapM read = some (xs.mapIdx f) := by
  rw [List.mapIdx_eq_zipIdx_map]
  apply mapM_eq_some
  intro entry hentry
  exact hread entry.1 (List.fst_mem_of_mem_zipIdx hentry) entry.2

theorem filterMapM_eq_some {read : α → Option (Option β)} {f : α → Option β} {xs : List α}
    (hread : ∀ x ∈ xs, read x = some (f x)) : xs.filterMapM read = some (xs.filterMap f) := by
  induction xs with
  | nil => rfl
  | cons x xs ih =>
    rw [List.filterMapM_cons, hread x List.mem_cons_self,
      ih fun y hy => hread y (List.mem_cons_of_mem x hy)]
    cases hx : f x with
    | none => rw [List.filterMap_cons_none hx]; rfl
    | some y => rw [List.filterMap_cons_some hx]; rfl

theorem flatMapM_eq_some {read : α → Option (List β)} {f : α → List β} {xs : List α}
    (hread : ∀ x ∈ xs, read x = some (f x)) : xs.flatMapM read = some (xs.flatMap f) := by
  induction xs with
  | nil => rfl
  | cons x xs ih =>
    rw [List.flatMapM_cons, hread x List.mem_cons_self,
      ih fun y hy => hread y (List.mem_cons_of_mem x hy)]
    rfl

/-- A checked fold succeeds when each of its steps does and keeps what its accumulator has to do
with that of the plain fold. -/
theorem exists_foldlM_eq_some {read : γ → α → Option γ} {f : β → α → β} {R : β → γ → Prop}
    {xs : List α} (hstep : ∀ acc seen, R acc seen → ∀ x ∈ xs,
      ∃ next, read seen x = some next ∧ R (f acc x) next)
    {start : β} {seen : γ} (hstart : R start seen) :
    ∃ last, xs.foldlM read seen = some last ∧ R (xs.foldl f start) last := by
  induction xs generalizing start seen with
  | nil => exact ⟨seen, rfl, hstart⟩
  | cons x xs ih =>
    obtain ⟨next, hread, hkept⟩ := hstep start seen hstart x List.mem_cons_self
    rw [List.foldlM_cons, hread, List.foldl_cons]
    exact ih (fun acc seen hacc y hy => hstep acc seen hacc y (List.mem_cons_of_mem x hy)) hkept

theorem foldlM_eq_some {read : β → α → Option β} {f : β → α → β} {P : β → Prop} {xs : List α}
    (hstep : ∀ acc, P acc → ∀ x ∈ xs, read acc x = some (f acc x) ∧ P (f acc x)) {start : β}
    (hstart : P start) : xs.foldlM read start = some (xs.foldl f start) := by
  have hsame : ∀ acc seen, seen = acc ∧ P acc → ∀ x ∈ xs,
      ∃ next, read seen x = some next ∧ next = f acc x ∧ P (f acc x) := by
    rintro acc _ ⟨rfl, hacc⟩ x hx
    obtain ⟨hread, hkept⟩ := hstep _ hacc x hx
    exact ⟨_, hread, rfl, hkept⟩
  obtain ⟨_, hlast, rfl, -⟩ := exists_foldlM_eq_some hsame ⟨rfl, hstart⟩
  exact hlast

namespace Loop

variable {σ : Type}

/-- `run` with a checked step. -/
def readRun (readStep : σ → Option (Step σ)) : Nat → σ → Option σ
  | 0, state => some state
  | bound + 1, state => do
    match ← readStep state with
    | .last final => some final
    | .next state => readRun readStep bound state

/-- A loop is read when each step is that starts from what the steps before it keep. -/
theorem readRun_eq_some {readStep : σ → Option (Step σ)} {step : σ → Step σ} {P : σ → Prop}
    (hread : ∀ s, P s → readStep s = some (step s))
    (hnext : ∀ s t, P s → step s = .next t → P t) (bound : Nat) {state : σ} (hstart : P state) :
    readRun readStep bound state = some (run step bound state) := by
  induction bound generalizing state with
  | zero => rfl
  | succ bound ih =>
    rw [readRun, hread state hstart]
    cases hstep : step state with
    | last final =>
      rw [run_succ_of_last hstep]
      rfl
    | next next =>
      rw [run_succ_of_next hstep]
      exact ih (hnext _ _ hstart hstep)

end Loop

end Checked

namespace Grammar

variable (g : Grammar)

def readTerminal (t : TerminalId) : Option Terminal :=
  g.terminals[t.index]?

def readNonterminal (n : NonterminalId) : Option Nonterminal :=
  g.nonterminals[n.index]?

def readProduction (p : ProductionId) : Option Production :=
  g.productions[p.index]?

def readSymbolName : Symbol → Option String
  | .terminal t => (g.readTerminal t).map Terminal.name
  | .nonterminal n => (g.readNonterminal n).map Nonterminal.name

def readProductionNames (p : ProductionId) : Option (List String) := do
  let production ← g.readProduction p
  let left ← g.readNonterminal production.left
  let right ← production.right.toList.mapM g.readSymbolName
  some (left.name :: right)

def readPriority : Symbol → Option (Option Nat)
  | .terminal t => (g.readTerminal t).map Terminal.priority
  | .nonterminal _ => some none

def readRank (p : ProductionId) : Option Nat := do
  let production ← g.readProduction p
  let priorities ← production.right.toList.mapM g.readPriority
  some ((priorities.findSome? id).getD g.priorities.length)

/-- A nonterminal without a type has no field, nor has one whose type has none. -/
def readField (n : NonterminalId) : Option (Option String) :=
  (g.readNonterminal n).map fun nonterminal =>
    nonterminal.resultType.bind fun type => g.fields.lookup type

variable {g}

theorem readTerminal_eq {t : TerminalId} (ht : t ∈ g.terminalIds) :
    g.readTerminal t = some (g.terminal t) := by
  have hlt := mem_terminalIds.mp ht
  simp [readTerminal, terminal, hlt]

theorem readNonterminal_eq {n : NonterminalId} (hn : n ∈ g.nonterminalIds) :
    g.readNonterminal n = some (g.nonterminal n) := by
  have hlt := mem_nonterminalIds.mp hn
  simp [readNonterminal, nonterminal, hlt]

theorem readProduction_eq {p : ProductionId} (hp : p ∈ g.productionIds) :
    g.readProduction p = some (g.production p) := by
  have hlt := mem_productionIds.mp hp
  simp [readProduction, production, hlt]

theorem readSymbolName_eq {x : Symbol} (hx : g.HasSymbol x) :
    g.readSymbolName x = some (g.symbolName x) := by
  cases x with
  | terminal t => rw [readSymbolName, readTerminal_eq hx]; rfl
  | nonterminal n => rw [readSymbolName, readNonterminal_eq hx]; rfl

theorem readField_eq {n : NonterminalId} (hn : n ∈ g.nonterminalIds) :
    g.readField n = some (g.field? n) := by
  rw [readField, readNonterminal_eq hn]
  rfl

namespace WellFormed

variable (hg : g.WellFormed)

include hg

theorem hasSymbol_of_mem_right {p : ProductionId} (hp : p ∈ g.productionIds) {x : Symbol}
    (hx : x ∈ (g.production p).right.toList) : g.HasSymbol x :=
  hg.hasSymbol_of_mentions (mentions_of_mem hp hx)

theorem readLeft_eq {p : ProductionId} (hp : p ∈ g.productionIds) :
    g.readNonterminal (g.production p).left = some (g.nonterminal (g.production p).left) :=
  readNonterminal_eq (hg.left_mem p hp)

theorem readRightNames_eq {p : ProductionId} (hp : p ∈ g.productionIds) :
    (g.production p).right.toList.mapM g.readSymbolName =
      some ((g.production p).right.toList.map g.symbolName) :=
  mapM_eq_some fun _ hx => readSymbolName_eq (hg.hasSymbol_of_mem_right hp hx)

theorem readProductionNames_eq {p : ProductionId} (hp : p ∈ g.productionIds) :
    g.readProductionNames p = some (g.productionNames p) := by
  simp only [readProductionNames, readProduction_eq hp, Option.bind_eq_bind, Option.bind_some,
    hg.readLeft_eq hp, hg.readRightNames_eq hp]
  rfl

theorem readRank_eq {p : ProductionId} (hp : p ∈ g.productionIds) :
    g.readRank p = some (g.rank p) := by
  have hread : (g.production p).right.toList.mapM g.readPriority =
      some ((g.production p).right.toList.map g.symbolPriority?) := by
    refine mapM_eq_some fun x hx => ?_
    have hsymbol := hg.hasSymbol_of_mem_right hp hx
    cases x with
    | terminal t => rw [readPriority, readTerminal_eq hsymbol]; rfl
    | nonterminal n => rfl
  simp only [readRank, readProduction_eq hp, Option.bind_eq_bind, Option.bind_some, hread, rank,
    List.findSome?_map, Function.id_comp]

end WellFormed

end Grammar

end ShiftReduce
