import ShiftReduce.Proofs.Analysis.Follow
import ShiftReduce.Proofs.Lookups.Basic

/-!
# Checked FIRST and FOLLOW sets

The passes read the set of every nonterminal that they scan or add to. Families keep their size, so
there is one for each nonterminal of the grammar throughout. Nullable nonterminals are a roster,
which is only asked for its members.
-/

namespace ShiftReduce

namespace TerminalFamily

def read (f : TerminalFamily) (n : NonterminalId) : Option TerminalSet :=
  f.sets[n.index]?

def readAdd (f : TerminalFamily) (n : NonterminalId) (more : TerminalSet) :
    Option TerminalFamily :=
  (f.read n).map fun _ => f.add n more

/-- One round of a loop that ends when a pass changes nothing. -/
def readStep (readPass : TerminalFamily → Option TerminalFamily) (f : TerminalFamily) :
    Option (Loop.Step TerminalFamily) :=
  (readPass f).map fun next => if next = f then .last f else .next next

/-- There is a set for every nonterminal of the grammar. -/
def Covers (g : Grammar) (f : TerminalFamily) : Prop :=
  f.sets.size = g.nonterminals.size

namespace Covers

variable {g : Grammar} {f : TerminalFamily} (hf : f.Covers g)

include hf

theorem of_le {other : TerminalFamily} (hle : f ≤ other) : other.Covers g :=
  hle.1.symm.trans hf

theorem read_eq {n : NonterminalId} (hn : n ∈ g.nonterminalIds) : f.read n = some (f.get n) := by
  have hlt : n.index < f.sets.size := hf.symm ▸ Grammar.mem_nonterminalIds.mp hn
  simp [read, get, hlt]

theorem readAdd_eq {n : NonterminalId} (hn : n ∈ g.nonterminalIds) (more : TerminalSet) :
    f.readAdd n more = some (f.add n more) := by
  rw [readAdd, hf.read_eq hn]
  rfl

end Covers

/-- Loops of checked passes, each of which keeps a set for every nonterminal. -/
theorem readRun_readStep_eq {g : Grammar} {pass : TerminalFamily → TerminalFamily}
    {readPass : TerminalFamily → Option TerminalFamily}
    {step : TerminalFamily → Loop.Step TerminalFamily}
    (hstep : ∀ f, step f = if pass f = f then .last f else .next (pass f))
    (hread : ∀ f, f.Covers g → readPass f = some (pass f)) (hgrow : ∀ f, f ≤ pass f) (bound : Nat)
    {start : TerminalFamily} (hstart : start.Covers g) :
    Loop.readRun (readStep readPass) bound start = some (Loop.run step bound start) := by
  refine Loop.readRun_eq_some (P := Covers g) (fun f hf => ?_) (fun f next hf hnext => ?_) bound
    hstart
  · rw [readStep, hread f hf, hstep]
    rfl
  · rw [hstep] at hnext
    split at hnext
    next => cases hnext
    next =>
      rw [← Loop.Step.next.inj hnext]
      exact hf.of_le (hgrow f)

end TerminalFamily

section Symbols

variable (nulls : Roster NonterminalId) (firsts : TerminalFamily)

def readFirstOfSymbols : List Symbol → Option TerminalSet
  | [] => some ∅
  | .terminal t :: _ => some (.singleton t)
  | .nonterminal n :: rest => do
    let first ← firsts.read n
    if nulls.contains n then
      let behind ← readFirstOfSymbols rest
      some (first ∪ behind)
    else some first

def readAddFollows (left : NonterminalId) : TerminalFamily → List Symbol → Option TerminalFamily
  | follows, [] => some follows
  | follows, .terminal _ :: rest => readAddFollows left follows rest
  | follows, .nonterminal n :: rest => do
    let behind ← readFirstOfSymbols nulls firsts rest
    let followsLeft ← follows.read left
    let more := if rest.all (·.isIn nulls) then behind ∪ followsLeft else behind
    let next ← follows.readAdd n more
    readAddFollows left next rest

variable {g : Grammar} {nulls : Roster NonterminalId} {firsts : TerminalFamily}
  (hfirsts : firsts.Covers g)

include hfirsts

theorem readFirstOfSymbols_eq {xs : List Symbol} (hxs : ∀ x ∈ xs, g.HasSymbol x) :
    readFirstOfSymbols nulls firsts xs = some (firstOfSymbols nulls firsts xs) := by
  induction xs with
  | nil => rfl
  | cons x rest ih =>
    obtain ⟨hx, hrest⟩ := List.forall_mem_cons.mp hxs
    cases x with
    | terminal t => rfl
    | nonterminal n =>
      rw [readFirstOfSymbols, hfirsts.read_eq hx, ih hrest, firstOfSymbols]
      split <;> rfl

theorem readAddFollows_eq {left : NonterminalId} (hleft : left ∈ g.nonterminalIds)
    {follows : TerminalFamily} (hfollows : follows.Covers g) {xs : List Symbol}
    (hxs : ∀ x ∈ xs, g.HasSymbol x) : readAddFollows nulls firsts left follows xs =
      some (addFollows nulls firsts left follows xs) := by
  induction xs generalizing follows with
  | nil => rfl
  | cons x rest ih =>
    obtain ⟨hx, hrest⟩ := List.forall_mem_cons.mp hxs
    cases x with
    | terminal t => exact ih hfollows hrest
    | nonterminal n =>
      simp only [readAddFollows, readFirstOfSymbols_eq hfirsts hrest, hfollows.read_eq hleft,
        hfollows.readAdd_eq hx, Option.bind_eq_bind, Option.bind_some]
      exact ih (hfollows.of_le (follows.le_add n _)) hrest

end Symbols

namespace Grammar

section Passes

variable (g : Grammar) (nulls : Roster NonterminalId) (firsts : TerminalFamily)

def readAddFirst (f : TerminalFamily) (p : Production) : Option TerminalFamily := do
  let first ← readFirstOfSymbols nulls f p.right.toList
  f.readAdd p.left first

def readFirstPass (f : TerminalFamily) : Option TerminalFamily :=
  g.productions.toList.foldlM (readAddFirst nulls) f

def readFirstsWith : Option TerminalFamily :=
  Loop.readRun (TerminalFamily.readStep (g.readFirstPass nulls)) g.firstBound
    (.empty g.nonterminals.size)

def readFollowPass (follows : TerminalFamily) : Option TerminalFamily :=
  g.productions.toList.foldlM
    (fun f p => readAddFollows nulls firsts p.left f p.right.toList) follows

def readFollowStart : Option TerminalFamily :=
  (TerminalFamily.empty g.nonterminals.size).readAdd .goal (.singleton .endOfInput)

def readFollowsWith : Option TerminalFamily := do
  let start ← g.readFollowStart
  Loop.readRun (TerminalFamily.readStep (g.readFollowPass nulls firsts)) (g.followBound firsts)
    start

def readAnalysis : Option Analysis := do
  let nullables := g.nullables
  let firsts ← g.readFirstsWith nullables
  let follows ← g.readFollowsWith nullables firsts
  some { nullables, firsts, follows }

end Passes

variable {g : Grammar} (hg : g.WellFormed) (nulls : Roster NonterminalId)

theorem covers_empty (g : Grammar) : (TerminalFamily.empty g.nonterminals.size).Covers g :=
  Array.size_replicate

include hg

theorem WellFormed.sides_mem {p : Production} (hp : p ∈ g.productions.toList) :
    p.left ∈ g.nonterminalIds ∧ ∀ x ∈ p.right.toList, g.HasSymbol x := by
  obtain ⟨id, hid, rfl⟩ := mem_toList_productions.mp hp
  exact ⟨hg.left_mem id hid, fun x hx => hg.hasSymbol_of_mem_right hid hx⟩

theorem readFirstPass_eq {f : TerminalFamily} (hf : f.Covers g) :
    g.readFirstPass nulls f = some (g.firstPass nulls f) := by
  refine foldlM_eq_some (P := TerminalFamily.Covers g) (fun f hf p hp => ⟨?_, ?_⟩) hf
  · obtain ⟨hleft, hright⟩ := hg.sides_mem hp
    rw [readAddFirst, readFirstOfSymbols_eq hf hright]
    exact hf.readAdd_eq hleft _
  · exact hf.of_le (le_addFirst f p)

theorem readFirstsWith_eq : g.readFirstsWith nulls = some (g.firstsWith nulls) :=
  TerminalFamily.readRun_readStep_eq (fun _ => rfl) (fun _ hf => readFirstPass_eq hg nulls hf)
    le_firstPass g.firstBound (covers_empty g)

theorem covers_firstsWith : (g.firstsWith nulls).Covers g :=
  (firstPass_firstsWith hg nulls).1.size_eq

theorem covers_firsts : g.analysis.firsts.Covers g :=
  covers_firstsWith hg g.nullables

theorem covers_follows : g.analysis.follows.Covers g :=
  (followPass_followsWith hg g.nullables (g.firstsWith g.nullables)).1.size_eq

variable {firsts : TerminalFamily} (hfirsts : firsts.Covers g)

include hfirsts

theorem readFollowPass_eq {f : TerminalFamily} (hf : f.Covers g) :
    g.readFollowPass nulls firsts f = some (g.followPass nulls firsts f) := by
  refine foldlM_eq_some (P := TerminalFamily.Covers g) (fun f hf p hp => ⟨?_, ?_⟩) hf
  · obtain ⟨hleft, hright⟩ := hg.sides_mem hp
    exact readAddFollows_eq hfirsts hleft hf hright
  · exact hf.of_le (le_addFollows f p.right.toList)

theorem readFollowsWith_eq :
    g.readFollowsWith nulls firsts = some (g.followsWith nulls firsts) := by
  have hstart : g.readFollowStart = some g.followStart :=
    (covers_empty g).readAdd_eq hg.goal_mem_nonterminalIds _
  rw [readFollowsWith, hstart]
  exact TerminalFamily.readRun_readStep_eq (fun _ => rfl)
    (fun _ hf => readFollowPass_eq hg nulls hfirsts hf) le_followPass (g.followBound firsts)
    ((covers_empty g).of_le (TerminalFamily.le_add _ _ _))

omit hfirsts

theorem readAnalysis_eq : g.readAnalysis = some g.analysis := by
  simp only [readAnalysis, readFirstsWith_eq hg, Option.bind_eq_bind, Option.bind_some,
    readFollowsWith_eq hg _ (covers_firstsWith hg _)]
  rfl

end Grammar

end ShiftReduce
