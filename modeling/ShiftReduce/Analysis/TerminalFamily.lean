import ShiftReduce.Analysis.TerminalSet

/-!
# Families of terminal sets

One set of terminals for each nonterminal of a grammar, by number.
-/

namespace ShiftReduce

structure TerminalFamily where
  sets : Array TerminalSet
deriving DecidableEq, Inhabited

namespace TerminalFamily

/-- The family of empty sets for `count` nonterminals. -/
def empty (count : Nat) : TerminalFamily :=
  ⟨Array.replicate count ∅⟩

def get (f : TerminalFamily) (n : NonterminalId) : TerminalSet :=
  f.sets.getD n.index ∅

/-- Adds terminals to the set of one nonterminal. -/
def add (f : TerminalFamily) (n : NonterminalId) (more : TerminalSet) : TerminalFamily :=
  ⟨f.sets.modify n.index (· ∪ more)⟩

/-- How many members the sets have together. -/
def total (f : TerminalFamily) : Nat :=
  (f.sets.toList.flatMap TerminalSet.toList).length

@[simp] theorem size_add (f : TerminalFamily) (n : NonterminalId) (more : TerminalSet) :
    (f.add n more).sets.size = f.sets.size := by
  simp [add]

theorem get_add_self {f : TerminalFamily} {n : NonterminalId} (hn : n.index < f.sets.size)
    (more : TerminalSet) : (f.add n more).get n = f.get n ∪ more := by
  simp [get, add, Array.getElem_modify, hn]

theorem get_add_of_ne {f : TerminalFamily} {n other : NonterminalId} (hne : other ≠ n)
    (more : TerminalSet) : (f.add n more).get other = f.get other := by
  have hindex : ¬ n.index = other.index := by
    intro h
    cases n
    cases other
    simp_all
  simp [get, add, Array.getD_eq_getD_getElem?, Array.getElem?_modify, hindex]

end TerminalFamily

end ShiftReduce
