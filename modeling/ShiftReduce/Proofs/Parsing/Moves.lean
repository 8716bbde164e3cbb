import ShiftReduce.Proofs.Parsing.Walk

/-!
# Moves of the driver along a walk

Where an item expects a terminal and the table has the shift, the walk goes on over the terminal.
Where a right-hand side ends the walk and the table has the reduction, the walk goes on over the
left-hand side instead. Which entry the table has depends on the items that are ready and on ranks.
-/

namespace ShiftReduce

variable {g : Grammar}

/-- The symbols behind the marker. -/
def Item.rest (g : Grammar) (item : Item) : List Symbol :=
  (item.right g).toList.drop item.marker

theorem Item.next?_of_rest {item : Item} {x : Symbol} {xs : List Symbol}
    (hrest : item.rest g = x :: xs) : item.next? g = some x := by
  rw [Item.next?, ← Array.getElem?_toList, ← List.head?_drop]
  exact congrArg List.head? hrest

theorem Item.rest_advance {item : Item} {x : Symbol} {xs : List Symbol}
    (hrest : item.rest g = x :: xs) : item.advance.rest g = xs := by
  have htail : item.advance.rest g = (item.rest g).tail := List.tail_drop.symm
  rw [htail, hrest, List.tail_cons]

theorem Item.rest_start (p : ProductionId) :
    (Item.start p).rest g = (g.production p).right.toList :=
  List.drop_zero

/-- A complete item is reached behind what its marker has still to pass. -/
theorem Reaches.complete {symbols xs : List Symbol} {item : Item} (hitem : Reaches g symbols item)
    (hxs : item.rest g = xs) : ∃ last, Reaches g (symbols ++ xs) last ∧
      last.production = item.production ∧ last.isComplete g = true := by
  induction xs generalizing symbols item with
  | nil =>
    refine ⟨item, by simpa using hitem, rfl, ?_⟩
    simpa [Item.rest, Item.isComplete] using hxs
  | cons x xs ih =>
    have hpassed := ih (hitem.advance (Item.next?_of_rest hxs)) (Item.rest_advance hxs)
    rwa [List.append_assoc, List.singleton_append] at hpassed

namespace Walk

variable (hg : g.WellFormed) {symbols : List Symbol} {stack : List StateId} {item : Item}
  {input : List TerminalId} {reduced : List ProductionId}

include hg

/-- A terminal that some item expects is read, unless a better production is ready on it. -/
theorem drive_shift (hwalk : Walk g.automaton symbols stack) (hitem : Reaches g symbols item)
    {t : TerminalId} (hnext : item.next? g = some (.terminal t))
    (hyields : ∀ other, Ready g (stack.headD 0) t other →
      g.rank item.production ≤ g.rank other.production) :
    ∃ last, Walk g.automaton (symbols ++ [.terminal t]) last ∧
      drive g g.compile.table ⟨stack, t :: input, reduced⟩ = .running ⟨last, input, reduced⟩ := by
  obtain ⟨target, htarget, hgoes⟩ := hwalk.exists_concat hg hitem hnext
  obtain ⟨hlt, hholds⟩ := hwalk.holdsReached hg
  have hshift := action?_eq_shift hlt ((hholds item).mpr hitem) hnext htarget hyields
  exact ⟨target :: stack, hgoes, drive_of_shift hshift⟩

/-- A right-hand side on top is completed on a terminal of FOLLOW, unless another production is
ready on it or no worse a one expects it. -/
theorem action?_completion {p : ProductionId}
    (hwalk : Walk g.automaton (symbols ++ (g.production p).right.toList) stack)
    (hbegun : Reaches g symbols (.start p)) {t : TerminalId}
    (hfollow : t ∈ g.analysis.follows.get (g.production p).left)
    (halone : ReadyAlone g (stack.headD 0))
    (hkeeps : ∀ other, Reaches g (symbols ++ (g.production p).right.toList) other →
      other.next? g = some (.terminal t) → g.rank p < g.rank other.production) :
    g.compile.table.action? (stack.headD 0) (.terminal t) = some (Filling.completion p) := by
  obtain ⟨last, hlast, rfl, hcomplete⟩ := hbegun.complete (Item.rest_start p)
  obtain ⟨hlt, hholds⟩ := hwalk.holdsReached hg
  exact action?_eq_completion hlt halone ⟨(hholds last).mpr hlast, hcomplete, hfollow⟩
    fun other hother => hkeeps other ((hholds other).mp hother)

/-- The states of a right-hand side are popped, and below them the left-hand side is expected. -/
theorem drive_reduce {p : ProductionId}
    (hwalk : Walk g.automaton (symbols ++ (g.production p).right.toList) stack)
    (hitem : Reaches g symbols item)
    (hnext : item.next? g = some (.nonterminal (g.production p).left))
    (hreduce : g.compile.table.action? (stack.headD 0) (.terminal (input.headD .endOfInput)) =
      some (.reduce p)) :
    ∃ last, Walk g.automaton (symbols ++ [.nonterminal (g.production p).left]) last ∧
      drive g g.compile.table ⟨stack, input, reduced⟩ = .running ⟨last, input, p :: reduced⟩ := by
  have hpopped := hwalk.drop
  obtain ⟨q, rest, hexposed⟩ := hpopped.exists_cons
  rw [hexposed] at hpopped
  obtain ⟨target, htarget, hgoes⟩ := hpopped.exists_concat hg hitem hnext
  have hshift := ParseTable.action?_nonterminal hg (hpopped.holdsReached hg).1 htarget
  exact ⟨target :: q :: rest, hgoes, drive_of_reduce hreduce hexposed hshift⟩

end Walk

end ShiftReduce
