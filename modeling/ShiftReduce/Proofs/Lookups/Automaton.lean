import ShiftReduce.Proofs.Automaton.Determinization
import ShiftReduce.Proofs.Grammar.Limits
import ShiftReduce.Proofs.Lookups.Basic

/-!
# The checked automaton

Markers are numbers up to the size limit, so only a marker below it is advanced. In a found set no
marker stands behind the end of its right-hand side, and that is no longer than the limit. Sorting
compares the names of productions or symbols, all of which are read before. When the search has
ended, every successor is looked up among the sets that were found.
-/

namespace ShiftReduce

section Items

variable (g : Grammar)

namespace Item

/-- The next marker, if there is a number for it. -/
def advance? (item : Item) : Option Item :=
  if item.marker < sizeLimit then some item.advance else none

def readNext (item : Item) : Option (Option Symbol) :=
  (g.readProduction item.production).map fun production => production.right[item.marker]?

def readExpected (item : Item) : Option (Option NonterminalId) :=
  (item.readNext g).map fun next? => next?.bind Symbol.nonterminal?

/-- The symbol over which an item is left, with the item to which that leads. -/
def readMove (item : Item) : Option (Option (Symbol × Item)) := do
  match ← item.readNext g with
  | none => some none
  | some x =>
    let next ← item.advance?
    some (some (x, next))

/-- The production of an item, if that is complete. -/
def readCompleted (item : Item) : Option (Option ProductionId) :=
  (g.readProduction item.production).map fun production =>
    if item.marker ≥ production.right.size then some item.production else none

end Item

def readSortItems (items : List Item) : Option (List Item) := do
  let _ ← items.mapM fun item => g.readProductionNames item.production
  some (sortItems g items)

def readSortSymbols (xs : List Symbol) : Option (List Symbol) := do
  let _ ← xs.mapM g.readSymbolName
  some (sortByName g.symbolName xs)

namespace Opening

def readLeading (n : NonterminalId) : Option (List NonterminalId) := do
  let nonterminal ← g.readNonterminal n
  nonterminal.productions.filterMapM fun p => (Item.start p).readExpected g

def readStep (o : Opening) : Option (Loop.Step Opening) :=
  match o.fresh with
  | [] => some (.last o)
  | fresh => do
    let pending ← fresh.flatMapM (readLeading g)
    some (.next { opened := o.opened.addAll fresh, pending })

def readOfItems (items : List Item) : Option (List NonterminalId) := do
  let pending ← items.filterMapM (·.readExpected g)
  let o ← Loop.readRun (readStep g) (bound g) { opened := ∅, pending }
  some o.opened.toList

end Opening

def readStartItems (n : NonterminalId) : Option (List Item) :=
  (g.readNonterminal n).map fun nonterminal => nonterminal.productions.map Item.start

def readClosure (kernel : List Item) : Option (List Item) := do
  let opened ← Opening.readOfItems g kernel
  let starts ← opened.flatMapM (readStartItems g)
  readSortItems g (kernel ++ starts)

def readSuccessors (items : List Item) : Option (List (Symbol × List Item)) := do
  let moves ← items.filterMapM (·.readMove g)
  let groups := group (fun move => some move.1) moves
  let symbols ← readSortSymbols g (distinct (moves.map Prod.fst))
  symbols.mapM fun x => do
    let target ← readClosure g ((groupOf groups x).map Prod.snd)
    some (x, target)

variable {g}

namespace Item

theorem readNext_eq {item : Item} (hitem : item.production ∈ g.productionIds) :
    item.readNext g = some (item.next? g) := by
  rw [readNext, Grammar.readProduction_eq hitem]
  rfl

theorem readExpected_eq {item : Item} (hitem : item.production ∈ g.productionIds) :
    item.readExpected g = some (item.expected? g) := by
  rw [readExpected, readNext_eq hitem]
  rfl

/-- What `readMove` reads. -/
def move? (g : Grammar) (item : Item) : Option (Symbol × Item) :=
  (item.next? g).map fun x => (x, item.advance)

/-- Where a symbol stands behind the marker, there is a number for the next one. -/
theorem advance?_eq (hshort : g.IsShort) {item : Item} (hitem : item.production ∈ g.productionIds)
    {x : Symbol} (hx : item.next? g = some x) : item.advance? = some item.advance := by
  have hmarker : item.marker < (item.right g).size := (Array.getElem?_eq_some_iff.mp hx).1
  exact if_pos (Nat.lt_of_lt_of_le hmarker (hshort item.production hitem))

theorem readMove_eq (hshort : g.IsShort) {item : Item}
    (hitem : item.production ∈ g.productionIds) : item.readMove g = some (item.move? g) := by
  rw [readMove, readNext_eq hitem, move?]
  cases hx : item.next? g with
  | none => rfl
  | some x =>
    simp only [advance?_eq hshort hitem hx, Option.bind_eq_bind, Option.bind_some]
    rfl

end Item

theorem readCompleted_eq {items : List Item} (hitems : g.HasItems items) :
    items.filterMapM (·.readCompleted g) =
      some ((items.filter (·.isComplete g)).map Item.production) := by
  have hcomplete : (items.filter (·.isComplete g)).map Item.production =
      items.filterMap fun item => if item.isComplete g then some item.production else none := by
    simp [← List.filterMap_eq_filter, List.map_filterMap, Option.guard]
  rw [hcomplete]
  apply filterMapM_eq_some
  intro item hitem
  rw [Item.readCompleted, Grammar.readProduction_eq (hitems item hitem)]
  simp [Item.isComplete, Item.right]

theorem readSortSymbols_eq {xs : List Symbol} (hxs : ∀ x ∈ xs, g.HasSymbol x) :
    readSortSymbols g xs = some (sortByName g.symbolName xs) := by
  rw [readSortSymbols, mapM_eq_some fun x hx => Grammar.readSymbolName_eq (hxs x hx)]
  rfl

variable (hg : g.WellFormed)

include hg

theorem readSortItems_eq {items : List Item} (hitems : g.HasItems items) :
    readSortItems g items = some (sortItems g items) := by
  rw [readSortItems, mapM_eq_some fun item hitem => hg.readProductionNames_eq (hitems item hitem)]
  rfl

theorem hasItems_startItems (n : NonterminalId) : g.HasItems (startItems g n) := by
  intro item hitem
  obtain ⟨p, hp, -, rfl⟩ := (mem_startItems hg).mp hitem
  exact hp

namespace Opening

theorem readLeading_eq {n : NonterminalId} (hn : n ∈ g.nonterminalIds) :
    readLeading g n = some (leading g n) := by
  rw [readLeading, Grammar.readNonterminal_eq hn]
  exact filterMapM_eq_some fun p hp => Item.readExpected_eq ((hg.mem_productions_iff n p).mp hp).1

theorem readStep_eq {kernel : List Item} (hkernel : g.HasItems kernel) {o : Opening}
    (ho : Sound g kernel o) : readStep g o = some (step g o) := by
  have hfresh : ∀ n ∈ o.fresh, n ∈ g.nonterminalIds := fun n hn =>
    (ho.expects_of_pending n (mem_fresh.mp hn).1).mem_nonterminalIds hg hkernel
  rw [step_eq, readStep]
  split
  next hnone => rw [if_pos hnone]
  next hsome =>
    rw [if_neg hsome, flatMapM_eq_some fun n hn => readLeading_eq hg (hfresh n hn)]
    rfl

theorem readOfItems_eq {kernel : List Item} (hkernel : g.HasItems kernel) :
    readOfItems g kernel = some (ofItems g kernel) := by
  have hloop := Loop.readRun_eq_some (fun _ ho => readStep_eq hg hkernel ho)
    (fun _ _ ho hnext => (ho.step hg hkernel hnext).1) (bound g) (sound_start kernel)
  rw [readOfItems, filterMapM_eq_some fun item hitem => Item.readExpected_eq (hkernel item hitem)]
  simp only [Option.bind_eq_bind, Option.bind_some, hloop]
  rfl

end Opening

omit hg in
theorem readStartItems_eq {n : NonterminalId} (hn : n ∈ g.nonterminalIds) :
    readStartItems g n = some (startItems g n) := by
  rw [readStartItems, Grammar.readNonterminal_eq hn]
  rfl

theorem readClosure_eq {kernel : List Item} (hkernel : g.HasItems kernel) :
    readClosure g kernel = some (closure g kernel) := by
  have hopened : ∀ n ∈ Opening.ofItems g kernel, n ∈ g.nonterminalIds := fun n hn =>
    ((Opening.mem_ofItems_iff hg hkernel).mp hn).mem_nonterminalIds hg hkernel
  have hall : g.HasItems (kernel ++ (Opening.ofItems g kernel).flatMap (startItems g)) := by
    intro item hitem
    rcases List.mem_append.mp hitem with hitem | hitem
    · exact hkernel item hitem
    · obtain ⟨n, -, hstart⟩ := List.mem_flatMap.mp hitem
      exact hasItems_startItems hg n item hstart
  simp only [readClosure, Opening.readOfItems_eq hg hkernel, Option.bind_eq_bind, Option.bind_some,
    flatMapM_eq_some fun n hn => readStartItems_eq (hopened n hn), readSortItems_eq hg hall]
  rfl

omit hg in
theorem map_fst_moves (items : List Item) :
    (items.filterMap (·.move? g)).map Prod.fst = items.filterMap (·.next? g) := by
  rw [List.map_filterMap]
  refine List.filterMap_congr fun item _ => ?_
  rw [Item.move?, Option.map_map]
  exact Option.map_id'

omit hg in
/-- Moving over a symbol leads to the items that have passed it. -/
theorem map_snd_moves (items : List Item) (x : Symbol) :
    ((items.filterMap (·.move? g)).filter fun move => some move.1 == some x).map Prod.snd =
      passed g items x := by
  induction items with
  | nil => rfl
  | cons item rest ih =>
    have hcons : passed g (item :: rest) x =
        if item.next? g = some x then item.advance :: passed g rest x else passed g rest x := by
      simp only [passed, List.filter_cons, beq_iff_eq]
      split <;> rfl
    rw [hcons, ← ih]
    cases hnext : item.next? g with
    | none => simp [Item.move?, hnext]
    | some y =>
      by_cases heq : y = x <;> simp [Item.move?, hnext, heq]

theorem readSuccessors_eq (hshort : g.IsShort) {items : List Item} (hitems : g.HasItems items) :
    readSuccessors g items = some (successors g items) := by
  have hsymbols : ∀ x ∈ distinct (items.filterMap (·.next? g)), g.HasSymbol x := by
    intro x hx
    obtain ⟨item, hitem, hnext⟩ := List.mem_filterMap.mp (mem_distinct.mp hx)
    exact hg.hasSymbol_of_mentions (Item.mentions_of_next? (hitems item hitem) hnext)
  simp only [readSuccessors, filterMapM_eq_some fun item hitem =>
    Item.readMove_eq hshort (hitems item hitem), Option.bind_eq_bind, Option.bind_some,
    map_fst_moves, readSortSymbols_eq hsymbols, groupOf_group, map_snd_moves, successors_eq]
  refine mapM_eq_some fun x _ => ?_
  rw [readClosure_eq hg (hasItems_passed hitems x)]
  rfl

end Items

namespace Search

variable (g : Grammar)

def readStart : Option Search := do
  let initial ← readClosure g [Item.start .goal]
  some { found := ∅, pending := [initial] }

def readStep (s : Search) : Option (Loop.Step Search) :=
  match s.pending with
  | [] => some (.last s)
  | items :: rest =>
    if s.found.contains items then some (.next (s.skip rest))
    else do
      let next ← readSuccessors g items
      some (.next {
        found := s.found.insert items next
        pending := next.reverse.map Prod.snd ++ rest })

def read : Option (OrderedMap (List Item) (List (Symbol × List Item))) := do
  let start ← readStart g
  let last ← Loop.readRun (readStep g) (bound g) start
  some last.found

variable {g} (hg : g.WellFormed) (hshort : g.IsShort)

include hg hshort

theorem readStep_eq {s : Search} (hs : Sound g s) : readStep g s = some (step g s) := by
  rw [readStep, step]
  cases hpending : s.pending with
  | nil => rfl
  | cons items rest =>
    have hitems := (hs.reached_of_pending items (hpending ▸ List.mem_cons_self)).hasItems hg
    dsimp only
    rw [readSuccessors_eq hg hshort hitems]
    split <;> rfl

theorem read_eq : read g = some (run g) := by
  have hloop := Loop.readRun_eq_some (fun _ hs => readStep_eq hg hshort hs)
    (fun _ _ hs hnext => (hs.step hg hnext).1) (bound g) (sound_start hg)
  have hstart : readStart g = some (start g) := by
    rw [readStart, readClosure_eq hg hg.hasItems_goal]
    rfl
  rw [read, hstart, Option.bind_eq_bind, Option.bind_some, hloop, run]
  rfl

end Search

def State.readOfItems (known : Roster (List Item)) (items : List Item)
    (next : List (Symbol × List Item)) : Option State := do
  let transitions ← next.mapM fun (x, target) => (known.idx? target).map fun id => (x, id)
  some { items, transitions := .ofList transitions }

namespace Grammar

def readAutomaton (g : Grammar) : Option Automaton := do
  let found ← Search.read g
  let states ← found.toList.mapM fun entry => State.readOfItems found.keys entry.1 entry.2
  some { states := states.toArray }

variable {g : Grammar} (hg : g.WellFormed)

include hg

/-- Every successor of a found set is found under its number. -/
theorem readOfItems_eq {items : List Item} (hitems : items ∈ (Search.run g).keys.toList) :
    State.readOfItems (Search.run g).keys items (successors g items) =
      some (State.ofItems (Search.run g).keys items (successors g items)) := by
  rw [State.readOfItems, mapM_eq_some
    (f := fun entry => (entry.1, ((Search.run g).keys.idx? entry.2).getD 0))]
  · rfl
  · rintro ⟨x, target⟩ hentry
    rw [successors_eq] at hentry
    obtain ⟨y, hy, heq⟩ := List.mem_map.mp hentry
    obtain ⟨rfl, rfl⟩ := Prod.mk.inj heq
    have hfound := (Search.complete_run hg).goto_mem items hitems y hy
    obtain ⟨i, hi⟩ := List.mem_iff_getElem?.mp hfound
    simp only [Roster.idx?_eq_some_iff.mpr hi, Option.map_some, Option.getD_some]

theorem readAutomaton_eq (hshort : g.IsShort) : g.readAutomaton = some g.automaton := by
  have hstates : ∀ entry ∈ (Search.run g).toList,
      State.readOfItems (Search.run g).keys entry.1 entry.2 =
        some (State.ofItems (Search.run g).keys entry.1 entry.2) := by
    intro entry hentry
    have hnext : entry.2 = successors g entry.1 := by
      obtain ⟨s, hs, -, hrun⟩ := Search.exists_last hg
      exact hs.eq_successors entry (hrun ▸ hentry)
    rw [hnext]
    refine readOfItems_eq hg ?_
    rw [← OrderedMap.map_fst_toList]
    exact List.mem_map_of_mem hentry
  rw [readAutomaton, Search.read_eq hg hshort, Option.bind_eq_bind, Option.bind_some,
    mapM_eq_some hstates, automaton]
  rfl

end Grammar

end ShiftReduce
