import ShiftReduce.Proofs.Automaton.Determinization
import ShiftReduce.Report.Compilation

/-!
# What a row holds

The first complete item that has a terminal in FOLLOW fixes its reduction. A shift takes the slot
when that is free or when some item that asks for the shift has no worse a rank. On nonterminals
there are no reductions, so every transition over a nonterminal is a shift.
-/

namespace ShiftReduce

variable {g : Grammar}

namespace Filling

theorem completion_ne_shift (p : ProductionId) (target : StateId) :
    completion p ≠ .shift target := by
  unfold completion
  split <;> exact Action.noConfusion

theorem completion_eq_reduce_iff {p q : ProductionId} :
    completion p = .reduce q ↔ p = q ∧ p ≠ .goal := by
  unfold completion
  split
  next hgoal => simp [hgoal]
  next hgoal => simp [hgoal]

theorem completion_eq_accept_iff {p : ProductionId} : completion p = .accept ↔ p = .goal := by
  unfold completion
  split
  next hgoal => simp [hgoal]
  next hgoal => simp [hgoal]

/-- A shift may take a completion's slot unless it is asked for by a production of a worse rank. -/
theorem yields_completion_iff {p q : ProductionId} {target : StateId} :
    yields g (some ⟨completion p, p⟩) (.shift target) q = true ↔ g.rank q ≤ g.rank p := by
  simp [yields, completion_ne_shift]

section Reductions

variable {id : StateId} {follows : TerminalFamily}

/-- The first of some productions that has the terminal in FOLLOW of its left-hand side. -/
def reduction? (g : Grammar) (follows : TerminalFamily) (ps : List ProductionId) (t : TerminalId) :
    Option ProductionId :=
  ps.find? fun p => t ∈ follows.get (g.production p).left

theorem mem_of_reduction? {ps : List ProductionId} {t : TerminalId} {p : ProductionId}
    (hp : reduction? g follows ps t = some p) :
    p ∈ ps ∧ t ∈ follows.get (g.production p).left := by
  rw [reduction?] at hp
  have hfollow := List.find?_some hp
  exact ⟨List.mem_of_find?_eq_some hp, of_decide_eq_true hfollow⟩

theorem exists_reduction? {ps : List ProductionId} {t : TerminalId} {p : ProductionId} (hp : p ∈ ps)
    (ht : t ∈ follows.get (g.production p).left) : ∃ q, reduction? g follows ps t = some q := by
  rw [reduction?, ← Option.isSome_iff_exists, List.find?_isSome]
  exact ⟨p, hp, decide_eq_true ht⟩

/-- What the reductions put on a symbol. -/
def reductionSlot (g : Grammar) (follows : TerminalFamily) (ps : List ProductionId) :
    Symbol → Option Slot
  | .terminal t => (reduction? g follows ps t).map fun p => ⟨completion p, p⟩
  | .nonterminal _ => none

theorem get?_reduceOn (p : ProductionId) (f : Filling) (t : TerminalId) (x : Symbol) :
    (reduceOn id p f t).slots.get? x =
      (f.slots.get? x).or (if x = .terminal t then some ⟨completion p, p⟩ else none) := by
  unfold reduceOn
  split
  next hfree =>
    rw [OrderedMap.get?_insert]
    split
    next heq => rw [heq, hfree, Option.none_or]
    next => rw [Option.or_none]
  next slot hslot =>
    split
    next heq => rw [heq, hslot, Option.some_or]
    next => rw [Option.or_none]

theorem get?_foldl_reduceOn (p : ProductionId) (ts : List TerminalId) (f : Filling) (x : Symbol) :
    (ts.foldl (reduceOn id p) f).slots.get? x =
      (f.slots.get? x).or (if x ∈ ts.map .terminal then some ⟨completion p, p⟩ else none) := by
  induction ts generalizing f with
  | nil => simp
  | cons first rest ih =>
    rw [List.foldl_cons, ih, get?_reduceOn, Option.or_assoc]
    by_cases heq : x = .terminal first
    · simp [heq]
    · simp [heq]

theorem reductionSlot_cons (p : ProductionId) (ps : List ProductionId) (x : Symbol) :
    reductionSlot g follows (p :: ps) x =
      (if x ∈ (follows.get (g.production p).left).toList.map .terminal then some ⟨completion p, p⟩
        else none).or (reductionSlot g follows ps x) := by
  cases x with
  | terminal t =>
    by_cases ht : t ∈ follows.get (g.production p).left
    · simp [reductionSlot, reduction?, ht]
    · simp [reductionSlot, reduction?, ht]
  | nonterminal n => simp [reductionSlot]

/-- What is installed first stays. -/
theorem get?_foldl_reduceBy (ps : List ProductionId) (f : Filling) (x : Symbol) :
    (ps.foldl (reduceBy g id follows) f).slots.get? x =
      (f.slots.get? x).or (reductionSlot g follows ps x) := by
  induction ps generalizing f with
  | nil => cases x <;> simp [reductionSlot, reduction?]
  | cons p rest ih =>
    rw [List.foldl_cons, ih, reduceBy, get?_foldl_reduceOn, Option.or_assoc, reductionSlot_cons]

end Reductions

section Shifts

variable {s : State} {x : Symbol}

/-- Whether an item asks for the shift over a symbol and may have the slot. -/
def takes (g : Grammar) (slot : Option Slot) (shift : Action) (x : Symbol) (item : Item) : Bool :=
  item.next? g == some x && yields g slot shift item.production

theorem get?_shiftBy_of_target?_eq_none (htarget : s.target? x = none) (f : Filling) (item : Item) :
    (shiftBy g s f item).slots.get? x = f.slots.get? x := by
  unfold shiftBy
  split
  next => rfl
  next y hy =>
    split
    next => rfl
    next target hy =>
      dsimp only
      split
      next =>
        rw [OrderedMap.get?_insert, if_neg]
        rintro rfl
        rw [htarget] at hy
        cases hy
      next => rfl

theorem get?_shiftBy {target : StateId} (htarget : s.target? x = some target) (f : Filling)
    (item : Item) : (shiftBy g s f item).slots.get? x =
      if takes g (f.slots.get? x) (.shift target) x item then some ⟨.shift target, item.production⟩
      else f.slots.get? x := by
  unfold takes shiftBy
  cases hnext : item.next? g with
  | none => simp
  | some y =>
    by_cases heq : y = x
    · subst heq
      cases hyields : yields g (f.slots.get? y) (.shift target) item.production with
      | true => simp [htarget, hyields, OrderedMap.get?_insert]
      | false => simp [htarget, hyields]
    · have hne : (some y == some x) = false := by simp [heq]
      rw [hne, Bool.false_and, if_neg Bool.false_ne_true]
      dsimp only
      split
      next => rfl
      next =>
        split
        next => rw [OrderedMap.get?_insert, if_neg (Ne.symm heq)]
        next => rfl

/-- A slot is changed by an item that may have it, and whichever may have it later changes the owner
only. -/
theorem map_action_foldl_shiftBy {target : StateId} (htarget : s.target? x = some target)
    (items : List Item) (f : Filling) :
    ((items.foldl (shiftBy g s) f).slots.get? x).map Slot.action =
      if items.any (takes g (f.slots.get? x) (.shift target) x) then some (.shift target)
      else (f.slots.get? x).map Slot.action := by
  induction items generalizing f with
  | nil => rfl
  | cons item rest ih =>
    rw [List.foldl_cons, ih, get?_shiftBy htarget, List.any_cons]
    -- once the shift is there, whether a later item takes the slot makes no difference
    by_cases hitem : takes g (f.slots.get? x) (.shift target) x item = true
    · rw [if_pos hitem, hitem, Bool.true_or, if_pos rfl]
      exact ite_self _
    · rw [if_neg hitem, Bool.eq_false_iff.mpr hitem, Bool.false_or]

theorem get?_foldl_shiftBy_of_target?_eq_none (htarget : s.target? x = none) (items : List Item)
    (f : Filling) : (items.foldl (shiftBy g s) f).slots.get? x = f.slots.get? x := by
  induction items generalizing f with
  | nil => rfl
  | cons item rest ih => rw [List.foldl_cons, ih, get?_shiftBy_of_target?_eq_none htarget]

end Shifts

end Filling

end ShiftReduce
