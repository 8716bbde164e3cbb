import ShiftReduce.Proofs.Analysis.LeastSets
import ShiftReduce.Proofs.Loops.Unbounded

/-!
# Passes that note what they change

The nullable nonterminals, FIRST and FOLLOW are computed in place. A scan goes from symbol to symbol
of a right-hand side, stops behind the first that is not nullable, does not add a set to itself, and
notes whether anything was new. Passes are repeated, without a bound, until one has nothing to note.
They go through the same states as the bounded passes, so each of these loops ends, and with the
same result.
-/

namespace ShiftReduce

/-- A value with a note of whether it was changed. -/
structure Noted (α : Type) where
  value : α
  changed : Bool

namespace TerminalFamily

variable {f other : TerminalFamily} {n : NonterminalId} {more : TerminalSet}

theorem ext_of_mem (hsize : f.sets.size = other.sets.size)
    (hmem : ∀ n t, t ∈ f.get n ↔ t ∈ other.get n) : f = other :=
  TerminalFamily.le_antisymm ⟨hsize, fun n t => (hmem n t).mp⟩
    ⟨hsize.symm, fun n t => (hmem n t).mpr⟩

theorem add_of_subset (hmore : ∀ t, t ∈ more → t ∈ f.get n) : f.add n more = f := by
  refine ext_of_mem (f.size_add n more) fun m t => ?_
  rw [mem_get_add]
  exact or_iff_left_of_imp fun ⟨heq, _, ht⟩ => heq ▸ hmore t ht

theorem add_add (f : TerminalFamily) (n : NonterminalId) (more last : TerminalSet) :
    (f.add n more).add n last = f.add n (more ∪ last) := by
  refine ext_of_mem (by simp) fun m t => ?_
  simp only [mem_get_add, size_add, TerminalSet.mem_union]
  tauto

/-- A set has nothing to add to itself. -/
theorem add_union_get (f : TerminalFamily) (n : NonterminalId) (more : TerminalSet) :
    f.add n (more ∪ f.get n) = f.add n more := by
  rw [← add_add]
  exact add_of_subset fun t ht => mem_get_add.mpr (.inl ht)

/-- What can begin some symbols when a set has more is what could before, or was added. -/
theorem mem_firstOfSymbols_of_add {nulls : Roster NonterminalId} {xs : List Symbol} {t : TerminalId}
    (ht : t ∈ firstOfSymbols nulls (f.add n more) xs) :
    t ∈ firstOfSymbols nulls f xs ∨ t ∈ more := by
  obtain ⟨before, x, after, heq, hbefore, hx⟩ := mem_firstOfSymbols_iff.mp ht
  cases x with
  | terminal u => exact .inl (mem_firstOfSymbols_iff.mpr ⟨before, _, after, heq, hbefore, hx⟩)
  | nonterminal m =>
    rcases mem_get_add.mp hx with hold | ⟨-, -, hmore⟩
    · exact .inl (mem_firstOfSymbols_iff.mpr ⟨before, _, after, heq, hbefore, hold⟩)
    · exact .inr hmore

theorem mem_firstOfSymbols_mono {nulls : Roster NonterminalId} {xs : List Symbol} {t : TerminalId}
    (hle : f ≤ other) (ht : t ∈ firstOfSymbols nulls f xs) :
    t ∈ firstOfSymbols nulls other xs := by
  obtain ⟨before, x, after, heq, hbefore, hx⟩ := mem_firstOfSymbols_iff.mp ht
  exact mem_firstOfSymbols_iff.mpr ⟨before, x, after, heq, hbefore, x.beginnings_mono hle.2 hx⟩

end TerminalFamily

namespace Noted

/-- Adds terminals to the set of a nonterminal, and notes it if one of them is new. -/
def add (f : Noted TerminalFamily) (n : NonterminalId) (more : TerminalSet) :
    Noted TerminalFamily where
  value := f.value.add n more
  changed := f.changed || !more.isSubset (f.value.get n)

/-- Adds a nonterminal, and notes it if it is new. -/
def insert (nulls : Noted (Roster NonterminalId)) (n : NonterminalId) :
    Noted (Roster NonterminalId) where
  value := nulls.value.add n
  changed := nulls.changed || !nulls.value.contains n

/-- The next pass starts with nothing noted, if there was anything to note in this one. -/
def next {α : Type} (noted : Noted α) : Loop.Step α :=
  if noted.changed then .next noted.value else .last noted.value

/-- The family came from another one, and the note says whether it is another. -/
structure GrownFrom (start : TerminalFamily) (f : Noted TerminalFamily) : Prop where
  le : start ≤ f.value
  changed_iff : f.changed = true ↔ f.value ≠ start

theorem grownFrom_refl (f : TerminalFamily) : GrownFrom f ⟨f, false⟩ :=
  ⟨f.le_refl, by simp⟩

theorem GrownFrom.next_eq {start : TerminalFamily} {f : Noted TerminalFamily}
    (hf : GrownFrom start f) :
    f.next = if f.value = start then .last start else .next f.value := by
  unfold Noted.next
  by_cases hsame : f.value = start
  · rw [if_neg (by simp [hf.changed_iff, hsame]), if_pos hsame, hsame]
  · rw [if_pos (hf.changed_iff.mpr hsame), if_neg hsame]

theorem GrownFrom.add {start : TerminalFamily} {f : Noted TerminalFamily}
    (hf : GrownFrom start f) {n : NonterminalId} (hn : n.index < start.sets.size)
    (more : TerminalSet) : GrownFrom start (f.add n more) where
  le := TerminalFamily.le_trans _ _ _ hf.le (f.value.le_add n more)
  changed_iff := by
    rw [Noted.add, Bool.or_eq_true, hf.changed_iff, Bool.not_eq_true', ← Bool.not_eq_true,
      TerminalSet.isSubset_iff]
    constructor
    · rintro (hne | hnew) heq
      · refine hne (TerminalFamily.le_antisymm ?_ hf.le)
        exact heq ▸ f.value.le_add n more
      · refine hnew fun t ht => hf.le.2 n t ?_
        rw [← heq]
        exact TerminalFamily.mem_get_add.mpr (.inr ⟨rfl, hf.le.1 ▸ hn, ht⟩)
    · intro hne
      by_contra hnone
      obtain ⟨hsame, hsub⟩ := not_or.mp hnone
      refine hne ?_
      rw [TerminalFamily.add_of_subset (not_not.mp hsub)]
      exact not_not.mp hsame

end Noted

section Scans

variable (nulls : Roster NonterminalId) (firsts : TerminalFamily) (left : NonterminalId)

/-- Goes through a right-hand side and adds to FIRST of the left-hand side what it comes across. -/
def scanFirst : Noted TerminalFamily → List Symbol → Noted TerminalFamily
  | f, [] => f
  | f, .terminal t :: _ => f.add left (.singleton t)
  | f, .nonterminal n :: rest =>
    let next := if n = left then f else f.add left (f.value.get n)
    if nulls.contains n then scanFirst next rest else next

/-- Goes through what stands behind a nonterminal and adds to its FOLLOW set what it comes across.
Says too whether all of it is nullable. -/
def scanBehind (n : NonterminalId) :
    Noted TerminalFamily → List Symbol → Noted TerminalFamily × Bool
  | f, [] => (f, true)
  | f, .terminal t :: _ => (f.add n (.singleton t), false)
  | f, .nonterminal m :: rest =>
    let next := f.add n (firsts.get m)
    if nulls.contains m then scanBehind n next rest else (next, false)

/-- Goes through the nonterminals of a right-hand side. -/
def scanFollow : Noted TerminalFamily → List Symbol → Noted TerminalFamily
  | f, [] => f
  | f, .terminal _ :: rest => scanFollow f rest
  | f, .nonterminal n :: rest =>
    let (next, vanishes) := scanBehind nulls firsts n f rest
    scanFollow (if vanishes && n ≠ left then next.add n (next.value.get left) else next) rest

/-- Adds the left-hand side of a production that makes it nullable, unless it is there already. -/
def scanNullable (nulls : Noted (Roster NonterminalId)) (p : Production) :
    Noted (Roster NonterminalId) :=
  if nulls.value.contains p.left then nulls
  else if p.right.toList.all (·.isIn nulls.value) then nulls.insert p.left
  else nulls

end Scans

section First

variable {nulls : Roster NonterminalId} {left : NonterminalId}

theorem value_scanFirst (f : Noted TerminalFamily) (xs : List Symbol) :
    (scanFirst nulls left f xs).value =
      f.value.add left (firstOfSymbols nulls f.value xs) := by
  induction xs generalizing f with
  | nil =>
    exact (TerminalFamily.add_of_subset fun t ht => absurd ht (by simp [firstOfSymbols])).symm
  | cons x rest ih =>
    cases x with
    | terminal t => rfl
    | nonterminal n =>
      have hnext : (if n = left then f else f.add left (f.value.get n)).value =
          f.value.add left (f.value.get n) := by
        split
        next heq => exact (TerminalFamily.add_of_subset fun t ht => heq ▸ ht).symm
        next => rfl
      rw [scanFirst, firstOfSymbols]
      split
      next =>
        rw [ih, hnext, TerminalFamily.add_add]
        -- what the first addition brings to the rest is added to the same set already
        refine TerminalFamily.ext_of_mem (by simp) fun m t => ?_
        simp only [TerminalFamily.mem_get_add, TerminalSet.mem_union]
        refine or_congr_right (and_congr_right fun _ => and_congr_right fun _ => ?_)
        constructor
        · rintro (hn | hrest)
          · exact .inl hn
          · exact (TerminalFamily.mem_firstOfSymbols_of_add hrest).symm
        · exact Or.imp_right (TerminalFamily.mem_firstOfSymbols_mono (f.value.le_add left _))
      next => exact hnext

theorem Noted.GrownFrom.scanFirst {start : TerminalFamily} {f : Noted TerminalFamily}
    (hf : GrownFrom start f) (hleft : left.index < start.sets.size) (xs : List Symbol) :
    GrownFrom start (scanFirst nulls left f xs) := by
  induction xs generalizing f with
  | nil => exact hf
  | cons x rest ih =>
    cases x with
    | terminal t => exact hf.add hleft _
    | nonterminal n =>
      have hnext : GrownFrom start (if n = left then f else f.add left (f.value.get n)) := by
        split
        next => exact hf
        next => exact hf.add hleft _
      rw [ShiftReduce.scanFirst]
      split
      next => exact ih hnext
      next => exact hnext

end First

section Follow

variable {nulls : Roster NonterminalId} {firsts : TerminalFamily} {left : NonterminalId}

theorem value_scanBehind (n : NonterminalId) (f : Noted TerminalFamily) (xs : List Symbol) :
    (scanBehind nulls firsts n f xs).1.value =
      f.value.add n (firstOfSymbols nulls firsts xs) := by
  induction xs generalizing f with
  | nil =>
    exact (TerminalFamily.add_of_subset fun t ht => absurd ht (by simp [firstOfSymbols])).symm
  | cons x rest ih =>
    cases x with
    | terminal t => rfl
    | nonterminal m =>
      rw [scanBehind, firstOfSymbols]
      split
      next =>
        rw [ih]
        exact TerminalFamily.add_add f.value n _ _
      next => rfl

theorem vanishes_scanBehind (n : NonterminalId) (f : Noted TerminalFamily) (xs : List Symbol) :
    (scanBehind nulls firsts n f xs).2 = xs.all (·.isIn nulls) := by
  induction xs generalizing f with
  | nil => rfl
  | cons x rest ih =>
    cases x with
    | terminal t => rfl
    | nonterminal m =>
      rw [scanBehind, List.all_cons, Symbol.isIn]
      cases nulls.contains m with
      | true => exact ih _
      | false => rfl

/-- What an occurrence contributes in the end, with or without FOLLOW of the left-hand side. -/
theorem value_scanFollow (f : Noted TerminalFamily) (xs : List Symbol) :
    (scanFollow nulls firsts left f xs).value = addFollows nulls firsts left f.value xs := by
  induction xs generalizing f with
  | nil => rfl
  | cons x rest ih =>
    cases x with
    | terminal t => exact ih f
    | nonterminal n =>
      rw [scanFollow, ih, addFollows_nonterminal]
      congr 1
      simp only [vanishes_scanBehind]
      have hvalue : (scanBehind nulls firsts n f rest).1.value =
          f.value.add n (firstOfSymbols nulls firsts rest) := value_scanBehind n f rest
      unfold behind
      cases rest.all (·.isIn nulls) with
      | false => exact hvalue
      | true =>
        by_cases heq : n = left
        · subst heq
          simpa [TerminalFamily.add_union_get] using hvalue
        · have hleft : (f.value.add n (firstOfSymbols nulls firsts rest)).get left =
              f.value.get left := TerminalFamily.get_add_of_ne (Ne.symm heq) _
          simp [heq, Noted.add, hvalue, hleft, TerminalFamily.add_add]

theorem Noted.GrownFrom.scanBehind {start : TerminalFamily} {f : Noted TerminalFamily}
    (hf : GrownFrom start f) {n : NonterminalId} (hn : n.index < start.sets.size)
    (xs : List Symbol) : GrownFrom start (scanBehind nulls firsts n f xs).1 := by
  induction xs generalizing f with
  | nil => exact hf
  | cons x rest ih =>
    cases x with
    | terminal t => exact hf.add hn _
    | nonterminal m =>
      rw [ShiftReduce.scanBehind]
      split
      next => exact ih (hf.add hn _)
      next => exact hf.add hn _

theorem Noted.GrownFrom.scanFollow {start : TerminalFamily} {f : Noted TerminalFamily}
    (hf : GrownFrom start f) {xs : List Symbol}
    (hxs : ∀ n, .nonterminal n ∈ xs → n.index < start.sets.size) :
    GrownFrom start (scanFollow nulls firsts left f xs) := by
  induction xs generalizing f with
  | nil => exact hf
  | cons x rest ih =>
    have hrest : ∀ n, .nonterminal n ∈ rest → n.index < start.sets.size :=
      fun n hn => hxs n (List.mem_cons_of_mem _ hn)
    cases x with
    | terminal t => exact ih hf hrest
    | nonterminal n =>
      have hn := hxs n List.mem_cons_self
      have hbehind : GrownFrom start (ShiftReduce.scanBehind nulls firsts n f rest).1 :=
        hf.scanBehind hn rest
      rw [ShiftReduce.scanFollow]
      refine ih ?_ hrest
      split
      next => exact hbehind.add hn _
      next => exact hbehind

end Follow

section Nullable

/-- The roster is the one that it came from, or it has more members and this was noted. -/
inductive Noted.ExtendedFrom (start : Roster NonterminalId) :
    Noted (Roster NonterminalId) → Prop
  | same : ExtendedFrom start ⟨start, false⟩
  | more {nulls : Roster NonterminalId} (hlt : start.size < nulls.size) :
    ExtendedFrom start ⟨nulls, true⟩

theorem value_scanNullable (nulls : Noted (Roster NonterminalId)) (p : Production) :
    (scanNullable nulls p).value = Grammar.addNullable nulls.value p := by
  unfold scanNullable Grammar.addNullable
  split
  next hleft =>
    rw [Roster.add_of_mem (Roster.contains_iff.mp hleft), ite_self]
  next => split <;> rfl

theorem Noted.ExtendedFrom.scanNullable {start : Roster NonterminalId}
    {nulls : Noted (Roster NonterminalId)} (hnulls : ExtendedFrom start nulls) (p : Production) :
    ExtendedFrom start (scanNullable nulls p) := by
  unfold ShiftReduce.scanNullable
  split
  next => exact hnulls
  next hleft =>
    split
    next =>
      have hlist := Roster.toList_add_of_not_mem (mt Roster.contains_iff.mpr hleft)
      have hsize : (nulls.value.add p.left).size = nulls.value.size + 1 :=
        (congrArg List.length hlist).trans List.length_append
      have hinsert : nulls.insert p.left = ⟨nulls.value.add p.left, true⟩ := by
        simp [Noted.insert, hleft]
      rw [hinsert]
      refine .more (hsize ▸ Nat.lt_succ_of_le ?_)
      cases hnulls with
      | same => exact Nat.le_refl _
      | more hlt => exact Nat.le_of_lt hlt
    next => exact hnulls

end Nullable

namespace Grammar

variable (g : Grammar)

def nullableScans (nulls : Roster NonterminalId) : Noted (Roster NonterminalId) :=
  g.productions.toList.foldl scanNullable ⟨nulls, false⟩

def firstScans (nulls : Roster NonterminalId) (firsts : TerminalFamily) : Noted TerminalFamily :=
  g.productions.toList.foldl (fun f p => scanFirst nulls p.left f p.right.toList) ⟨firsts, false⟩

def followScans (nulls : Roster NonterminalId) (firsts follows : TerminalFamily) :
    Noted TerminalFamily :=
  g.productions.toList.foldl (fun f p => scanFollow nulls firsts p.left f p.right.toList)
    ⟨follows, false⟩

/-- Passes for the nullable nonterminals, as long as there are changes. -/
noncomputable def nullableLoop (seed : Roster NonterminalId) : Option (Roster NonterminalId) :=
  Loop.forever (fun nulls => some (g.nullableScans nulls).next) seed

noncomputable def firstLoop (nulls : Roster NonterminalId) : Option TerminalFamily :=
  Loop.forever (fun firsts => some (g.firstScans nulls firsts).next) (.empty g.nonterminals.size)

noncomputable def followLoop (nulls : Roster NonterminalId) (firsts : TerminalFamily) :
    Option TerminalFamily :=
  Loop.forever (fun follows => some (g.followScans nulls firsts follows).next) g.followStart

variable {g}

theorem value_firstScans (nulls : Roster NonterminalId) (firsts : TerminalFamily) :
    (g.firstScans nulls firsts).value = g.firstPass nulls firsts :=
  (List.foldl_hom Noted.value fun f p => (value_scanFirst f p.right.toList).symm).symm

theorem value_followScans (nulls : Roster NonterminalId) (firsts follows : TerminalFamily) :
    (g.followScans nulls firsts follows).value = g.followPass nulls firsts follows :=
  (List.foldl_hom Noted.value fun f p => (value_scanFollow f p.right.toList).symm).symm

theorem value_nullableScans (nulls : Roster NonterminalId) :
    (g.nullableScans nulls).value = g.nullablePass nulls :=
  (List.foldl_hom Noted.value fun f p => (value_scanNullable f p).symm).symm

/-- A loop that repeats such passes is the one that compares the families. -/
theorem next_firstScans (hg : g.InRange) {nulls : Roster NonterminalId} {firsts : TerminalFamily}
    (hsize : firsts.sets.size = g.nonterminals.size) :
    (g.firstScans nulls firsts).next = g.firstStep nulls firsts := by
  have hgrown : Noted.GrownFrom firsts (g.firstScans nulls firsts) := by
    unfold firstScans
    apply List.foldlRecOn _ _ (Noted.grownFrom_refl firsts)
    intro f hf production hproduction
    obtain ⟨p, hp, rfl⟩ := mem_toList_productions.mp hproduction
    exact hf.scanFirst (hsize ▸ mem_nonterminalIds.mp (hg.left_mem p hp)) _
  rw [hgrown.next_eq, value_firstScans]
  rfl

theorem next_followScans (hg : g.InRange) {nulls : Roster NonterminalId}
    {firsts follows : TerminalFamily} (hsize : follows.sets.size = g.nonterminals.size) :
    (g.followScans nulls firsts follows).next = g.followStep nulls firsts follows := by
  have hgrown : Noted.GrownFrom follows (g.followScans nulls firsts follows) := by
    unfold followScans
    apply List.foldlRecOn _ _ (Noted.grownFrom_refl follows)
    intro f hf production hproduction
    refine hf.scanFollow fun n hn => ?_
    have hsymbol := hg.hasSymbol_of_mentions _ (mentions_of_mem_productions hproduction hn)
    exact hsize ▸ mem_nonterminalIds.mp hsymbol
  rw [hgrown.next_eq, value_followScans]
  rfl

theorem next_nullableScans (nulls : Roster NonterminalId) :
    (g.nullableScans nulls).next = g.nullableStep nulls := by
  have hextended : Noted.ExtendedFrom nulls (g.nullableScans nulls) := by
    unfold nullableScans
    exact List.foldlRecOn _ _ .same fun f hf p _ => hf.scanNullable p
  unfold nullableStep
  rw [← value_nullableScans]
  generalize g.nullableScans nulls = noted at hextended
  cases hextended with
  | same => exact (if_pos rfl).symm
  | more hlt => exact (if_neg (Nat.ne_of_gt hlt)).symm

theorem nullableLoop_eq (seed : Roster NonterminalId) :
    g.nullableLoop seed = some (g.nullableClosure seed) := by
  refine Loop.forever_eq_run g.nullableStep (P := fun _ => True)
    (fun s _ => congrArg some (next_nullableScans s)) (fun _ _ _ _ => trivial) trivial ?_
  exact if_pos (nullablePass_nullableClosure seed)

/-- Passes leave the number of sets alone. -/
theorem size_of_passes {pass : TerminalFamily → TerminalFamily} (hgrow : ∀ f, f ≤ pass f)
    {f next : TerminalFamily}
    (hnext : (if pass f = f then Loop.Step.last f else .next (pass f)) = .next next) :
    next.sets.size = f.sets.size := by
  split at hnext
  next => cases hnext
  next =>
    obtain rfl := Loop.Step.next.inj hnext
    exact (hgrow f).1.symm

theorem firstLoop_eq (hg : g.InRange) (nulls : Roster NonterminalId) :
    g.firstLoop nulls = some (g.firstsWith nulls) := by
  refine Loop.forever_eq_run (g.firstStep nulls)
    (P := fun f => f.sets.size = g.nonterminals.size)
    (fun _ hs => congrArg some (next_firstScans hg hs)) ?_ (by simp [TerminalFamily.empty]) ?_
  · exact fun f next hf hnext => (size_of_passes le_firstPass hnext).trans hf
  · exact if_pos (hg.firstPass_firstsWith nulls).2

theorem followLoop_eq (hg : g.InRange) (nulls : Roster NonterminalId) (firsts : TerminalFamily) :
    g.followLoop nulls firsts = some (g.followsWith nulls firsts) := by
  refine Loop.forever_eq_run (g.followStep nulls firsts)
    (P := fun f => f.sets.size = g.nonterminals.size)
    (fun _ hs => congrArg some (next_followScans hg hs)) ?_
    (by simp [followStart, TerminalFamily.empty]) ?_
  · exact fun f next hf hnext => (size_of_passes le_followPass hnext).trans hf
  · exact if_pos (hg.followPass_followsWith nulls firsts).2

end Grammar

end ShiftReduce
