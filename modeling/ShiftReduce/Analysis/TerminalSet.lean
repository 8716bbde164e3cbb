import ShiftReduce.Collection.BinaryOnes
import ShiftReduce.Grammar.Symbol

/-!
# Sets of terminals

A set of terminals is the natural number whose binary digits mark its members, so equality of sets
is equality of numbers and union is a bitwise operation. Members are listed by ascending number.
-/

namespace ShiftReduce

structure TerminalSet where
  bits : Nat
deriving DecidableEq

namespace TerminalSet

def empty : TerminalSet := ⟨0⟩

instance : EmptyCollection TerminalSet := ⟨empty⟩

instance : Inhabited TerminalSet := ⟨empty⟩

def contains (s : TerminalSet) (t : TerminalId) : Bool :=
  s.bits.testBit t.index

instance : Membership TerminalId TerminalSet := ⟨fun s t => s.contains t = true⟩

instance (s : TerminalSet) (t : TerminalId) : Decidable (t ∈ s) :=
  inferInstanceAs (Decidable (s.contains t = true))

def insert (s : TerminalSet) (t : TerminalId) : TerminalSet :=
  ⟨s.bits ||| 1 <<< t.index⟩

/-- Inserts a terminal, and says whether it was a member before. -/
def containsThenInsert (s : TerminalSet) (t : TerminalId) : Bool × TerminalSet :=
  (s.contains t, s.insert t)

def singleton (t : TerminalId) : TerminalSet :=
  insert ∅ t

def union (s other : TerminalSet) : TerminalSet :=
  ⟨s.bits ||| other.bits⟩

instance : Union TerminalSet := ⟨union⟩

/-- Whether every member of `s` is one of `other`. -/
def isSubset (s other : TerminalSet) : Bool :=
  s ∪ other == other

def ofList (ts : List TerminalId) : TerminalSet :=
  ts.foldl insert ∅

/-- The members by ascending number. -/
def toList (s : TerminalSet) : List TerminalId :=
  (binaryOnes s.bits).map TerminalId.mk

theorem mem_iff {s : TerminalSet} {t : TerminalId} : t ∈ s ↔ s.bits.testBit t.index = true :=
  Iff.rfl

theorem contains_iff {s : TerminalSet} {t : TerminalId} : s.contains t = true ↔ t ∈ s :=
  Iff.rfl

/-- Sets with the same members are equal. -/
theorem ext {s other : TerminalSet} (hmem : ∀ t, t ∈ s ↔ t ∈ other) : s = other := by
  obtain ⟨bits⟩ := s
  obtain ⟨bits'⟩ := other
  have hbits : bits = bits' :=
    Nat.eq_of_testBit_eq fun i => Bool.eq_iff_iff.mpr (hmem ⟨i⟩)
  rw [hbits]

@[simp] theorem not_mem_empty (t : TerminalId) : t ∉ (∅ : TerminalSet) := by
  change ¬ Nat.testBit 0 t.index = true
  simp

@[simp] theorem mem_insert {s : TerminalSet} {t other : TerminalId} :
    other ∈ s.insert t ↔ other = t ∨ other ∈ s := by
  obtain ⟨i⟩ := t
  obtain ⟨j⟩ := other
  simp only [mem_iff, insert, Nat.testBit_or, Nat.one_shiftLeft, Nat.testBit_two_pow,
    Bool.or_eq_true, decide_eq_true_eq, TerminalId.mk.injEq]
  rw [or_comm, eq_comm]

@[simp] theorem mem_singleton {t other : TerminalId} : other ∈ singleton t ↔ other = t := by
  simp [singleton]

@[simp] theorem mem_union {s other : TerminalSet} {t : TerminalId} :
    t ∈ s ∪ other ↔ t ∈ s ∨ t ∈ other := by
  change (s.bits ||| other.bits).testBit t.index = true ↔ _
  simp [Nat.testBit_or, mem_iff]

theorem isSubset_iff {s other : TerminalSet} :
    s.isSubset other = true ↔ ∀ t, t ∈ s → t ∈ other := by
  rw [isSubset, beq_iff_eq]
  constructor
  · intro heq t ht
    rw [← heq]
    exact mem_union.mpr (.inl ht)
  · intro hsub
    exact ext fun t => by
      rw [mem_union]
      exact ⟨fun h => h.elim (hsub t) id, .inr⟩

theorem mem_foldl_insert {ts : List TerminalId} {s : TerminalSet} {t : TerminalId} :
    t ∈ ts.foldl insert s ↔ t ∈ s ∨ t ∈ ts := by
  induction ts generalizing s with
  | nil => simp
  | cons first rest ih =>
    rw [List.foldl_cons, ih, mem_insert, List.mem_cons, or_assoc, or_left_comm]

@[simp] theorem mem_ofList {ts : List TerminalId} {t : TerminalId} : t ∈ ofList ts ↔ t ∈ ts := by
  simp [ofList, mem_foldl_insert]

@[simp] theorem mem_toList {s : TerminalSet} {t : TerminalId} : t ∈ s.toList ↔ t ∈ s := by
  obtain ⟨i⟩ := t
  simp [toList, mem_binaryOnes, mem_iff]

/-- The listing ascends strictly. -/
theorem pairwise_toList (s : TerminalSet) :
    s.toList.Pairwise fun t other => t.index < other.index := by
  rw [toList, List.pairwise_map]
  exact pairwise_binaryOnes s.bits

theorem nodup_toList (s : TerminalSet) : s.toList.Nodup := by
  refine List.nodup_iff_pairwise_ne.mpr (s.pairwise_toList.imp ?_)
  rintro t _ hlt rfl
  exact Nat.lt_irrefl _ hlt

end TerminalSet

end ShiftReduce
