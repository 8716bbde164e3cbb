import ShiftReduce.Collection.Order

/-!
# Symbols

The numbers by which a grammar refers to its terminals, nonterminals and productions, and the
symbols that stand on right-hand sides. Number 0 is reserved in each kind: the end of input, the
goal that wraps the declared start symbol, and the goal's only production. All are ordered by
number, so that collections can find them.
-/

namespace ShiftReduce

structure TerminalId where
  index : Nat
deriving DecidableEq, Inhabited

structure NonterminalId where
  index : Nat
deriving DecidableEq, Inhabited

structure ProductionId where
  index : Nat
deriving DecidableEq, Inhabited

inductive Symbol where
  | terminal (id : TerminalId)
  | nonterminal (id : NonterminalId)
deriving DecidableEq, Inhabited

/-- The terminal that follows the last token of every input. -/
def TerminalId.endOfInput : TerminalId := ⟨0⟩

def NonterminalId.goal : NonterminalId := ⟨0⟩

/-- The production of the goal, whose right-hand side is the start symbol alone. -/
def ProductionId.goal : ProductionId := ⟨0⟩

def endOfInputName : String := "SCAN_EOF"

/-- The name of the goal, which no declaration may use for a nonterminal. -/
def goalName : String := "_parserInternalStart"

namespace Symbol

def isTerminal : Symbol → Bool
  | terminal _ => true
  | nonterminal _ => false

/-- The nonterminal, if the symbol is one. -/
def nonterminal? : Symbol → Option NonterminalId
  | terminal _ => none
  | nonterminal id => some id

/-- One number for both kinds of symbols, even for terminals and odd for nonterminals. -/
def code : Symbol → Nat
  | terminal id => 2 * id.index
  | nonterminal id => 2 * id.index + 1

theorem eq_of_code_eq (x y : Symbol) (hcode : x.code = y.code) : x = y := by
  rcases x with ⟨⟨i⟩⟩ | ⟨⟨i⟩⟩ <;> rcases y with ⟨⟨j⟩⟩ | ⟨⟨j⟩⟩ <;> simp only [code] at hcode
  · obtain rfl : i = j := by omega
    rfl
  · omega
  · omega
  · obtain rfl : i = j := by omega
    rfl

end Symbol

instance : Ord NonterminalId := ⟨compareOn NonterminalId.index⟩

instance : Std.TransOrd NonterminalId :=
  inferInstanceAs (Std.TransCmp (compareOn NonterminalId.index))

instance : Std.LawfulEqOrd NonterminalId :=
  lawfulEqCmp_compareOn fun ⟨_⟩ ⟨_⟩ heq => congrArg NonterminalId.mk heq

instance : Ord ProductionId := ⟨compareOn ProductionId.index⟩

instance : Std.TransOrd ProductionId :=
  inferInstanceAs (Std.TransCmp (compareOn ProductionId.index))

instance : Std.LawfulEqOrd ProductionId :=
  lawfulEqCmp_compareOn fun ⟨_⟩ ⟨_⟩ heq => congrArg ProductionId.mk heq

instance : Ord Symbol := ⟨compareOn Symbol.code⟩

instance : Std.TransOrd Symbol :=
  inferInstanceAs (Std.TransCmp (compareOn Symbol.code))

instance : Std.LawfulEqOrd Symbol :=
  lawfulEqCmp_compareOn Symbol.eq_of_code_eq

end ShiftReduce
