import ShiftReduce.Grammar.Symbol

/-!
# Grammars

A validated grammar: numbered terminals, nonterminals and productions, the start symbol, and what
the generated parser needs beside them. Lookups by number are total; a number that the grammar does
not have stands for an empty production of the goal or a nameless symbol.
-/

namespace ShiftReduce

structure Terminal where
  name : String
  /-- The place of its first mention in the priority list. -/
  priority : Option Nat
deriving Inhabited

structure Nonterminal where
  name : String
  /-- The type of the semantic value that the nonterminal carries. -/
  resultType : Option String
  productions : List ProductionId
deriving Inhabited

structure Production where
  left : NonterminalId
  right : Array Symbol
  /-- The semantic action, with its placeholders as they were written. -/
  action : String
deriving Inhabited

/-- What is handed on to the generated parser unread. -/
structure Settings where
  headerExtras : List String := []
  verbose : Bool := false
  parserName : String := ""
deriving Inhabited

structure Grammar where
  terminals : Array Terminal
  nonterminals : Array Nonterminal
  productions : Array Production
  start : NonterminalId
  /-- Terminal names, the tightest binding first. -/
  priorities : List String
  /-- Each result type with the name of the field that stores its values. -/
  fields : List (String × String)
  settings : Settings
deriving Inhabited

namespace Grammar

variable (g : Grammar)

def terminal (id : TerminalId) : Terminal :=
  g.terminals.getD id.index default

def nonterminal (id : NonterminalId) : Nonterminal :=
  g.nonterminals.getD id.index default

def production (id : ProductionId) : Production :=
  g.productions.getD id.index default

def terminalIds : List TerminalId :=
  (List.range g.terminals.size).map TerminalId.mk

def nonterminalIds : List NonterminalId :=
  (List.range g.nonterminals.size).map NonterminalId.mk

def productionIds : List ProductionId :=
  (List.range g.productions.size).map ProductionId.mk

def symbolName : Symbol → String
  | .terminal id => (g.terminal id).name
  | .nonterminal id => (g.nonterminal id).name

/-- The symbol with a name; a nonterminal is preferred to a terminal of the same name. -/
def symbol? (name : String) : Option Symbol :=
  match g.nonterminals.findIdx? (·.name == name) with
  | some i => some (.nonterminal ⟨i⟩)
  | none => (g.terminals.findIdx? (·.name == name)).map fun i => .terminal ⟨i⟩

/-- The type of the value that the whole parser returns. -/
def returnType : String :=
  (g.nonterminal .goal).resultType.getD ""

/-- The field that stores the value of a nonterminal, if it has a type. -/
def field? (id : NonterminalId) : Option String :=
  (g.nonterminal id).resultType.bind fun type => g.fields.lookup type

/-- The priority of a terminal; nonterminals have none. -/
def symbolPriority? : Symbol → Option Nat
  | .terminal id => (g.terminal id).priority
  | .nonterminal _ => none

/--
The rank of a production is the priority of the leftmost terminal that has one. Without such a
terminal it is the worst rank, the length of the priority list.
-/
def rank (id : ProductionId) : Nat :=
  ((g.production id).right.toList.findSome? g.symbolPriority?).getD g.priorities.length

/-- The names that a production is made of, its left-hand side first. -/
def productionNames (id : ProductionId) : List String :=
  (g.nonterminal (g.production id).left).name :: (g.production id).right.toList.map g.symbolName

end Grammar

end ShiftReduce
