import ShiftReduce.Grammar.Basic
import ShiftReduce.Text.Lines

/-!
# The text of a grammar

Productions are written as in `E -> E + T`. A whole grammar lists its terminals, nonterminals and
productions by number, and its fields if there are any.
-/

namespace ShiftReduce.Grammar

variable (g : Grammar)

def productionText (id : ProductionId) : String :=
  (g.nonterminal (g.production id).left).name ++ " ->" ++
    spaced ((g.production id).right.toList.map g.symbolName)

def terminalText (t : Terminal) : String :=
  match t.priority with
  | none => t.name
  | some priority => t.name ++ " (priority=" ++ priority.repr ++ ")"

def nonterminalText (id : NonterminalId) : String :=
  let n := g.nonterminal id
  let typed := match n.resultType with
    | none => n.name
    | some type => n.name ++ ": " ++ type
  if id = g.start then typed ++ " (start)" else typed

def fieldsText : String :=
  if g.fields.isEmpty then ""
  else "\n## fields:\n" ++ unlines (g.fields.map fun (type, field) => type ++ " " ++ field)

def text : String :=
  "## terminals:\n" ++ unlines (g.terminals.toList.map terminalText) ++
  "\n## nonterminals:\n" ++ unlines (g.nonterminalIds.map g.nonterminalText) ++
  "\n## productions:\n" ++ unlines (g.productionIds.map g.productionText) ++
  g.fieldsText

end ShiftReduce.Grammar
