import ShiftReduce.Grammar.Basic
import ShiftReduce.Reduction.Placeholder

/-!
# Handlers

The handler of a production computes the value of its left-hand side. It has a parameter for each
symbol of the right-hand side, named only if the action mentions it. Productions of nonterminals
without a type have no handler.
-/

namespace ShiftReduce

inductive ParameterType where
  /-- The declared type of a nonterminal. -/
  | value (type : String)
  /-- A nonterminal without a type. -/
  | untyped
  /-- The text of a terminal. -/
  | token
deriving DecidableEq

structure Parameter where
  type : ParameterType
  name : Option String
deriving DecidableEq

structure Handler where
  production : ProductionId
  name : String
  returnType : String
  parameters : List Parameter
  /-- The semantic action with its placeholders replaced. -/
  body : String
deriving DecidableEq

namespace Grammar

variable (g : Grammar)

def parameterType : Symbol → ParameterType
  | .terminal _ => .token
  | .nonterminal n =>
    match (g.nonterminal n).resultType with
    | some type => .value type
    | none => .untyped

/-- The parameter for the symbol at a place, counted from zero; arguments count from one. -/
def parameter (body : String) (place : Nat) (x : Symbol) : Parameter where
  type := g.parameterType x
  name :=
    if Placeholder.mentions body (place + 1) then some (Placeholder.argument (place + 1)) else none

def handler? (p : ProductionId) (name : String) : Option Handler :=
  let production := g.production p
  (g.nonterminal production.left).resultType.map fun returnType =>
    let body := Placeholder.expand production.action
    { production := p, name, returnType, body
      parameters := production.right.toList.mapIdx (g.parameter body) }

end Grammar

end ShiftReduce
