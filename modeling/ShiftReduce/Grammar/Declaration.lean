/-!
# Declarations

A grammar is described by declarations, each of which adds one thing to what was declared before.
-/

namespace ShiftReduce

inductive Declaration where
  | nonterminal (name : String)
  /-- A production of `left`, which declares `left` as well. -/
  | rule (left : String) (right : List String) (action : String)
  /-- The type of a nonterminal's values; a later one replaces an earlier one. -/
  | resultType (nonterminal : String) (type : String)
  /-- The terminal that binds less tightly than those mentioned before it. -/
  | priority (terminal : String)
  | start (name : String)
  | headerExtra (line : String)
  | verbose (on : Bool)
  | parserName (name : String)
deriving DecidableEq, Inhabited

end ShiftReduce
