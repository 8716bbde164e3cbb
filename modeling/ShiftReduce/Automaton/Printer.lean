import ShiftReduce.Automaton.Basic

/-!
# The text of an automaton
-/

namespace ShiftReduce

/-- State numbers have at least three digits, as in `S#007`. -/
def stateText (id : StateId) : String :=
  let digits := Nat.toDigits 10 id
  "S#" ++ String.ofList (List.replicate (3 - digits.length) '0' ++ digits)

def stateHeading (id : StateId) : String :=
  "#### State " ++ stateText id ++ "\n"

def State.text (g : Grammar) (s : State) : String :=
  let items := "## items:\n" ++ unlines (s.items.map fun item => "- " ++ item.text g)
  if s.transitions.toList.isEmpty then items
  else items ++ "## transitions:\n" ++
    unlines (s.transitions.toList.map fun (x, target) =>
      "- " ++ g.symbolName x ++ " => " ++ stateText target)

/-- The states by number, with an empty line between them. -/
def Automaton.text (g : Grammar) (a : Automaton) : String :=
  "\n".intercalate (a.states.toList.mapIdx fun id s => stateHeading id ++ s.text g)

end ShiftReduce
