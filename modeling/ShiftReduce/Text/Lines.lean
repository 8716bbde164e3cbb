/-!
# Lines of text

Texts are put together from lines, each ended by a line break, and from parts with a separator
between neighbours.
-/

namespace ShiftReduce

/-- The lines one after the other, each with its line break. -/
def unlines (lines : List String) : String :=
  String.join (lines.map (· ++ "\n"))

/-- The words, each behind a blank. -/
def spaced (words : List String) : String :=
  String.join (words.map (" " ++ ·))

end ShiftReduce
