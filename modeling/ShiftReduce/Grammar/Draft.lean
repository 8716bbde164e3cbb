import ShiftReduce.Collection.OrderedMap
import ShiftReduce.Grammar.Basic
import ShiftReduce.Grammar.Declaration
import ShiftReduce.Grammar.GrammarError

/-!
# Drafts

What has been declared so far, still by name and not yet checked as a whole. A declaration that is
refused leaves the draft as it was.
-/

namespace ShiftReduce

structure Rule where
  right : List String
  action : String
deriving DecidableEq, Inhabited

structure Draft where
  /-- The declared nonterminals in order of declaration, each with its rules in order. -/
  rules : OrderedMap String (Array Rule) := ∅
  resultTypes : OrderedMap String String := ∅
  priorities : Array String := #[]
  start : Option String := none
  settings : Settings := {}
deriving Inhabited

namespace Draft

def addNonterminal (d : Draft) (name : String) : Draft :=
  { d with rules := d.rules.alter name fun rules? => rules?.getD #[] }

def addRule (d : Draft) (left : String) (rule : Rule) : Draft :=
  { d with rules := d.rules.alter left fun rules? => (rules?.getD #[]).push rule }

/-- Adds one declaration; the goal's name is refused as a nonterminal and as the start symbol. -/
def declare (d : Draft) : Declaration → Except GrammarError Draft
  | .nonterminal name =>
    if name = goalName then .error (.reservedName name) else .ok (d.addNonterminal name)
  | .rule left right action =>
    if left = goalName then .error (.reservedName left) else .ok (d.addRule left ⟨right, action⟩)
  | .resultType nonterminal type =>
    .ok { d with resultTypes := d.resultTypes.insert nonterminal type }
  | .priority terminal => .ok { d with priorities := d.priorities.push terminal }
  | .start name =>
    if name = goalName then .error (.reservedName name) else .ok { d with start := some name }
  | .headerExtra line =>
    .ok { d with settings.headerExtras := d.settings.headerExtras ++ [line] }
  | .verbose on => .ok { d with settings.verbose := on }
  | .parserName name => .ok { d with settings.parserName := name }

/-- Adds declarations from left to right and stops at the first that is refused. -/
def declareAll (d : Draft) (declarations : List Declaration) : Except GrammarError Draft :=
  declarations.foldlM declare d

end Draft

end ShiftReduce
