import ShiftReduce.Grammar.Draft
import ShiftReduce.Grammar.Vocabulary

/-!
# From drafts to grammars

Building a draft checks it in a fixed order: start rules, start type, number of nonterminals,
number of terminals, and then rule by rule its length and the number of productions. Rules with the
same two sides collapse into the first of them.
-/

namespace ShiftReduce

/-- How many symbols of a kind, productions, or symbols of a right-hand side a grammar may have
beside the reserved ones. -/
def sizeLimit : Nat := 65535

/-- The productions of one nonterminal, numbered upwards from `first`. -/
structure Block where
  first : Nat
  /-- The action of each right-hand side. -/
  actions : OrderedMap (List Symbol) String
deriving Inhabited

namespace Block

def next (b : Block) : Nat :=
  b.first + b.actions.size

def ids (b : Block) : List ProductionId :=
  (List.range' b.first b.actions.size).map ProductionId.mk

def productions (b : Block) (left : NonterminalId) : List Production :=
  b.actions.toList.map fun (right, action) => ⟨left, right.toArray, action⟩

/-- Adds a rule of the nonterminal `name`, unless one with the same right-hand side is there. -/
def addRule (v : Vocabulary) (name : String) (b : Block) (rule : Rule) :
    Except GrammarError Block :=
  if rule.right.length > sizeLimit then .error (.tooManySymbols name rule.right.length)
  else
    let right := rule.right.map v.resolve
    if b.actions.contains right then .ok b
    else if b.next > sizeLimit then .error .tooManyProductions
    else .ok { b with actions := b.actions.insert right rule.action }

/-- Adds the block of the next nonterminal behind the blocks of those before it. -/
def append (v : Vocabulary) (blocks : Array Block) (entry : String × Array Rule) :
    Except GrammarError (Array Block) := do
  let first := (blocks.back?.map next).getD 1
  let block ← entry.2.toList.foldlM (addRule v entry.1) ⟨first, ∅⟩
  return blocks.push block

end Block

namespace Draft

variable (d : Draft)

/-- The declared start symbol, or else the nonterminal that was declared first. -/
def startName : Except GrammarError String :=
  match d.start, d.rules.keys.toList with
  | some name, _ => .ok name
  | none, name :: _ => .ok name
  | none, [] => .error .noNonterminals

def hasRules (name : String) : Bool :=
  (d.rules.get? name).any fun rules => !rules.isEmpty

/-- Every name on a right-hand side, with repetitions. -/
def mentioned : List String :=
  d.rules.values.toList.flatMap fun rules => rules.toList.flatMap (·.right)

/-- Result types in order of first declaration, each with a field of its own. -/
def fields : List (String × String) :=
  (distinct d.resultTypes.values.toList).zipIdx.map fun (type, i) =>
    (type, "field" ++ i.repr)

def terminalNamed (name : String) : Terminal where
  name := name
  priority := d.priorities.toList.idxOf? name

def nonterminalNamed (name : String) (block : Block) : Nonterminal where
  name := name
  resultType := d.resultTypes.get? name
  productions := block.ids

def vocabulary : Except GrammarError Vocabulary :=
  let nonterminals := Vocabulary.nonterminalsOf d.rules.keys.toList
  if nonterminals.size > sizeLimit + 1 then .error .tooManyNonterminals
  else
    let terminals := Vocabulary.terminalsOf nonterminals d.mentioned
    if terminals.size > sizeLimit + 1 then .error .tooManyTerminals
    else .ok ⟨nonterminals, terminals⟩

/-- The grammar of a draft, given the start symbol and its type, the names of all symbols, and the
block of each declared nonterminal. -/
def assemble (start startType : String) (v : Vocabulary) (blocks : List Block) : Grammar :=
  let startId := ⟨(v.nonterminals.idx? start).getD 0⟩
  let goal : Nonterminal := ⟨goalName, some startType, [.goal]⟩
  let goalProduction : Production := ⟨.goal, #[.nonterminal startId], ""⟩
  let declared := blocks.mapIdx fun i block => block.productions ⟨i + 1⟩
  { terminals := v.terminals.members.map d.terminalNamed
    nonterminals := (goal :: List.zipWith d.nonterminalNamed d.rules.keys.toList blocks).toArray
    productions := (goalProduction :: declared.flatten).toArray
    start := startId
    priorities := d.priorities.toList
    fields := d.fields
    settings := d.settings }

/-- Checks the draft and numbers its symbols and productions. -/
def build : Except GrammarError Grammar := do
  let start ← d.startName
  if !d.hasRules start then throw (.missingStartRules start)
  let some startType := d.resultTypes.get? start | throw (.missingStartType start)
  let v ← d.vocabulary
  let blocks ← d.rules.toList.foldlM (Block.append v) #[]
  return d.assemble start startType v blocks.toList

end Draft

/-- The grammar that a list of declarations describes. -/
def Grammar.ofDeclarations (declarations : List Declaration) : Except GrammarError Grammar := do
  (← Draft.declareAll {} declarations).build

end ShiftReduce
