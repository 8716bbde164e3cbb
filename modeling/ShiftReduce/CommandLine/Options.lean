/-!
# Command-line options

The arguments are read from left to right: the input, an output file, and two switches, each at most
once. A request for the help or the version is met at once, and so is a fault.
-/

namespace ShiftReduce.CommandLine

structure Options where
  input : String
  output : Option String := none
  automaton : Bool := false
  compact : Bool := false
deriving DecidableEq

inductive Request where
  | run (options : Options)
  | help
  | version
deriving DecidableEq

inductive UsageError where
  | unknownOption (text : String)
  | repeatedOption (name : String)
  | missingValue (name : String)
  /-- A switch was given a value. -/
  | unexpectedValue (name : String)
  | emptyInput
  | extraInput (text : String)
  | missingInput
deriving DecidableEq

namespace UsageError

def message : UsageError → String
  | unknownOption text => "unknown option " ++ text
  | repeatedOption name => "the option " ++ name ++ " was given more than once"
  | missingValue name => "the option " ++ name ++ " needs a value"
  | unexpectedValue name => "the option " ++ name ++ " takes no value"
  | emptyInput => "the input is empty"
  | extraInput text => "there is more than one input: " ++ text
  | missingInput => "the input is missing"

end UsageError

/-- What has been given so far. -/
structure Given where
  input : Option String := none
  output : Option String := none
  automaton : Bool := false
  compact : Bool := false

namespace Given

def setInput (g : Given) (text : String) : Except UsageError Given :=
  if g.input.isSome then .error (.extraInput text)
  else if text = "" then .error .emptyInput
  else .ok { g with input := some text }

def setOutput (g : Given) (text : String) : Except UsageError Given :=
  if g.output.isSome then .error (.repeatedOption "--output")
  else if text = "" then .error (.missingValue "--output")
  else .ok { g with output := some text }

def setAutomaton (g : Given) (value : Option String) : Except UsageError Given :=
  if value.isSome then .error (.unexpectedValue "--automaton")
  else if g.automaton then .error (.repeatedOption "--automaton")
  else .ok { g with automaton := true }

def setCompact (g : Given) (value : Option String) : Except UsageError Given :=
  if value.isSome then .error (.unexpectedValue "--compact")
  else if g.compact then .error (.repeatedOption "--compact")
  else .ok { g with compact := true }

def finish (g : Given) : Except UsageError Request :=
  match g.input with
  | none => .error .missingInput
  | some input =>
    .ok (.run { input, output := g.output, automaton := g.automaton, compact := g.compact })

end Given

/-- What one argument is. -/
inductive Argument where
  | input (text : String)
  | endOfOptions
  | help
  | version
  /-- The output option, with its value if the same argument has it. -/
  | output (value : Option String)
  | automaton (value : Option String)
  | compact (value : Option String)
  | fault (error : UsageError)

namespace Argument

/-- A long option, without its dashes. -/
def ofLong (name : String) (value : Option String) : Argument :=
  if name = "output" then output value
  else if name = "automaton" then automaton value
  else if name = "compact" then compact value
  else if name = "help" then
    if value.isSome then fault (.unexpectedValue "--help") else help
  else if name = "version" then
    if value.isSome then fault (.unexpectedValue "--version") else version
  else fault (.unknownOption ("--" ++ name))

/-- A short option by its letter, with what follows the letter. -/
def ofShort (letter : Char) (rest : List Char) : Argument :=
  if letter = 'h' then help
  else if letter = 'V' then version
  else if letter = 'o' then
    match rest with
    | [] => output none
    | '=' :: value => output (some (String.ofList value))
    | value => output (some (String.ofList value))
  else fault (.unknownOption ("-" ++ String.singleton letter))

def ofText (text : String) : Argument :=
  match text.toList with
  | ['-', '-'] => endOfOptions
  | '-' :: '-' :: long =>
    let name := String.ofList (long.takeWhile (· ≠ '='))
    match long.dropWhile (· ≠ '=') with
    | [] => ofLong name none
    | _ :: value => ofLong name (some (String.ofList value))
  | '-' :: letter :: rest => ofShort letter rest
  | _ => input text

end Argument

/-- Whether an argument can be the value of the option before it. -/
def canBeValue (text : String) : Bool :=
  text = "-" || text.toList.head? != some '-'

/-- Reads the arguments that are left. -/
def parseFrom (g : Given) : List String → Except UsageError Request
  | [] => g.finish
  | text :: rest =>
    match Argument.ofText text with
    | .input text => do parseFrom (← g.setInput text) rest
    | .endOfOptions => do (← rest.foldlM Given.setInput g).finish
    | .help => .ok .help
    | .version => .ok .version
    | .automaton value => do parseFrom (← g.setAutomaton value) rest
    | .compact value => do parseFrom (← g.setCompact value) rest
    | .output (some value) => do parseFrom (← g.setOutput value) rest
    | .output none =>
      match rest with
      | [] => .error (.missingValue "--output")
      | value :: rest =>
        if canBeValue value then do parseFrom (← g.setOutput value) rest
        else .error (.missingValue "--output")
    | .fault error => .error error

def parse (args : List String) : Except UsageError Request :=
  parseFrom {} args

end ShiftReduce.CommandLine
