import ShiftReduce.CommandLine.Options
import ShiftReduce.Grammar.Load
import ShiftReduce.Report.Compilation
import ShiftReduce.Text.Quoted
import ShiftReduce.Volume.Path

/-!
# The command line

Reads a grammar file, writes the artifact and, if it is asked for, the report next to it. Warnings
go to standard output. A run that fails says what it was about to do and why that failed.
-/

namespace ShiftReduce.CommandLine

inductive Failure where
  | usage (error : UsageError)
  | findInput (error : FileError)
  | loadGrammar (path : String) (error : LoadError)
  | writeArtifact (path : String) (error : FileError)
  | writeReport (error : FileError)
deriving DecidableEq

namespace Failure

/-- The further lines of a cause are indented as far as its first. -/
def indented (cause : String) : String :=
  String.ofList (cause.toList.flatMap fun c => if c = '\n' then "\n    ".toList else [c])

def withCause (context cause : String) : String :=
  "Error: " ++ context ++ "\n\nCaused by:\n    " ++ indented cause ++ "\n"

def message : Failure → String
  | usage error => "error: " ++ error.message ++ "\n"
  | findInput error => withCause "failed to canonicalize the input file name" error.message
  | loadGrammar path error => withCause ("failed to load grammar from " ++ path) error.message
  | writeArtifact path error =>
    withCause ("failed to write the artifact to " ++ path) error.message
  | writeReport error => withCause "writing .automaton" error.message

def exitCode : Failure → UInt32
  | usage _ => 2
  | _ => 1

end Failure

/-- What a run says, and how it failed if it did. -/
structure Outcome where
  output : String := ""
  failure : Option Failure := none

def Outcome.exitCode (o : Outcome) : UInt32 :=
  match o.failure with
  | none => 0
  | some failure => failure.exitCode

def versionText : String := "tabula-cli 0.0.0-dev\n"

def helpText : String :=
  "Usage: tabula [OPTIONS] <INPUT>\n\n" ++
  "Arguments:\n" ++
  "  <INPUT>  The path of grammar definition file\n\n" ++
  "Options:\n" ++
  "  -o, --output <OUTPUT>  Where to write the generated artifact. " ++
  "Defaults to `<input>.artifact.json`\n" ++
  "      --automaton        Also dump the sets, states and conflicts next to the artifact\n" ++
  "      --compact          Emit the artifact without pretty printing\n" ++
  "  -h, --help             Print help\n" ++
  "  -V, --version          Print version\n"

/-- The file for the report that belongs to an artifact. -/
def reportPath (artifactPath : String) : String :=
  Path.withExtension artifactPath "automaton"

def artifactPath (o : Options) (input : String) : String :=
  o.output.getD (Path.withExtension input "artifact.json")

/-- The warnings of a run, and where to find more about conflicts if a report is written. -/
def warnings (d : Diagnostics) (report : Option String) : String :=
  let empty :=
    if d.emptyNonterminals.isEmpty then ""
    else "[warning] The following nonterminals have no associated production rule: " ++
      Text.quotedList d.emptyNonterminals ++ "\n"
  let conflicts := unlines (d.conflicts.map fun c => "[warning] " ++ c.text)
  match report with
  | some path =>
    if d.conflicts.isEmpty then empty ++ conflicts
    else empty ++ conflicts ++ "See " ++ path ++ " for details.\n"
  | none => empty ++ conflicts

def layout (o : Options) : Json.Layout :=
  if o.compact then .compact else .pretty

variable {m : Type → Type} [Monad m]

/-- Writes the artifact and then the report. -/
def writeResults (fs : FileSystem m) (o : Options) (g : Grammar) (artifactPath : String) :
    m Outcome := do
  let result := g.compile
  let reportPath := reportPath artifactPath
  let output := warnings result.diagnostics (if o.automaton then some reportPath else none)
  match ← fs.write artifactPath (result.artifact.text (layout o)).toUTF8 with
  | .error error => return { output, failure := some (.writeArtifact artifactPath error) }
  | .ok () =>
    if o.automaton then
      match ← fs.write reportPath (result.report g).toUTF8 with
      | .error error => return { output, failure := some (.writeReport error) }
      | .ok () => return { output }
    else return { output }

def runWith (fs : FileSystem m) (o : Options) : m Outcome := do
  match ← fs.canonicalize o.input with
  | .error error => return { failure := some (.findInput error) }
  | .ok input =>
    match ← Grammar.ofFile fs input with
    | .error error => return { failure := some (.loadGrammar input error) }
    | .ok g => writeResults fs o g (artifactPath o input)

/-- Does what the arguments ask for. -/
def run (fs : FileSystem m) (args : List String) : m Outcome :=
  match parse args with
  | .error error => return { failure := some (.usage error) }
  | .ok .help => return { output := helpText }
  | .ok .version => return { output := versionText }
  | .ok (.run options) => runWith fs options

end ShiftReduce.CommandLine
