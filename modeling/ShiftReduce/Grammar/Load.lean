import ShiftReduce.Grammar.RecordReader
import ShiftReduce.Volume.FileSystem

/-!
# Loading grammars

A grammar can be given as a record, as the JSON text of a record, or as a file with such a text.
-/

namespace ShiftReduce

inductive LoadError where
  | file (error : FileError)
  | text (error : Json.DecodeError)
  | grammar (error : GrammarError)
deriving DecidableEq

namespace LoadError

def message : LoadError → String
  | file error => "IO error: " ++ error.message
  | text error => "Syntax error: " ++ error.message
  | grammar error => error.message

end LoadError

namespace Grammar

def ofRecord (r : GrammarRecord) : Except LoadError Grammar :=
  r.toGrammar.mapError .grammar

def ofJson (text : String) : Except LoadError Grammar :=
  match GrammarRecord.ofJson text with
  | .error error => .error (.text error)
  | .ok record => ofRecord record

/-- The grammar that the content of a file describes. -/
def ofContent (content : ByteArray) : Except LoadError Grammar :=
  match String.fromUTF8? content with
  | none => .error (.file .invalidText)
  | some text => ofJson text

def ofFile {m : Type → Type} [Monad m] (fs : FileSystem m) (path : String) :
    m (Except LoadError Grammar) := do
  match ← fs.read path with
  | .error error => return .error (.file error)
  | .ok content => return ofContent content

end Grammar

end ShiftReduce
