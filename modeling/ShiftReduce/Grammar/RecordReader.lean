import ShiftReduce.Grammar.Record
import ShiftReduce.Json.TypedReader

/-!
# Grammar records as JSON

The written form of a grammar record: a map from field names, or the sequence of the fields in the
order of `GrammarRecord`. All but the grammar and its start symbol may be left out; fields that the
record does not have are passed over.
-/

namespace ShiftReduce

open Json Json.Reader

namespace Rule

def recordName : String := "ProductionInput"

/-- The fields that have been met of a rule. -/
structure Fields where
  right : Option (List String) := none
  action : Option String := none

namespace Fields

def member (f : Fields) (key : String) : Reader Fields :=
  match key with
  | "production" => return { f with right := ← field key f.right (sequenceOf string) }
  | "code" => return { f with action := ← field key f.action string }
  | _ => unknownMember f

def finish (f : Fields) : Reader Rule := do
  return { right := ← required "production" f.right, action := f.action.getD "" }

end Fields

def ofSequence : Reader Rule := do
  let right ← requiredElement recordName 2 0 (sequenceOf string)
  let action ← optionalElement "" string
  return { right, action }

def reader : Reader Rule :=
  record {
    name := recordName
    fields := 2
    ofSequence := ofSequence
    start := {}
    member := Fields.member
    finish := Fields.finish
  }

end Rule

namespace GrammarRecord

def recordName : String := "GrammarInput"

def rulesReader : Reader (List (String × List Rule)) := do
  return (← mapOf (sequenceOf Rule.reader)).toList

def resultTypesReader : Reader (List (String × String)) := do
  return (← mapOf string).toList

/-- The fields that have been met of a grammar record. -/
structure Fields where
  rules : Option (List (String × List Rule)) := none
  start : Option String := none
  priorities : Option (List String) := none
  resultTypes : Option (List (String × String)) := none
  headerExtras : Option (List String) := none
  verbose : Option Bool := none
  parserName : Option String := none

namespace Fields

def member (f : Fields) (key : String) : Reader Fields :=
  match key with
  | "grammar" => return { f with rules := ← field key f.rules rulesReader }
  | "start-symbol" => return { f with start := ← field key f.start string }
  | "priorities" => return { f with priorities := ← field key f.priorities (sequenceOf string) }
  | "nonterminal-types" =>
    return { f with resultTypes := ← field key f.resultTypes resultTypesReader }
  | "header-extras" =>
    return { f with headerExtras := ← field key f.headerExtras (sequenceOf string) }
  | "verbose" => return { f with verbose := ← field key f.verbose boolean }
  | "parser-name" => return { f with parserName := ← field key f.parserName string }
  | _ => unknownMember f

def finish (f : Fields) : Reader GrammarRecord := do
  let rules ← required "grammar" f.rules
  let start ← required "start-symbol" f.start
  return {
    rules, start
    priorities := f.priorities.getD []
    resultTypes := f.resultTypes.getD []
    headerExtras := f.headerExtras.getD []
    verbose := f.verbose.getD false
    parserName := f.parserName.getD ""
  }

end Fields

def ofSequence : Reader GrammarRecord := do
  let rules ← requiredElement recordName 7 0 rulesReader
  let start ← requiredElement recordName 7 1 string
  let priorities ← optionalElement [] (sequenceOf string)
  let resultTypes ← optionalElement [] resultTypesReader
  let headerExtras ← optionalElement [] (sequenceOf string)
  let verbose ← optionalElement false boolean
  let parserName ← optionalElement "" string
  return { rules, start, priorities, resultTypes, headerExtras, verbose, parserName }

def reader : Reader GrammarRecord :=
  record {
    name := recordName
    fields := 7
    ofSequence := ofSequence
    start := {}
    member := Fields.member
    finish := Fields.finish
  }

/-- The record that a JSON text denotes. -/
def ofJson (text : String) : Except DecodeError GrammarRecord :=
  reader.run text.toList

end GrammarRecord

end ShiftReduce
