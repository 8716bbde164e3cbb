import ShiftReduce.Artifact.Basic
import ShiftReduce.Json.Printer

/-!
# Artifacts as JSON

Each record is an object with its fields in order. Alternatives are told apart by a member `action`
or `kind`; names that are absent are null. Production numbers are left out.
-/

namespace ShiftReduce

namespace ParameterType

def toJson : ParameterType → Json
  | value type => .object [("kind", .string "value"), ("type", .string type)]
  | untyped => .object [("kind", .string "untyped")]
  | token => .object [("kind", .string "token")]

end ParameterType

def Parameter.toJson (p : Parameter) : Json :=
  .object [("type", p.type.toJson), ("name", .optional p.name)]

def Handler.toJson (h : Handler) : Json :=
  .object [
    ("name", .string h.name),
    ("return_type", .string h.returnType),
    ("params", .array (h.parameters.map Parameter.toJson)),
    ("body", .string h.body)]

namespace ThunkArgument

def toJson : ThunkArgument → Json
  | field cell name =>
    .object [("kind", .string "field"), ("cell", .number cell), ("field", .string name)]
  | default => .object [("kind", .string "default")]
  | token cell => .object [("kind", .string "token"), ("cell", .number cell)]

end ThunkArgument

def HandlerCall.toJson (c : HandlerCall) : Json :=
  .object [
    ("field", .string c.field),
    ("handler", .string c.handler),
    ("args", .array (c.arguments.map ThunkArgument.toJson))]

def Thunk.toJson (t : Thunk) : Json :=
  .object [
    ("name", .string t.name),
    ("nonterminal", .string t.nonterminal),
    ("params", .array (t.parameters.map Json.optional)),
    ("call", match t.call with
      | none => .null
      | some call => call.toJson)]

namespace EntryAction

/-- The members that an action adds to those of its entry. -/
def members : EntryAction → List (String × Json)
  | shift target => [("action", .string "shift"), ("target", .number target)]
  | reduce nonterminal arity thunk =>
    [("action", .string "reduce"), ("nonterminal", .string nonterminal),
      ("arity", .number arity), ("thunk", .string thunk)]
  | accept => [("action", .string "accept")]

end EntryAction

def TableEntry.toJson (e : TableEntry) : Json :=
  .object ([("symbol", .string e.symbol), ("terminal", .boolean e.terminal)] ++ e.action.members)

namespace Artifact

def toJson (a : Artifact) : Json :=
  .object [
    ("parser_name", .string a.parserName),
    ("verbose", .boolean a.verbose),
    ("header_extras", .strings a.headerExtras),
    ("return_type", .string a.returnType),
    ("return_field", .string a.returnField),
    ("nonterminals", .strings a.nonterminals),
    ("fields", .object (a.fields.map fun (type, field) => (type, .string field))),
    ("action_table", .array (a.actionTable.map fun row => .array (row.map TableEntry.toJson))),
    ("handlers", .array (a.handlers.map Handler.toJson)),
    ("thunks", .array (a.thunks.map Thunk.toJson))]

def text (a : Artifact) (layout : Json.Layout) : String :=
  a.toJson.toText layout

end Artifact

end ShiftReduce
