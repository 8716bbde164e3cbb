import ShiftReduce.Analysis.Basic
import ShiftReduce.Analysis.First
import ShiftReduce.Analysis.Follow
import ShiftReduce.Analysis.Nullable
import ShiftReduce.Analysis.TerminalFamily
import ShiftReduce.Analysis.TerminalSet
import ShiftReduce.Artifact.Basic
import ShiftReduce.Artifact.Json
import ShiftReduce.Automaton.Basic
import ShiftReduce.Automaton.Item
import ShiftReduce.Automaton.ItemSet
import ShiftReduce.Automaton.Printer
import ShiftReduce.Collection.BinaryOnes
import ShiftReduce.Collection.Entries
import ShiftReduce.Collection.Grouping
import ShiftReduce.Collection.Order
import ShiftReduce.Collection.OrderedMap
import ShiftReduce.Collection.Roster
import ShiftReduce.Collection.Sort
import ShiftReduce.CommandLine.Options
import ShiftReduce.CommandLine.Run
import ShiftReduce.Decimal.Binary64
import ShiftReduce.Decimal.Layout
import ShiftReduce.Decimal.Shortest
import ShiftReduce.Grammar.Basic
import ShiftReduce.Grammar.Build
import ShiftReduce.Grammar.Declaration
import ShiftReduce.Grammar.Draft
import ShiftReduce.Grammar.GrammarError
import ShiftReduce.Grammar.Load
import ShiftReduce.Grammar.Printer
import ShiftReduce.Grammar.Record
import ShiftReduce.Grammar.RecordReader
import ShiftReduce.Grammar.Symbol
import ShiftReduce.Grammar.Vocabulary
import ShiftReduce.Json.DecodeError
import ShiftReduce.Json.NumberReader
import ShiftReduce.Json.Printer
import ShiftReduce.Json.Reader
import ShiftReduce.Json.Skip
import ShiftReduce.Json.StringReader
import ShiftReduce.Json.TypedReader
import ShiftReduce.Json.Value
import ShiftReduce.Loop
import ShiftReduce.Main
import ShiftReduce.Reduction.Handler
import ShiftReduce.Reduction.Name
import ShiftReduce.Reduction.Placeholder
import ShiftReduce.Reduction.Plans
import ShiftReduce.Reduction.Thunk
import ShiftReduce.Report.Compilation
import ShiftReduce.Report.Diagnostics
import ShiftReduce.Table.Action
import ShiftReduce.Table.Fill
import ShiftReduce.Table.Printer
import ShiftReduce.Text.Lines
import ShiftReduce.Text.Quoted
import ShiftReduce.Text.Unprintable
import ShiftReduce.Volume.Basic
import ShiftReduce.Volume.FileError
import ShiftReduce.Volume.FileSystem
import ShiftReduce.Volume.Path
import ShiftReduce.Proofs.Checked
import ShiftReduce.Proofs.Grammar.Draft
import ShiftReduce.Proofs.Grammar.WellFormed
import ShiftReduce.Proofs.Grammar.Block
import ShiftReduce.Proofs.Grammar.Build
import ShiftReduce.Proofs.Automaton.ItemOrder
import ShiftReduce.Proofs.Automaton.Closure
import ShiftReduce.Proofs.Automaton.ItemAutomaton
import ShiftReduce.Proofs.Automaton.Search
import ShiftReduce.Proofs.Automaton.Determinization
import ShiftReduce.Proofs.Automaton.LeastClosure
import ShiftReduce.Proofs.Automaton.Numbering
import ShiftReduce.Proofs.Automaton.Reachable
import ShiftReduce.Proofs.Grammar.Unranked
import ShiftReduce.Proofs.Table.Entry
import ShiftReduce.Proofs.Parsing.Driver
import ShiftReduce.Proofs.Parsing.Walk
import ShiftReduce.Proofs.Analysis.Nullable
import ShiftReduce.Proofs.Analysis.First
import ShiftReduce.Proofs.Analysis.Follow
import ShiftReduce.Proofs.Parsing.Soundness
import ShiftReduce.Proofs.Parsing.Tree
import ShiftReduce.Proofs.Parsing.Completeness
import ShiftReduce.Proofs.Grammar.Derivation
import ShiftReduce.Proofs.Analysis.FirstExact
import ShiftReduce.Proofs.Analysis.FollowExact
import ShiftReduce.Proofs.Grammar.Declared
import ShiftReduce.Proofs.Renumbering.Automaton
import ShiftReduce.Proofs.Renumbering.Table
import ShiftReduce.Proofs.Renumbering.SameDeclarations
import ShiftReduce.Proofs.Renumbering.DeclarationOrder
import ShiftReduce.Proofs.Precedence.Grouping
import ShiftReduce.Proofs.Table.NoConflicts
import ShiftReduce.Proofs.Grammar.Accepted
import ShiftReduce.Proofs.Precedence.DeclaredOperators
import ShiftReduce.Proofs.Table.Conflicts
import ShiftReduce.Proofs.Table.ConflictReport
import ShiftReduce.Proofs.Table.Acceptance
import ShiftReduce.Proofs.Artifact.Rows
import ShiftReduce.Proofs.Reduction.Names
import ShiftReduce.Proofs.Reduction.Plans
import ShiftReduce.Proofs.Reduction.Coverage
import ShiftReduce.Proofs.Artifact.Driver
import ShiftReduce.Proofs.Artifact.Names
import ShiftReduce.Proofs.Table.ClosedForm
import ShiftReduce.Proofs.Grammar.Limits
import ShiftReduce.Proofs.Lookups.Basic
import ShiftReduce.Proofs.Lookups.Analysis
import ShiftReduce.Proofs.Lookups.Automaton
import ShiftReduce.Proofs.Lookups.Table
import ShiftReduce.Proofs.Lookups.Plans
import ShiftReduce.Proofs.Lookups.Compilation
import ShiftReduce.Proofs.Collection.FirstOccurrence
import ShiftReduce.Proofs.Collection.LastValue
import ShiftReduce.Proofs.Grammar.InOrder
import ShiftReduce.Proofs.Text.ByteOrder
import ShiftReduce.Proofs.Grammar.Representation
import ShiftReduce.Proofs.Json.Tree
import ShiftReduce.Proofs.Json.Meaning
import ShiftReduce.Proofs.Json.Reading
import ShiftReduce.Proofs.Json.Strings
import ShiftReduce.Proofs.Json.Numbers
import ShiftReduce.Proofs.Json.Skipping
import ShiftReduce.Proofs.Json.Typed
import ShiftReduce.Proofs.Json.Members
import ShiftReduce.Proofs.Json.Records
import ShiftReduce.Proofs.Grammar.RecordText
import ShiftReduce.Proofs.Grammar.RuleCheck
import ShiftReduce.Proofs.Grammar.Admission
import ShiftReduce.Proofs.Analysis.NullableSeeds
import ShiftReduce.Proofs.Reduction.Agreement
import ShiftReduce.Proofs.Reduction.Placeholders
import ShiftReduce.Proofs.Analysis.LeastSets
import ShiftReduce.Proofs.Renumbering.ProductionOrder
import ShiftReduce.Proofs.Table.PriorityOrder
import ShiftReduce.Proofs.Loops.Unbounded
import ShiftReduce.Proofs.Loops.Passes
import ShiftReduce.Proofs.Loops.Worklist
import ShiftReduce.Proofs.Loops.Compilation
import ShiftReduce.Proofs.Text.Digits
import ShiftReduce.Proofs.Json.Unambiguous
import ShiftReduce.Proofs.Json.Printing
import ShiftReduce.Proofs.Json.Extensional
import ShiftReduce.Proofs.Artifact.Encoding
import ShiftReduce.Proofs.Automaton.NameOrder
import ShiftReduce.Proofs.Automaton.AccessingSymbols
import ShiftReduce.Proofs.Volume.Writing
import ShiftReduce.Proofs.Volume.CanonicalPath
import ShiftReduce.Proofs.Volume.Folder
import ShiftReduce.Proofs.Volume.Faults
import ShiftReduce.Proofs.Volume.Extension
import ShiftReduce.Proofs.CommandLine.Effects
import ShiftReduce.Proofs.CommandLine.Delivery
