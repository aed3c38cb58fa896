import ProcessFormula.Formula.Source
import ProcessFormula.Value.Json
import ProcessFormula.Main
import ProcessFormula.Proofs.Grammar.Lexical
import ProcessFormula.Proofs.Grammar.Literal
import ProcessFormula.Proofs.Grammar.Scanning
import ProcessFormula.Proofs.Grammar.Reading
import ProcessFormula.Proofs.Grammar.Derivation
import ProcessFormula.Proofs.Grammar.Marks
import ProcessFormula.Proofs.Grammar.Soundness
import ProcessFormula.Proofs.Grammar.Operands
import ProcessFormula.Proofs.Grammar.Completeness
import ProcessFormula.Proofs.Formula.Naming
import ProcessFormula.Proofs.Builder.Running
import ProcessFormula.Proofs.Builder.Counting
import ProcessFormula.Proofs.Builder.Tables
import ProcessFormula.Proofs.Builder.Correspondence
import ProcessFormula.Proofs.Builder.Refinement
import ProcessFormula.Proofs.Formula.Compiling
import ProcessFormula.Proofs.Grammar.Acceptance
import ProcessFormula.Proofs.Metadata.Combining
import ProcessFormula.Proofs.Metadata.Grouping
import ProcessFormula.Proofs.Metadata.Functions
import ProcessFormula.Proofs.Metadata.Evaluation
import ProcessFormula.Proofs.Expr.Variables
import ProcessFormula.Proofs.Grammar.Names
import ProcessFormula.Proofs.Formula.Binding
import ProcessFormula.Proofs.Formula.Handles
import ProcessFormula.Proofs.Formula.Discovery
import ProcessFormula.Proofs.Grammar.Refusal
import ProcessFormula.Proofs.Grammar.Occurrence
import ProcessFormula.Proofs.Formula.Modes
import ProcessFormula.Proofs.Metadata.Noninterference
import ProcessFormula.Proofs.Number.Bits
import ProcessFormula.Proofs.Number.Digits
import ProcessFormula.Proofs.Number.Numeral
import ProcessFormula.Proofs.Json.Literals
import ProcessFormula.Proofs.Json.Documents
import ProcessFormula.Proofs.Value.Json
import ProcessFormula.Proofs.Grammar.Limits
import ProcessFormula.Proofs.Formula.Limits
import ProcessFormula.Proofs.Number.Nearest
import ProcessFormula.Proofs.Number.Roundtrip
import ProcessFormula.Proofs.Expr.Printing
import ProcessFormula.Proofs.Grammar.Origin
import ProcessFormula.Proofs.Grammar.PrintedTrees
import ProcessFormula.Proofs.Formula.Printing
import ProcessFormula.Proofs.Metadata.Laziness
import ProcessFormula.Proofs.Registry.Lookup
import ProcessFormula.Proofs.Registry.Registration
import ProcessFormula.Proofs.Formula.Restriction
import ProcessFormula.Proofs.Formula.Evaluation
import ProcessFormula.Proofs.Grammar.Squeezing
import ProcessFormula.Proofs.Parser.Tracing
import ProcessFormula.Proofs.Formula.Positions
import ProcessFormula.Proofs.Parser.Blanks
import ProcessFormula.Proofs.Formula.Blanks
import ProcessFormula.Proofs.Formula.Agreement
import ProcessFormula.Proofs.Formula.Sessions
import ProcessFormula.Proofs.Formula.Interference
import ProcessFormula.Proofs.Grammar.Cutting
import ProcessFormula.Proofs.Formula.Remainders
import ProcessFormula.Proofs.Formula.Source
import ProcessFormula.Proofs.Formula.Embedding
import ProcessFormula.Proofs.Grammar.LastNames
import ProcessFormula.Proofs.Formula.MissingColon
import ProcessFormula.Proofs.Number.Exact
import ProcessFormula.Proofs.Function.Elements
import ProcessFormula.Proofs.Function.Folds
import ProcessFormula.Proofs.Parser.Lookups
import ProcessFormula.Proofs.Formula.Registered
import ProcessFormula.Proofs.Formula.PrintedNames
import ProcessFormula.Proofs.Number.Order
import ProcessFormula.Proofs.Number.Arithmetic
import ProcessFormula.Proofs.Number.Rounding
import ProcessFormula.Proofs.Number.Scaling
import ProcessFormula.Proofs.Function.Rounding
import ProcessFormula.Proofs.Value.Equality
import ProcessFormula.Proofs.Formula.Repetition
import ProcessFormula.Proofs.CommandLine.Binding
import ProcessFormula.Proofs.CommandLine.Names
import ProcessFormula.Proofs.Function.Extremes
import ProcessFormula.Proofs.Value.Calendar
import ProcessFormula.Proofs.Value.Timestamps
import ProcessFormula.Proofs.Parser.Recording
import ProcessFormula.Proofs.Parser.Progress
import ProcessFormula.Proofs.Config.Keys
import ProcessFormula.Proofs.Config.Formats
import ProcessFormula.Proofs.Config.Layers
