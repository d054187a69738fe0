import Calculator.Expr
import Calculator.Main
import Calculator.Proofs.Cursor.LinesAndColumns
import Calculator.Proofs.Evaluation
import Calculator.Proofs.ExactArithmetic
import Calculator.Proofs.Expr.Sentences
import Calculator.Proofs.FirstError
import Calculator.Proofs.Layout
import Calculator.Proofs.LeadingExpression
import Calculator.Proofs.Lexer.Concatenation
import Calculator.Proofs.Lexer.Partition
import Calculator.Proofs.Lexer.Rendering
import Calculator.Proofs.RecursionLimit
import Calculator.Proofs.SyntaxErrors
import Calculator.Proofs.Numerals
import Calculator.Proofs.Parser.Replacement
import Calculator.Proofs.Substitution
import Calculator.Proofs.Registration
import Calculator.Proofs.Sources.Loads
import Calculator.Proofs.Sources.Lookup
import Calculator.Proofs.CommandLine.Loading
import Calculator.Proofs.CommandLine.Evaluation
import Calculator.Proofs.CommandLine.AllowTrailing
import Calculator.Proofs.EntryPoints
import Calculator.Proofs.Sources.History
import Calculator.Proofs.CommandLine.Consistency
import Calculator.Proofs.Cursor.Reading
import Calculator.Proofs.Parser.Spans
import Calculator.Proofs.Places
import Calculator.Proofs.Lexer.Simulation
import Calculator.Proofs.LineBreaks
import Calculator.Proofs.PlainDump
import Calculator.Proofs.EndOfInput
import Calculator.Proofs.Lexer.Calls
import Calculator.Proofs.Diagnostics.Delivery
import Calculator.Proofs.OnePass
import Calculator.Proofs.Checked.Cursor
import Calculator.Proofs.Checked.Lexer
import Calculator.Proofs.Checked.Parser
import Calculator.Proofs.Checked.Session
import Calculator.Proofs.Checked.Depth
import Calculator.Proofs.Cursor.Histories
import Calculator.Proofs.Diagnostics.Drafts
import Calculator.Proofs.PrintedValues
import Calculator.Proofs.Parser.Invariant
