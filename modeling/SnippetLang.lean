import SnippetLang.Code.Cell
import SnippetLang.Code.Emission
import SnippetLang.Code.Frame
import SnippetLang.Code.Instr
import SnippetLang.Code.Machine
import SnippetLang.Code.Method
import SnippetLang.Code.Phase
import SnippetLang.CommandLine
import SnippetLang.Console
import SnippetLang.Diagnostic
import SnippetLang.Elaboration
import SnippetLang.Function
import SnippetLang.Issue
import SnippetLang.Iteration
import SnippetLang.Main
import SnippetLang.Operator
import SnippetLang.Proofs.Compilation.Agreement
import SnippetLang.Proofs.Compilation.Compilable
import SnippetLang.Proofs.Compilation.Contexts
import SnippetLang.Proofs.Compilation.FirstUse
import SnippetLang.Proofs.Compilation.Styles
import SnippetLang.Proofs.Compilation.Transparency
import SnippetLang.Proofs.Converting.Numerals
import SnippetLang.Proofs.Counting.Loops
import SnippetLang.Proofs.Frames.Protocol
import SnippetLang.Proofs.Joining.Evaluation
import SnippetLang.Proofs.Lexing.Layout
import SnippetLang.Proofs.Lexing.Literals
import SnippetLang.Proofs.Lexing.Lookahead
import SnippetLang.Proofs.Lexing.Munching
import SnippetLang.Proofs.Lowering.FlatForm
import SnippetLang.Proofs.Lowering.Meaning
import SnippetLang.Proofs.Machines.Accepted
import SnippetLang.Proofs.Machines.Atomicity
import SnippetLang.Proofs.Machines.Discipline
import SnippetLang.Proofs.Parsing.Ending
import SnippetLang.Proofs.Parsing.Lossless
import SnippetLang.Proofs.Parsing.Names
import SnippetLang.Proofs.Parsing.Printing
import SnippetLang.Proofs.Parsing.RoundTrip
import SnippetLang.Proofs.Printing.Answers
import SnippetLang.Proofs.Printing.ReadBack
import SnippetLang.Proofs.Printing.Surface
import SnippetLang.Proofs.Printing.Texts
import SnippetLang.Proofs.Safety.Soundness
import SnippetLang.Proofs.Scoping.Beside
import SnippetLang.Proofs.Scoping.Equivalence
import SnippetLang.Proofs.Scoping.Levels
import SnippetLang.Proofs.Scoping.Lexical
import SnippetLang.Proofs.Scoping.Mirror
import SnippetLang.Proofs.Scoping.Separate
import SnippetLang.Proofs.Scoping.Snippets
import SnippetLang.Proofs.Sessions.Schedules
import SnippetLang.Proofs.Spans.Positions
import SnippetLang.Proofs.Spans.Reports
import SnippetLang.Proofs.Typing.Acceptance
import SnippetLang.Proofs.Typing.Cascades
import SnippetLang.Proofs.Typing.Errors
import SnippetLang.Routine
import SnippetLang.Routine.Invocation
import SnippetLang.RunError
import SnippetLang.Scope
import SnippetLang.Session
import SnippetLang.Snippet
import SnippetLang.Snippet.Evaluation
import SnippetLang.Source.Lines
import SnippetLang.Source.Span
import SnippetLang.Store
import SnippetLang.Text.Blank
import SnippetLang.Text.Capital
import SnippetLang.Text.Decimal
import SnippetLang.Text.Quoted
import SnippetLang.Token
import SnippetLang.Token.Escape
import SnippetLang.Token.Lexer
import SnippetLang.Tree
import SnippetLang.Tree.Cursor
import SnippetLang.Tree.Parser
import SnippetLang.Ty
import SnippetLang.Typed
import SnippetLang.Typed.Evaluation
import SnippetLang.Typed.Flat
import SnippetLang.Typed.Printer
import SnippetLang.Typed.Walk
import SnippetLang.Value
import SnippetLang.Variable
