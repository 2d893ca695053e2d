import LoopLang.Position
import LoopLang.Decimal
import LoopLang.Token
import LoopLang.Diagnostic
import LoopLang.Cursor
import LoopLang.Expr
import LoopLang.Expr.Prefix
import LoopLang.Parser.Basic
import LoopLang.Parser.Grammar
import LoopLang.Parser.Progress
import LoopLang.Parser
import LoopLang.RuntimeError
import LoopLang.Stack
import LoopLang.Evaluation
import LoopLang.Interpretation
import LoopLang.CommandLine
import LoopLang.CommandLine.Words
import LoopLang.Main
import LoopLang.Proofs.Cursor.Results
import LoopLang.Proofs.Cursor.Lexemes
import LoopLang.Proofs.Cursor.Scanning
import LoopLang.Proofs.Cursor.Places
import LoopLang.Proofs.Parser.Reads
import LoopLang.Proofs.Parser.Ahead
import LoopLang.Proofs.Grammar.Basic
import LoopLang.Proofs.Grammar.Choices
import LoopLang.Proofs.Grammar.Soundness
import LoopLang.Proofs.Grammar.Completeness
import LoopLang.Proofs.Grammar.Acceptance
import LoopLang.Proofs.Grammar.Precedence
import LoopLang.Proofs.Grammar.Verdicts
import LoopLang.Proofs.Grammar.Decisions
import LoopLang.Proofs.Grammar.Rounds
import LoopLang.Proofs.Grammar.EarliestFault
import LoopLang.Proofs.Grammar.Pieces
import LoopLang.Proofs.Grammar.Recovery
import LoopLang.Proofs.Grammar.Reports
import LoopLang.Proofs.Parser.Reuse
import LoopLang.Proofs.Parser.Recursion
import LoopLang.Proofs.Parser.Termination
import LoopLang.Proofs.Grammar.ReportLines
import LoopLang.Proofs.Tree.Nodes
import LoopLang.Proofs.Grammar.TreeNodes
import LoopLang.Proofs.Evaluation.Ensures
import LoopLang.Proofs.Evaluation.StackDiscipline
import LoopLang.Proofs.Program.Lookup
import LoopLang.Proofs.Evaluation.StaticSoundness
import LoopLang.Proofs.BigStep.Basic
import LoopLang.Proofs.BigStep.Scope
import LoopLang.Proofs.BigStep.Soundness
import LoopLang.Proofs.BigStep.Adequacy
import LoopLang.Proofs.BigStep.Blame
import LoopLang.Proofs.BigStep.Nesting
import LoopLang.Proofs.Interpretation.ErrorPlaces
import LoopLang.Proofs.Interpretation.CommandLine
import LoopLang.Proofs.Printing.Words
import LoopLang.Proofs.Printing.RoundTrip
import LoopLang.Proofs.Printing.Separators
import LoopLang.Proofs.Printing.PrefixText
import LoopLang.Proofs.BigStep.FreeVariables
import LoopLang.Proofs.BigStep.Arithmetic
import LoopLang.Proofs.Outlining.Loop
import LoopLang.Proofs.Outlining.Programs
import LoopLang.Proofs.Scoping.Basic
import LoopLang.Proofs.Relocation.Trees
import LoopLang.Proofs.Relocation.Parsing
import LoopLang.Proofs.Relocation.Lines
import LoopLang.Proofs.Relocation.EntryPoints
import LoopLang.Proofs.Interpretation.Literals
import LoopLang.Proofs.Relocation.Evaluation
import LoopLang.Proofs.Relocation.Layout
import LoopLang.Proofs.Scoping.Substitution
import LoopLang.Proofs.Scoping.Renaming
import LoopLang.Proofs.Program.Reachability
import LoopLang.Proofs.Program.SetUp
