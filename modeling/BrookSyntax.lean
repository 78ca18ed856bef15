import BrookSyntax.Binary64
import BrookSyntax.Binary64.Shortest
import BrookSyntax.CodeUnit
import BrookSyntax.Config
import BrookSyntax.Cursor
import BrookSyntax.Diagnostic
import BrookSyntax.Diagnostic.Format
import BrookSyntax.Diagnostic.OfFailure
import BrookSyntax.Document
import BrookSyntax.Failure
import BrookSyntax.Grammar.Expression
import BrookSyntax.Grammar.Literal
import BrookSyntax.Grammar.Statement
import BrookSyntax.Grammar.Word
import BrookSyntax.Json
import BrookSyntax.Json.Reader
import BrookSyntax.Json.Record
import BrookSyntax.Json.Writer
import BrookSyntax.LineIndex
import BrookSyntax.Log
import BrookSyntax.Mark
import BrookSyntax.Outcome
import BrookSyntax.Parser
import BrookSyntax.Parser.Choice
import BrookSyntax.Parser.Commitment
import BrookSyntax.Parser.Token
import BrookSyntax.Position
import BrookSyntax.Proofs.Accepts
import BrookSyntax.Proofs.Bounds
import BrookSyntax.Proofs.Completeness
import BrookSyntax.Proofs.Derivation
import BrookSyntax.Proofs.ExprCompleteness
import BrookSyntax.Proofs.ExprSoundness
import BrookSyntax.Proofs.Inversion
import BrookSyntax.Proofs.Lookahead
import BrookSyntax.Proofs.Operators
import BrookSyntax.Proofs.PrintedTokens
import BrookSyntax.Proofs.Printing
import BrookSyntax.Proofs.Reads
import BrookSyntax.Proofs.RuleBounds
import BrookSyntax.Proofs.Scanning
import BrookSyntax.Proofs.Soundness
import BrookSyntax.Proofs.Starts
import BrookSyntax.Proofs.Success
import BrookSyntax.Proofs.Tokens
import BrookSyntax.Rule
import BrookSyntax.Rule.Depth
import BrookSyntax.Shape
import BrookSyntax.Source
import BrookSyntax.Text
import BrookSyntax.Tree
import BrookSyntax.Tree.Image
import BrookSyntax.Tree.Reading
import BrookSyntax.Tree.Shape
import BrookSyntax.Proofs.ParsePrint
import BrookSyntax.Proofs.OutcomeContract
import BrookSyntax.Proofs.Rounding
import BrookSyntax.Proofs.NumberText
import BrookSyntax.Proofs.JsonText
import BrookSyntax.Proofs.JsonRoundTrip
import BrookSyntax.Proofs.Conformance
import BrookSyntax.Proofs.Storable
import BrookSyntax.Proofs.ImageReading
import BrookSyntax.Proofs.ParsedTrees
import BrookSyntax.Proofs.DocumentRoundTrip
import BrookSyntax.Proofs.Failing
import BrookSyntax.Proofs.Blame
import BrookSyntax.Proofs.ExprBlame
import BrookSyntax.Proofs.StmtBlame
import BrookSyntax.Proofs.FirstToken
import BrookSyntax.Proofs.FailureCatalogue
import BrookSyntax.Proofs.Places
import BrookSyntax.Proofs.Respan
import BrookSyntax.Proofs.Copied
import BrookSyntax.Proofs.Concatenation
import BrookSyntax.Proofs.TokenUniqueness
import BrookSyntax.Proofs.TriviaReplacement
import BrookSyntax.Proofs.Carrying
import BrookSyntax.Proofs.StartOffset
import BrookSyntax.Proofs.ParserContract
import BrookSyntax.Proofs.Nodes
import BrookSyntax.Proofs.SpanNesting
import BrookSyntax.Proofs.Reparsing
import BrookSyntax.Proofs.ExprCommitment
import BrookSyntax.Proofs.DepthIndependence
import BrookSyntax.Proofs.NestingBound
import BrookSyntax.Proofs.Truncation
import BrookSyntax.Proofs.TokenLanguages
import BrookSyntax.Proofs.Viability
import BrookSyntax.Proofs.ExprViability
import BrookSyntax.Proofs.ViablePrefix
import BrookSyntax.Proofs.MissingSemicolon
import BrookSyntax.Proofs.SemicolonFix
import BrookSyntax.Proofs.DocumentErrors
import BrookSyntax.Proofs.Fits
import BrookSyntax.Proofs.Alike
import BrookSyntax.Proofs.Violations
import BrookSyntax.Proofs.NodeRecords
import BrookSyntax.Proofs.Recognition
import BrookSyntax.Proofs.AcceptedDocuments
import BrookSyntax.Proofs.SpoiledRecords
import BrookSyntax.Proofs.BlamedPath
import BrookSyntax.Proofs.Grouping
import BrookSyntax.Proofs.KeyOrder
import BrookSyntax.Proofs.Breadcrumb
import BrookSyntax.Proofs.Parentheses
import BrookSyntax.Proofs.ExprReparsing
import BrookSyntax.Proofs.Repetition
import BrookSyntax.Proofs.Lines
import BrookSyntax.Proofs.StringLiterals
import BrookSyntax.Proofs.WholeNumbers
import BrookSyntax.Proofs.Caret
import BrookSyntax.Proofs.Expectations
import BrookSyntax.Proofs.TriviaPieces
import BrookSyntax.Proofs.Words
import BrookSyntax.Proofs.LogLines
