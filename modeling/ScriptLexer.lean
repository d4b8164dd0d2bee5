import ScriptLexer.Text.Basic
import ScriptLexer.Text.CharClass
import ScriptLexer.Text.Place
import ScriptLexer.Text.Html
import ScriptLexer.Diagnostic.Basic
import ScriptLexer.Grammar.Trivia
import ScriptLexer.Grammar.Name
import ScriptLexer.Grammar.Quoted
import ScriptLexer.Grammar.Punctuator
import ScriptLexer.Grammar.Numeral
import ScriptLexer.Grammar.Category
import ScriptLexer.Lexeme.Basic
import ScriptLexer.Lexeme.Scan
import ScriptLexer.Lexeme.Cursor
import ScriptLexer.Number.Binary64
import ScriptLexer.Number.Nearest
import ScriptLexer.Number.Decimal
import ScriptLexer.Number.Shortest
import ScriptLexer.Number.Layout
import ScriptLexer.Json.Basic
import ScriptLexer.Diagnostic.Json
import ScriptLexer.Token.Basic
import ScriptLexer.Token.Stream
import ScriptLexer.Report.Listing
import ScriptLexer.Report.Failure
import ScriptLexer.Program.Options
import ScriptLexer.Program.Help
import ScriptLexer.Program.Path
import ScriptLexer.Program.World
import ScriptLexer.Program.FileTree
import ScriptLexer.Program.Run
import ScriptLexer.Grammar.Language
import ScriptLexer.Json.Reader
import ScriptLexer.Token.Decode
import ScriptLexer.Main
import ScriptLexer.Proofs.LongestMatch
import ScriptLexer.Proofs.Dispatch
import ScriptLexer.Proofs.ScanRun
import ScriptLexer.Proofs.Segmentation
import ScriptLexer.Proofs.Coverage
import ScriptLexer.Proofs.CursorInvariant
import ScriptLexer.Proofs.PrintedNumber
import ScriptLexer.Proofs.NearestDouble
import ScriptLexer.Proofs.NumeralValue
import ScriptLexer.Proofs.TokenRefinement
import ScriptLexer.Proofs.Shift
import ScriptLexer.Proofs.Blanks
import ScriptLexer.Proofs.Diagnosis
import ScriptLexer.Proofs.Cutting
import ScriptLexer.Proofs.Joining
import ScriptLexer.Proofs.Respacing
import ScriptLexer.Proofs.Insertion
import ScriptLexer.Proofs.Lookahead
import ScriptLexer.Proofs.Precedence
import ScriptLexer.Proofs.WrittenJson
import ScriptLexer.Proofs.PrintedJson
import ScriptLexer.Proofs.DecodedTokens
import ScriptLexer.Proofs.Escaping
import ScriptLexer.Proofs.ListedTokens
import ScriptLexer.Proofs.InputChannels
import ScriptLexer.Proofs.RunOutcome
import ScriptLexer.Proofs.DefaultCommand
import ScriptLexer.Proofs.Exhaustion
import ScriptLexer.Proofs.Presentation
import ScriptLexer.Proofs.NumberConversion
import ScriptLexer.Proofs.NumberRoundTrip
import ScriptLexer.Proofs.ClosingDelimiters
import ScriptLexer.Proofs.MaximalMunch
import ScriptLexer.Proofs.Places
import ScriptLexer.Proofs.DiagnosticPlaces
import ScriptLexer.Proofs.CommentLines
import ScriptLexer.Proofs.ListedLines
import ScriptLexer.Proofs.DiagnosticSeries
