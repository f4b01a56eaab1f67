import Scriptlet.Cli.Folder
import Scriptlet.Cli.Options
import Scriptlet.Cli.Run
import Scriptlet.Compile
import Scriptlet.Json
import Scriptlet.Main
import Scriptlet.Node.Basic
import Scriptlet.Node.Lowering
import Scriptlet.Number.Binary64
import Scriptlet.Number.Numeral
import Scriptlet.Parse.Basic
import Scriptlet.Parse.Grammar
import Scriptlet.Parse.Session
import Scriptlet.Proofs.Acceptance
import Scriptlet.Proofs.ArrowLookahead
import Scriptlet.Proofs.Balance
import Scriptlet.Proofs.BareStrings
import Scriptlet.Proofs.BlankLines
import Scriptlet.Proofs.Bonds
import Scriptlet.Proofs.Brackets
import Scriptlet.Proofs.Comparison
import Scriptlet.Proofs.Coordinates
import Scriptlet.Proofs.Derivation
import Scriptlet.Proofs.Ebnf
import Scriptlet.Proofs.EqualLowering
import Scriptlet.Proofs.FailsClosed
import Scriptlet.Proofs.Grouping
import Scriptlet.Proofs.Interleaving
import Scriptlet.Proofs.Layout
import Scriptlet.Proofs.Leaves
import Scriptlet.Proofs.LexicalFaults
import Scriptlet.Proofs.LexicalGrammar
import Scriptlet.Proofs.LineBreaks
import Scriptlet.Proofs.LineByLine
import Scriptlet.Proofs.Mending
import Scriptlet.Proofs.Nesting
import Scriptlet.Proofs.NewlineRuns
import Scriptlet.Proofs.NodePlaces
import Scriptlet.Proofs.NumeralGrammar
import Scriptlet.Proofs.Numerals
import Scriptlet.Proofs.ParserBlame
import Scriptlet.Proofs.ParserFinds
import Scriptlet.Proofs.ParserOutput
import Scriptlet.Proofs.ParserReads
import Scriptlet.Proofs.Places
import Scriptlet.Proofs.Pointers
import Scriptlet.Proofs.Precedence
import Scriptlet.Proofs.Progress
import Scriptlet.Proofs.QuotedKeys
import Scriptlet.Proofs.Reading
import Scriptlet.Proofs.Repetition
import Scriptlet.Proofs.Rewriting
import Scriptlet.Proofs.RoundTrips
import Scriptlet.Proofs.Rounding
import Scriptlet.Proofs.ScannerPaths
import Scriptlet.Proofs.ScannerSteps
import Scriptlet.Proofs.ScriptRoundTrip
import Scriptlet.Proofs.ScriptText
import Scriptlet.Proofs.Sessions
import Scriptlet.Proofs.Settling
import Scriptlet.Proofs.Spacing
import Scriptlet.Proofs.Tails
import Scriptlet.Proofs.Texts
import Scriptlet.Proofs.TiedRules
import Scriptlet.Proofs.Tiling
import Scriptlet.Proofs.TokenShapes
import Scriptlet.Proofs.Transports
import Scriptlet.Proofs.Unplaced
import Scriptlet.Proofs.ViablePrefix
import Scriptlet.Proofs.WellFormed
import Scriptlet.Proofs.WireFaults
import Scriptlet.Proofs.WireGrammar
import Scriptlet.Proofs.WireOffsets
import Scriptlet.Proofs.Wording
import Scriptlet.Proofs.Written
import Scriptlet.Proofs.Yield
import Scriptlet.Reader
import Scriptlet.SExpr
import Scriptlet.Source
import Scriptlet.Text
import Scriptlet.Token.Basic
import Scriptlet.Token.Scanner
import Scriptlet.Wire
