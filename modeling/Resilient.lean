import Resilient.Automaton
import Resilient.CommandLine
import Resilient.Decimal.Binary64
import Resilient.Decimal.Layout
import Resilient.Decimal.Rounding
import Resilient.Decimal.Shortest
import Resilient.Diagnostic
import Resilient.Diagnostic.Collectors
import Resilient.Expression.Automaton
import Resilient.Expression.Node
import Resilient.Expression.Reader
import Resilient.Json.Automaton
import Resilient.Json.Entries
import Resilient.Json.Reader
import Resilient.Json.Value
import Resilient.Lexeme
import Resilient.Lexeme.Dialect
import Resilient.Lexeme.Literal
import Resilient.Lexeme.Numeral
import Resilient.Lexeme.Trivia
import Resilient.Limits
import Resilient.Main
import Resilient.Operator
import Resilient.Scalar
import Resilient.Scan
import Resilient.Source.Cursor
import Resilient.Source.Position
import Resilient.Source.Span
import Resilient.Symbol
import Resilient.Text.Outline
import Resilient.Text.Quoted
import Resilient.Token
import Resilient.Token.Kind
import Resilient.Unicode.Blank
import Resilient.Unicode.CharRanges
import Resilient.Unicode.Letter
import Resilient.Unicode.Numeric
import Resilient.Unicode.Visible
import Resilient.Proofs.Lexeme.Gap
import Resilient.Proofs.Lexeme.Solid
import Resilient.Proofs.Scan
import Resilient.Proofs.Lexeme.Numeral
import Resilient.Proofs.Lexeme.Literal
import Resilient.Proofs.Automaton
import Resilient.Proofs.Json.Entries
import Resilient.Proofs.Json.Grammar
import Resilient.Proofs.Json.Scanning
import Resilient.Proofs.Json.Spelling
import Resilient.Proofs.Json.Reading
import Resilient.Proofs.Json.Acceptance
import Resilient.Proofs.Json.Nesting
import Resilient.Proofs.Json.Search
import Resilient.Proofs.Json.Recovery
import Resilient.Proofs.Json.Groups
import Resilient.Proofs.Json.Damage
import Resilient.Proofs.Json.Faults
import Resilient.Proofs.Expression.Acceptance
import Resilient.Proofs.Source.Place
import Resilient.Proofs.Source.Tokens
import Resilient.Proofs.Json.Reports
import Resilient.Proofs.Expression.Extents
import Resilient.Proofs.Places
import Resilient.Proofs.Json.Framing
import Resilient.Proofs.Json.Truncation
import Resilient.Proofs.Json.Depth
import Resilient.Json.Writer
import Resilient.Proofs.Json.Writing
import Resilient.Proofs.Decimal.Rounding
import Resilient.Proofs.Decimal.Shortest
import Resilient.Proofs.Decimal.Layout
import Resilient.Proofs.Json.Order
import Resilient.Proofs.Json.Rest
import Resilient.Proofs.Json.Levels
import Resilient.Proofs.Json.Stream
import Resilient.Proofs.Beginnings
import Resilient.Proofs.Expression.Gaps
import Resilient.Proofs.Limits
import Resilient.Proofs.Fetching
import Resilient.Proofs.Source.Lexemes
import Resilient.Proofs.Source.Trivia
import Resilient.Proofs.Source.Lines
import Resilient.Proofs.Expression.Groups
import Resilient.Proofs.Expression.Depth
import Resilient.Proofs.Accounts
import Resilient.Proofs.Expression.Reports
import Resilient.Proofs.Json.Accounts
import Resilient.Proofs.Expression.Accounts
import Resilient.Proofs.Json.Progress
import Resilient.Proofs.Once
import Resilient.Proofs.Lexeme.Strings
import Resilient.Proofs.Lexeme.Longest
import Resilient.Proofs.Source.Comments
import Resilient.Proofs.Comments
import Resilient.Proofs.Numbers
import Resilient.Proofs.Lexeme.Escapes
import Resilient.Proofs.Json.Equality
import Resilient.Proofs.Json.History
import Resilient.Reporting
import Resilient.Session
import Resilient.Proofs.Reporting
import Resilient.Proofs.Session
import Resilient.Proofs.Expression.Building
import Resilient.Proofs.Operators
