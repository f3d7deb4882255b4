import Resilient.Expression.Automaton

/-!
# Reading expression texts

`Expression.parse` reads a text and always answers with a tree and the reports made on the way;
`Expression.parseStrict` fails with the first report instead. An `Expression.Reader` cuts its whole
text into tokens first and then reads one expression after another.
-/

namespace Resilient

namespace Expression

/-- What an expression text may be like. -/
structure Options where
  /-- Comments may stand wherever blanks may. -/
  comments : Bool
  limits : Limits
  deriving DecidableEq

namespace Options

/-- No comments, the usual bounds. -/
def standard : Options := ⟨false, .standard⟩

/-- The standard options are taken where none are named. -/
instance : Inhabited Options := ⟨standard⟩

/-- The same options with or without comments. -/
def withComments (o : Options) (allowed : Bool) : Options := { o with comments := allowed }

/-- The dialect in which the text is cut into tokens. -/
def dialect (o : Options) : Dialect := Dialect.expression.withComments o.comments

end Options

/-- A text from which expressions are read one after another. -/
structure Reader where
  options : Options
  /-- The bound on size that the text exceeds; such a text is not looked at. -/
  oversized : Option Nat
  /-- The scans left, without trivia; the reports on the characters are made already. -/
  unread : List Scan
  /-- Whether the first token left was reported to be out of place. -/
  complained : Bool

namespace Reader

/-- The reader before the first token of a text, and the reports on the characters of the text. -/
def ofText (source : String) (options : Options) : Reader × List Diagnostic :=
  match options.limits.exceededSize source with
  | some max => (⟨options, some max, [⟨[], .atEnd .start⟩], false⟩, [])
  | none =>
    let (tokens, reports) := tokenize source options.dialect
    let solid := tokens.filter (!·.kind.isTrivia)
    (⟨options, none, solid.map (⟨[], ·⟩), false⟩, reports)

/-- The token that the reader looks at. -/
def current (r : Reader) : Option Token := r.unread.head?.map Scan.token

/-- The report on a token behind the expression. -/
def trailing (r : Reader) : List Diagnostic :=
  match r.current with
  | some t => if t.isEof then [] else [.of .trailingInput t.span]
  | none => []

/-- One expression: its tree, the reports, and the reader behind it. -/
def expression (r : Reader) : Node × List Diagnostic × Reader :=
  match r.oversized with
  | some max => (.placeholder (.point .start), [.atPoint (.maxSizeExceeded max) .start], r)
  | none =>
    let o := Automaton.run (react r.options.limits) .signed [] r.complained [] r.unread
    let r := { r with unread := o.unread, complained := o.complained }
    (o.result, o.reports ++ r.trailing, r)

end Reader

/-- The tree of a text and the reports on it. -/
def parse (source : String) (options : Options) : Node × List Diagnostic :=
  let (r, found) := Reader.ofText source options
  let (n, reports, _) := r.expression
  (n, found ++ reports)

/-- The tree of a text under the standard options, or the first report on it. -/
def parseStrict (source : String) : Except Diagnostic Node :=
  match parse source .standard with
  | (n, []) => .ok n
  | (_, d :: _) => .error d

end Expression

end Resilient
