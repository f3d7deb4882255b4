import Resilient.Json.Automaton

/-!
# Reading JSON texts

`Json.parse` reads a text and always answers with a value and the reports made on the way;
`Json.parseStrict` fails with the first report instead. A `Json.Reader` reads one value after
another from the same text.
-/

namespace Resilient

namespace Json

/-- What a JSON text may be like. -/
structure Options where
  /-- Comments may stand wherever blanks may. -/
  comments : Bool
  /-- Tokens behind the value are reported. -/
  whole : Bool
  limits : Limits
  deriving DecidableEq

namespace Options

/-- No comments, one value, the usual bounds. -/
def standard : Options := ⟨false, true, .standard⟩

/-- The standard options are taken where none are named. -/
instance : Inhabited Options := ⟨standard⟩

/-- No comments, one value, the given bounds. -/
def ofLimits (limits : Limits) : Options := ⟨false, true, limits⟩

/-- The standard options without bounds. -/
def unlimited : Options := ofLimits .unlimited

/-- The same options with or without comments. -/
def withComments (o : Options) (allowed : Bool) : Options := { o with comments := allowed }

/-- The same options with or without a report on tokens behind the value. -/
def withWhole (o : Options) (required : Bool) : Options := { o with whole := required }

/-- The dialect in which the text is cut into tokens. -/
def dialect (o : Options) : Dialect := Dialect.json.withComments o.comments

end Options

/-- A text from which values are read one after another. -/
structure Reader where
  options : Options
  /-- The bound on size that the text exceeds; such a text is not looked at. -/
  oversized : Option Nat
  unread : List Scan
  /-- Whether the first token left was reported to be out of place. -/
  complained : Bool

namespace Reader

/-- A reader at the first token of a text; a text that is too large is not looked at. -/
def ofText (source : String) (options : Options) : Reader :=
  match options.limits.exceededSize source with
  | some max => ⟨options, some max, [⟨[], .atEnd .start⟩], false⟩
  | none => ⟨options, none, Scan.ofText options.dialect source, false⟩

/-- The token that the reader looks at. -/
def current (r : Reader) : Option Token := r.unread.head?.map Scan.token

/-- One value: the value, the reports, and the reader behind it. -/
def value (r : Reader) : Value × List Diagnostic × Reader :=
  let o := Automaton.run (react r.options.limits) .value [] r.complained [] r.unread
  (o.result, o.reports, { r with unread := o.unread, complained := o.complained })

/-- The report on a token behind the value. -/
def trailing (r : Reader) : List Diagnostic :=
  match r.current with
  | some t => if r.options.whole && !t.isEof then [.of .trailingInput t.span] else []
  | none => []

/-- One document: its value, the reports, and the reader behind it. -/
def document (r : Reader) : Value × List Diagnostic × Reader :=
  match r.oversized with
  | some max => (.null, [.atPoint (.maxSizeExceeded max) .start], r)
  | none =>
    let (v, reports, r) := r.value
    (v, reports ++ r.trailing, r)

end Reader

/-- The value of a text and the reports on it. -/
def parse (source : String) (options : Options) : Value × List Diagnostic :=
  let (v, reports, _) := (Reader.ofText source options).document
  (v, reports)

/-- The value of a text, or the first report on it. -/
def parseStrict (source : String) (options : Options) : Except Diagnostic Value :=
  match parse source options with
  | (v, []) => .ok v
  | (_, d :: _) => .error d

end Json

end Resilient
