import Resilient.Diagnostic.Collectors
import Resilient.Expression.Reader
import Resilient.Json.Reader

/-!
# Reports told to a sink

A reader can hand its reports to a sink, each one when it is made, instead of answering with all of
them at the end. It sees nothing of the sink but that it takes reports. `tokenizeInto`,
`Json.parseInto` and `Expression.parseInto` read like `tokenize`, `Json.parse` and
`Expression.parse`, and carry the state of a sink along.
-/

namespace Resilient

/-- What a report makes of the state of a sink. -/
abbrev Sink (σ : Type) := σ → Diagnostic → σ

variable {σ : Type} (sink : Sink σ)

namespace Scan

/-- The next token, the cursor behind it and the sink, which takes the reports on each lexeme when
it is read. -/
def fetchInto (d : Dialect) (s : σ) (c : Cursor) : Token × Cursor × σ :=
  match _h : Lexeme.read d c.rest with
  | none => (.atEnd c.position, c, s)
  | some (l, rest) =>
    let behind := c.past l.text rest
    let s := (l.reports d c.position).foldl sink s
    match _ht : l.token? d ⟨c.position, behind.position⟩ with
    | some t => (t, behind, s)
    | none => fetchInto d s behind
termination_by c.rest.length
decreasing_by
  have h₁ := congrArg List.length (Lexeme.read_eq _h)
  have h₂ := List.length_pos_iff.2 (Lexeme.text_ne_nil_of_token? _h _ht)
  simp only [List.length_append] at h₁
  simp only [Cursor.past]
  omega

/-- The sink takes what a fetch would find, behind reports found before. -/
theorem fetchInto_eq (d : Dialect) (found : List Diagnostic) (s : σ) (c : Cursor) :
    fetchInto sink d (found.reverse.foldl sink s) c =
      ((fetch d found c).1.token, (fetch d found c).2,
        (fetch d found c).1.reports.foldl sink s) := by
  fun_induction fetch d found c with
  | case1 found c h =>
    rw [fetchInto]
    split
    · rfl
    · rename_i h'
      cases h.symm.trans h'
  | case2 found c l rest h behind found' t ht =>
    rw [fetchInto]
    split
    · rename_i h'
      cases h.symm.trans h'
    · rename_i h'
      cases h.symm.trans h'
      dsimp only
      split
      · rename_i ht'
        cases ht.symm.trans ht'
        simp [found', behind]
      · rename_i ht'
        cases ht.symm.trans ht'
  | case3 found c l rest h behind found' ht ih =>
    rw [fetchInto]
    split
    · rename_i h'
      cases h.symm.trans h'
    · rename_i h'
      cases h.symm.trans h'
      dsimp only
      split
      · rename_i ht'
        cases ht.symm.trans ht'
      · simpa [found', behind] using ih

/-- The tokens up to the first one of the end's kind, behind tokens made before, last first, and
the sink. -/
def allInto (d : Dialect) (s : σ) (done : List Token) (c : Cursor) : List Token × σ :=
  let r := fetchInto sink d s c
  if r.1.isEof then ((r.1 :: done).reverse, r.2.2)
  else if _h : r.2.1.position.offset = c.position.offset then ((r.1 :: done).reverse, r.2.2)
  else allInto d r.2.2 (r.1 :: done) r.2.1
termination_by c.rest.length
decreasing_by
  have hc : r.2.1 = (next d c).2 := congrArg (·.2.1) (fetchInto_eq sink d [] s c)
  rw [hc] at _h
  exact hc ▸ length_rest_lt _h

end Scan

/-- The tokens of a whole text, and the sink with the reports on it. -/
def tokenizeInto (source : String) (d : Dialect) (s : σ) : List Token × σ :=
  Scan.allInto sink d s [] (.ofText source)

/-- Reads scans until the result is complete: the result, the scans left and the sink. It takes the
reports of a scan when the scan comes, and then those of the decision on its token. -/
def Automaton.runInto {Mode Frame Result : Type} [Inhabited Result]
    (react : Mode → List Frame → Bool → Token → Turn Mode Frame Result) (mode : Mode)
    (stack : List Frame) (complained : Bool) (s : σ) : List Scan → Result × List Scan × σ
  | [] => (default, [], s)
  | x :: scans =>
    let turn := react mode stack complained x.token
    let s := turn.reports.foldl sink (x.reports.foldl sink s)
    match turn.move with
    | .consume mode stack => runInto react mode stack false s scans
    | .finish result _ => (result, { x with reports := [] } :: scans, s)

namespace Json

/-- The value of a text, and the sink with the reports on it. -/
def parseInto (source : String) (options : Options) (s : σ) : Value × σ :=
  let r := Reader.ofText source options
  match r.oversized with
  | some max => (.null, sink s (.atPoint (.maxSizeExceeded max) .start))
  | none =>
    let (v, unread, s) :=
      Automaton.runInto sink (react r.options.limits) .value [] r.complained s r.unread
    (v, { r with unread := unread }.trailing.foldl sink s)

end Json

namespace Expression

/-- The tree of a text, and the sink with the reports on it. -/
def parseInto (source : String) (options : Options) (s : σ) : Node × σ :=
  match options.limits.exceededSize source with
  | some max => (.placeholder (.point .start), sink s (.atPoint (.maxSizeExceeded max) .start))
  | none =>
    let (tokens, s) := tokenizeInto sink source options.dialect s
    let solid := tokens.filter (!·.kind.isTrivia)
    let (n, unread, s) :=
      Automaton.runInto sink (react options.limits) .signed [] false s (solid.map (⟨[], ·⟩))
    (n, (Reader.mk options none unread false).trailing.foldl sink s)

end Expression

end Resilient
