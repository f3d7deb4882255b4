import Resilient.Proofs.Expression.Beginning
import Resilient.Proofs.Json.Beginning

/-!
# Texts that end too early

A document or an expression that is cut between two tokens is reported once, at the place of the
cut, and of a document everything in front of the cut is kept (`beginning_reported_once`).
-/

namespace Resilient

/-- The report that something is missing at the end of a text. -/
def endExpected (wanted source : String) : Diagnostic :=
  .of (.expected wanted Kind.eof.name) (.point (Position.start.after source.toList))

/-- If a document is cut at a boundary and what is in front of the cut is none, reading it reports
once that something is missing at its end, and so it is with expressions. Of a document, each item
and each member in front of the cut has its place and its value, unless a later member in front of
the cut begins with its key, or with that of a member around it. -/
theorem beginning_reported_once (cut rest : String) :
    (∀ v, Json.Document false (cut ++ rest).toList v →
      Boundary Dialect.json (cut ++ rest) cut.utf8ByteSize →
        ((¬ ∃ u, Json.Document false cut.toList u) →
          ∃ wanted, (Json.parse cut .unlimited).2 = [endExpected wanted cut]) ∧
        ∀ ss e, Scan.ofText Dialect.json (cut ++ rest) = ss ++ [e] →
          ∀ own rivals path w, Json.Element ss (.value v) own rivals path w →
            (∀ s ∈ own, s.token.span.stop.offset ≤ cut.utf8ByteSize) →
            (∀ s ∈ rivals, cut.utf8ByteSize < s.token.span.stop.offset) →
              (Json.parse cut .unlimited).1.at? path = some w) ∧
    ∀ comments tree,
      (tokenize (cut ++ rest) (Dialect.expression.withComments comments)).2 = [] →
      Expression.Sentence (.level .assignment) (Expression.solidTokens (cut ++ rest) comments)
        tree →
      Boundary (Dialect.expression.withComments comments) (cut ++ rest) cut.utf8ByteSize →
      ¬ ((tokenize cut (Dialect.expression.withComments comments)).2 = [] ∧ ∃ tree,
        Expression.Sentence (.level .assignment) (Expression.solidTokens cut comments) tree) →
        ∃ wanted, (Expression.parse cut ⟨comments, .unlimited⟩).2 = [endExpected wanted cut] := by
  refine ⟨fun v h hb => ⟨Json.reports_of_beginning h hb, ?_⟩, ?_⟩
  · exact fun ss e hscans own rivals path w => Json.at?_of_beginning h hb hscans
  · exact fun comments tree hclean h hb => Expression.reports_of_beginning hclean hb h

/-- The second item is missing, and so is the second operand of the sum; the first item is kept. -/
theorem beginning_reported_once_item :
    (∃ wanted, (Json.parse "[true," .unlimited).2 = [endExpected wanted "[true,"]) ∧
      (Json.parse "[true," .unlimited).1.at? [.index 0] = some (.bool true) ∧
      ∃ wanted, (Expression.parse "(1+" ⟨false, .unlimited⟩).2 = [endExpected wanted "(1+"] := by
  have hdocument : Json.Document false ("[true," ++ "false]").toList
      (.array [.bool true, .bool false]) := by
    have hmark : ∀ kind c, (kind, c) ∈ Json.punctuation →
        (Json.Terminals.text false).mark kind [c] :=
      fun kind c hc => ⟨[], c, [], hc, .nil, .nil, rfl⟩
    have htrue : (Json.Terminals.text false).scalar (.bool true) "true".toList := .true
    have hfalse : (Json.Terminals.text false).scalar (.bool false) "false".toList := .false
    exact ⟨[], _, [], [], rfl, .nil, .array (hmark .leftBracket '[' (by decide))
      (.moreItems (.oneItem (.bool htrue)) (hmark .comma ',' (by decide)) (.bool hfalse))
      (hmark .rightBracket ']' (by decide)), .nil, .nil⟩
  have hboundary : Boundary Dialect.json ("[true," ++ "false]") "[true,".utf8ByteSize := by
    unfold Boundary
    decide +kernel
  obtain ⟨hreports, hkept⟩ := (beginning_reported_once "[true," "false]").1 _ hdocument hboundary
  refine ⟨hreports ?_, ?_, ?_⟩
  · rintro ⟨u, hu⟩
    have hone : (Json.parse "[true," .unlimited).2.length = 1 := by decide +kernel
    have hnone : Json.parse "[true," .unlimited = (u, []) := Json.parse_of_document hu
    rw [hnone] at hone
    cases hone
  · obtain ⟨a, x, c, y, b, e, hscans, ha, hx, hc, hy, hb, hstop⟩ : ∃ a x c y b e,
        Scan.ofText Dialect.json ("[true," ++ "false]") = [a, x, c, y, b] ++ [e] ∧
          a.token.kind = .leftBracket ∧
          (x.token.kind = .trueWord ∧ x.token.payload = some (.bool true)) ∧
          c.token.kind = .comma ∧
          (y.token.kind = .falseWord ∧ y.token.payload = some (.bool false)) ∧
          b.token.kind = .rightBracket ∧
          x.token.span.stop.offset ≤ "[true,".utf8ByteSize := by
      refine ⟨⟨[], .bare .leftBracket ⟨⟨0, 1, 1⟩, ⟨1, 1, 2⟩⟩⟩,
        ⟨[], ⟨.trueWord, ⟨⟨1, 1, 2⟩, ⟨5, 1, 6⟩⟩, some (.bool true)⟩⟩,
        ⟨[], .bare .comma ⟨⟨5, 1, 6⟩, ⟨6, 1, 7⟩⟩⟩,
        ⟨[], ⟨.falseWord, ⟨⟨6, 1, 7⟩, ⟨11, 1, 12⟩⟩, some (.bool false)⟩⟩,
        ⟨[], .bare .rightBracket ⟨⟨11, 1, 12⟩, ⟨12, 1, 13⟩⟩⟩, ⟨[], .atEnd ⟨12, 1, 13⟩⟩, ?_⟩
      decide +kernel
    have hx : Json.Terminals.scan.scalar (.bool true) [x] := ⟨x, rfl, hx⟩
    have hy : Json.Terminals.scan.scalar (.bool false) [y] := ⟨y, rfl, hy⟩
    have hitem : Json.Element [a, x, c, y, b] (.value (.array [.bool true, .bool false])) [x] []
        [.index 0] (.bool true) :=
      .array ⟨a, rfl, ha⟩ (.item (.oneItem (.whole (.bool hx))) ⟨c, rfl, hc⟩ (.bool hy))
        ⟨b, rfl, hb⟩
    exact hkept _ e hscans _ _ _ _ hitem (by simpa using hstop) (by simp)
  · have hquiet : (Expression.parse ("(1+" ++ "2)") ⟨false, .unlimited⟩).2 = [] := by
      decide +kernel
    have hboundary : Boundary (Dialect.expression.withComments false) ("(1+" ++ "2)")
        "(1+".utf8ByteSize := by
      unfold Boundary
      decide +kernel
    obtain ⟨hclean, hsentence⟩ := Expression.sentence_of_reports hquiet
    refine (beginning_reported_once "(1+" "2)").2 false _ hclean hsentence hboundary ?_
    rintro ⟨htokens, tree, h⟩
    have hone : (Expression.parse "(1+" ⟨false, .unlimited⟩).2.length = 1 := by decide +kernel
    rw [(Expression.parse_of_sentence h).2, htokens] at hone
    cases hone

end Resilient
