import Mathlib.Data.List.Chain
import Resilient.Proofs.Expression.Acceptance
import Resilient.Proofs.Expression.Limits
import Resilient.Proofs.Json.Acceptance
import Resilient.Proofs.Json.Limits
import Resilient.Proofs.Source.Comments

/-!
# Allowing comments

A text that is read without a report and without comments is read in the same way where comments
are allowed (`clean_withComments`). In JSON nothing but a comment begins with a slash outside a
literal. In an expression a slash is an operator, and behind an operator an operand begins
(`Expression.complete_of_sentence`), so neither a slash nor a star stands directly behind it.
-/

namespace Resilient

variable {source : String}

namespace Json

/-- In a text without a report no lexeme begins with a slash, so none begins as a comment does. -/
theorem tokenize_eq_of_clean (hclean : (tokenize source (dialect false)).2 = []) :
    tokenize source (dialect true) = tokenize source (dialect false) := by
  obtain ⟨os, hos⟩ := exists_lexed (proper_dialect false) .start source.toList
  rw [tokenize_of_lexed (proper_dialect false) hos] at hclean
  have hreports := List.flatMap_eq_nil_iff.1 hclean
  refine tokenize_withComments (d := Dialect.json) (proper_dialect false) hos
    fun q tail os' hsuffix htail => ?_
  by_contra hcomment
  obtain ⟨c, rest, rfl, -⟩ := exists_cons_of_readComment hcomment
  obtain ⟨op, -, -, hop, hhead, -⟩ := htail.exists_mark (d := Dialect.json)
    (proper_dialect false).spelled (.inl rfl) fun o ho => hreports o (hsuffix.subset ho)
  have key : ∀ op ∈ Operator.json, op.spelling.toList.head? ≠ some '/' := by decide
  exact key op hop hhead

theorem reports_tokenize {o : Options} (hw : o.whole = true) (h : (parse source o).2 = []) :
    (tokenize source o.dialect).2 = [] := by
  have hfree : parse source o = parse source (Options.unlimited.withComments o.comments) := by
    rw [parse_eq_unlimited (by simp [h])]
    obtain ⟨comments, whole, limits⟩ := o
    obtain rfl : whole = true := hw
    rfl
  rw [hfree] at h
  obtain ⟨ss, q, hscans, -, hr⟩ := scansFrom_document (document_of_reports h) source .start
  have hscans : Scan.ofText o.dialect source = ss ++ [⟨[], .atEnd q⟩] := hscans
  rw [tokenize, hscans]
  simpa using hr

theorem parse_withComments {o : Options} {v : Value} (hw : o.whole = true)
    (h : parse source (o.withComments false) = (v, [])) :
    parse source (o.withComments true) = (v, []) := by
  have hclean : (tokenize source (o.withComments false).dialect).2 = [] :=
    reports_tokenize hw (by rw [h])
  have hscans : Scan.ofText (o.withComments true).dialect source =
      Scan.ofText (o.withComments false).dialect source :=
    Scan.ofText_eq_of_tokenize hclean (tokenize_eq_of_clean hclean)
  rw [← h]
  cases hsize : o.limits.exceededSize source with
  | some max =>
    have hlong : ∀ allowed, (o.withComments allowed).limits.exceededSize source = some max :=
      fun _ => hsize
    rw [parse_of_exceededSize (hlong _), parse_of_exceededSize (hlong _)]
  | none =>
    have hfits : ∀ allowed, (o.withComments allowed).limits.exceededSize source = none :=
      fun _ => hsize
    rw [parse_of_fits (hfits _), parse_of_fits (hfits _), hscans]
    rfl

end Json

namespace Expression

variable {t u o : Token} {ts us : List Token} {r : Rule} {tree : Tree}

/-! ### Behind operators -/

/-- The kinds of the operators: an operand begins behind such a token. -/
def takesOperand (k : Kind) : Bool := k = .caret || binaryOperators.any (·.1 = k)

/-- A token that begins an operand, with or without a sign. -/
def Begins (t : Token) : Prop := startsOperand t.kind = true ∨ t.kind = .minus

/-- Tokens none of which is an operator without an operand behind it. -/
structure Complete (ts : List Token) : Prop where
  follows : ts.IsChain fun t u => takesOperand t.kind = true → Begins u
  ends : ∀ t ∈ ts.getLast?, takesOperand t.kind = false

namespace Complete

theorem single (ht : takesOperand t.kind = false) : Complete [t] :=
  ⟨.singleton t, by simpa using ht⟩

theorem append (hs : Complete ts) (h : Complete us) : Complete (ts ++ us) := by
  constructor
  · refine hs.follows.append h.follows fun x hx y _ hop => ?_
    rw [hs.ends x hx] at hop
    cases hop
  · intro t ht
    rw [List.getLast?_append] at ht
    rcases Option.or_eq_some_iff.1 ht with ht | ⟨-, ht⟩
    · exact h.ends t ht
    · exact hs.ends t ht

theorem cons (h : Complete (u :: us)) (ho : takesOperand o.kind = true → Begins u) :
    Complete (o :: u :: us) := by
  refine ⟨h.follows.cons_cons ho, ?_⟩
  rw [List.getLast?_cons_cons]
  exact h.ends

/-- Behind an operator an operand begins, whatever stands behind the part. -/
theorem begins_of_adjacent (h : Complete ts) {e : Token} (hbeside : [t, u] <:+: ts ++ [e])
    (ht : takesOperand t.kind = true) : Begins u := by
  have hchain := h.follows.append (.singleton e) fun x hx y _ hop => by
    rw [h.ends x hx] at hop
    cases hop
  have hpair := List.IsChain.infix hchain hbeside
  exact List.isChain_pair.1 hpair ht

end Complete

theorem begins_of_sentence (h : Sentence r ts tree) : ∃ t us, ts = t :: us ∧ Begins t := by
  induction h with
  | inner _ _ ih => exact ih
  | binary _ _ _ _ ih _ | product _ _ ih _ | power _ _ _ ih _ =>
    obtain ⟨t, us, rfl, ht⟩ := ih
    exact ⟨t, _, rfl, ht⟩
  | negation ho _ _ => exact ⟨_, _, rfl, .inr ho⟩
  | identifier hk _ | number hk _ | group hk _ _ _ => exact ⟨_, _, rfl, .inl (by rw [hk]; rfl)⟩

theorem complete_of_sentence (h : Sentence r ts tree) : Complete ts := by
  induction h with
  | inner _ _ ih => exact ih
  | binary _ _ _ h ihs ih | power _ _ h ihs ih =>
    obtain ⟨u, us, rfl, hu⟩ := begins_of_sentence h
    exact ihs.append (ih.cons fun _ => hu)
  | negation _ h ih =>
    obtain ⟨u, us, rfl, hu⟩ := begins_of_sentence h
    exact ih.cons fun _ => hu
  | product _ _ ihs ih => exact ihs.append ih
  | identifier hk _ | number hk _ => exact .single (by rw [hk]; decide)
  | @group ts a b _ ha h hb ih =>
    obtain ⟨u, us, rfl, hu⟩ := begins_of_sentence h
    have hclose : takesOperand b.kind = false := by rw [hb]; decide
    exact (ih.append (.single hclose)).cons fun _ => hu

/-! ### Slashes -/

/-- Operators side by side in the text are side by side among the tokens. -/
theorem adjacent_solidTokens {os os' : List Occurrence} {p q : Position} {op op' : Operator}
    (hos : Lexed (dialect false) .start source.toList os)
    (hsuffix : ⟨p, .operator op⟩ :: ⟨q, .operator op'⟩ :: os' <:+ os)
    (hop : op ∈ Operator.expression) (hop' : op' ∈ Operator.expression) :
    ∃ t u, t.kind = op.kind ∧ u.kind = op'.kind ∧
      [t, u] <:+: solidTokens source false ++ [endOf source] := by
  let t := Token.bare op.kind ⟨p, p.after op.spelling.toList⟩
  let u := Token.bare op'.kind ⟨q, q.after op'.spelling.toList⟩
  have ht : Occurrence.token? (dialect false) ⟨p, .operator op⟩ = some t := rfl
  have hu : Occurrence.token? (dialect false) ⟨q, .operator op'⟩ = some u := rfl
  have hbehind := hsuffix.filterMap (Occurrence.token? (dialect false))
  rw [List.filterMap_cons_some ht, List.filterMap_cons_some hu] at hbehind
  have hpair : [t, u] <:+: (tokenize source (dialect false)).1 := by
    rw [tokenize_of_lexed (proper_dialect false) hos]
    exact (List.prefix_append [t, u] _).isInfix.trans
      (hbehind.isInfix.trans (List.prefix_append _ _).isInfix)
  have hsolid : ∀ op ∈ Operator.expression, op.kind.isTrivia = false := by decide
  have hkept : [t, u].filter (!·.kind.isTrivia) = [t, u] := by
    simp [t, u, Token.bare, hsolid op hop, hsolid op' hop']
  refine ⟨t, u, rfl, rfl, ?_⟩
  rw [← filter_tokenize, ← hkept]
  exact hpair.filter _

/-- In a text whose operators all have their operands, neither a slash nor a star follows directly
behind a slash. -/
theorem tokenize_eq_of_complete (hclean : (tokenize source (dialect false)).2 = [])
    (h : Complete (solidTokens source false)) :
    tokenize source (dialect true) = tokenize source (dialect false) := by
  obtain ⟨os, hos⟩ := exists_lexed (proper_dialect false) .start source.toList
  rw [tokenize_of_lexed (proper_dialect false) hos] at hclean
  have hreports := List.flatMap_eq_nil_iff.1 hclean
  have hspelled : Dialect.expression.Spelled := (proper_dialect false).spelled
  refine tokenize_withComments (d := Dialect.expression) (proper_dialect false) hos
    fun q tail os' hsuffix htail => ?_
  by_contra hcomment
  obtain ⟨c, text, rfl, hc⟩ := exists_cons_of_readComment hcomment
  have hos' : ∀ o ∈ os', o.reports (dialect false) = [] :=
    fun o ho => hreports o (hsuffix.subset ho)
  obtain ⟨op, rest, os₁, hop, hhead, rfl, hrest, hbehind⟩ :=
    htail.exists_mark hspelled (.inl rfl) hos'
  have hslash : ∀ op ∈ Operator.expression, op.spelling.toList.head? = some '/' →
      op.spelling.toList = ['/'] ∧ takesOperand op.kind = true := by decide
  obtain ⟨htext, htakes⟩ := hslash op hop hhead
  rw [htext, List.singleton_append, List.cons.injEq] at hrest
  obtain ⟨-, rfl⟩ := hrest
  obtain ⟨op', -, os₂, hop', hhead', rfl, -, -⟩ := hbehind.exists_mark hspelled hc
    fun o ho => hos' o (List.mem_cons_of_mem _ ho)
  obtain ⟨t, u, ht, hu, hbeside⟩ := adjacent_solidTokens hos hsuffix hop hop'
  have hmark : ∀ op ∈ Operator.expression,
      op.spelling.toList.head? = some '/' ∨ op.spelling.toList.head? = some '*' →
        startsOperand op.kind = false ∧ op.kind ≠ .minus := by decide
  have hhead' : op'.spelling.toList.head? = some '/' ∨ op'.spelling.toList.head? = some '*' := by
    rcases hc with rfl | rfl
    · exact .inl hhead'
    · exact .inr hhead'
  obtain ⟨hstarts, hminus⟩ := hmark op' hop' hhead'
  rcases h.begins_of_adjacent hbeside (by rw [ht]; exact htakes) with hb | hb
  · rw [hu, hstarts] at hb
    cases hb
  · exact hminus (hu ▸ hb)

theorem parse_withComments {o : Options} {n : Node}
    (h : parse source (o.withComments false) = (n, [])) :
    parse source (o.withComments true) = (n, []) := by
  have hfree : parse source (o.withComments false) = parse source ⟨false, .unlimited⟩ :=
    parse_eq_unlimited (by simp [h])
  have hreports : (parse source ⟨false, .unlimited⟩).2 = [] := by rw [← hfree, h]
  obtain ⟨hclean, hsentence⟩ := sentence_of_reports hreports
  have htokens := tokenize_eq_of_complete hclean (complete_of_sentence hsentence)
  rw [← h]
  cases hsize : o.limits.exceededSize source with
  | some max =>
    have hlong : ∀ allowed, (o.withComments allowed).limits.exceededSize source = some max :=
      fun _ => hsize
    rw [parse_of_exceededSize (hlong _), parse_of_exceededSize (hlong _)]
  | none =>
    have hfits : ∀ allowed, (o.withComments allowed).limits.exceededSize source = none :=
      fun _ => hsize
    have hsolid : solidTokens source true = solidTokens source false := by
      rw [solidTokens, htokens, solidTokens]
    have htokens : tokenize source (o.withComments true).dialect =
        tokenize source (o.withComments false).dialect := htokens
    have hsolid : solidTokens source (o.withComments true).comments =
        solidTokens source (o.withComments false).comments := hsolid
    rw [parse_of_fits (hfits _), parse_of_fits (hfits _), htokens, hsolid]
    rfl

end Expression

/-- Allowing comments does not change how a text is read that is accepted without: if a JSON text is
read to its end without a report, or an expression without a report, the same value or the same
tree, with its ranges, is read where comments are allowed, and nothing is reported. -/
theorem clean_withComments (source : String) :
    (∀ (o : Json.Options) (v : Value), o.whole = true →
        Json.parse source (o.withComments false) = (v, []) →
        Json.parse source (o.withComments true) = (v, [])) ∧
      ∀ (o : Expression.Options) (n : Node),
        Expression.parse source (o.withComments false) = (n, []) →
        Expression.parse source (o.withComments true) = (n, []) :=
  ⟨fun _ _ hw h => Json.parse_withComments hw h, fun _ _ h => Expression.parse_withComments h⟩

/-- Slashes and stars in a literal, and a quotient of products. -/
theorem clean_withComments_slashes :
    (∃ v, Json.parse "[\"/* // */\"]" (Json.Options.standard.withComments false) = (v, []) ∧
        Json.parse "[\"/* // */\"]" (Json.Options.standard.withComments true) = (v, [])) ∧
      ∃ n, Expression.parse "a*b/ -2*c" (Expression.Options.standard.withComments false) = (n, []) ∧
        Expression.parse "a*b/ -2*c" (Expression.Options.standard.withComments true) = (n, []) := by
  constructor
  · have hclean : Json.parse "[\"/* // */\"]" (Json.Options.standard.withComments false) =
        (_, []) := Prod.ext rfl (by decide +kernel)
    exact ⟨_, hclean, (clean_withComments _).1 .standard _ rfl hclean⟩
  · have hclean : Expression.parse "a*b/ -2*c" (Expression.Options.standard.withComments false) =
        (_, []) := Prod.ext rfl (by decide +kernel)
    exact ⟨_, hclean, (clean_withComments _).2 .standard _ hclean⟩

end Resilient
