import Resilient.Proofs.Expression.Acceptance
import Resilient.Proofs.Expression.Reports
import Resilient.Proofs.Source.Beginning

/-!
# What is read of the beginning of an expression

If an expression ends too early, the missing operand or the first missing parenthesis is reported at
the end, and the end is not reported again for the parentheses around (`reports_of_beginning`).
-/

namespace Resilient

namespace Expression

variable {t : Token} {cut rest : String} {comments : Bool} {tree : Tree}

theorem once_react (h : t.kind = .eof) (limits : Limits) (mode : Mode) (st : List Frame)
    (c : Bool) : (react limits mode st c t).Once t c := by
  cases tells_react limits mode st c t with
  | once honce _ => exact honce
  | tooDeep hk _ =>
    rw [h] at hk
    cases hk

/-! ### Whole texts -/

section

variable (hclean : (tokenize (cut ++ rest) (dialect comments)).2 = [])
  (hb : Boundary (dialect comments) (cut ++ rest) cut.utf8ByteSize)

include hclean hb

/-- The tokens of a text that is cut at a boundary. -/
theorem exists_solidTokens_append : (tokenize cut (dialect comments)).2 = [] ∧
    ∃ more, solidTokens (cut ++ rest) comments = solidTokens cut comments ++ more := by
  obtain ⟨ss, ts, e, hall, he, hcut, hss, -⟩ :=
    Scan.ofText_beginning (proper_dialect comments) (.inl rfl) hclean hb
  have htokens := filter_tokenize (cut ++ rest) comments
  have hbefore := filter_tokenize cut comments
  have he : ([e.token]).filter (!·.kind.isTrivia) = [e.token] := by simp [he, Kind.isTrivia]
  rw [tokenize, hall] at htokens
  rw [tokenize, hcut] at hbefore ⊢
  simp only [List.map_append, List.filter_append, List.map_cons, List.map_nil, he] at htokens
  rw [List.map_append, List.filter_append] at hbefore
  obtain ⟨hcut, -⟩ := List.append_singleton_inj.1 hbefore
  obtain ⟨hall, -⟩ := List.append_singleton_inj.1 htokens
  refine ⟨?_, (ts.map Scan.token).filter (!·.kind.isTrivia), ?_⟩
  · simpa using fun s hs => (hss s hs).1
  · rw [← hall, ← hcut]

/-- If the beginning of an expression is none itself, its end is reported, once, and nothing
else. -/
theorem reports_of_beginning
    (h : Sentence (.level .assignment) (solidTokens (cut ++ rest) comments) tree)
    (hcut : ¬ ((tokenize cut (dialect comments)).2 = [] ∧
      ∃ tree, Sentence (.level .assignment) (solidTokens cut comments) tree)) :
    ∃ wanted, (parse cut ⟨comments, .unlimited⟩).2 =
      [.of (.expected wanted Kind.eof.name) (.point (Position.start.after cut.toList))] := by
  have hl : Limits.unlimited.depth = none := rfl
  obtain ⟨htokens, more, htext⟩ := exists_solidTokens_append hclean hb
  obtain ⟨n, -, hgapped⟩ := h.gapped true (endOf (cut ++ rest))
  obtain ⟨c, z, found, late, hp, -, hr⟩ := leads_gapped hl hgapped [] (by simp [Loose])
    (Nat.zero_le _)
  obtain ⟨rfl, -⟩ := List.append_eq_nil_iff.1 hr.symm
  rw [htext, scans_append] at hp
  let last : Scan := ⟨[], endOf cut⟩
  have heof : last.token.kind = .eof := rfl
  obtain ⟨y, u, c, -, -, hrun⟩ := Automaton.run_of_beginning (s := last) hp rfl
    fun x => react_eof heof .unlimited x.mode x.stack x.complained
  have hparse : (parse cut ⟨comments, .unlimited⟩).2 =
      (y.meet (react .unlimited) last.token).reports := by
    have hfits : (⟨comments, .unlimited⟩ : Options).limits.exceededSize cut = none := rfl
    have hlimits : (⟨comments, .unlimited⟩ : Options).limits = .unlimited := rfl
    have hdialect : (⟨comments, .unlimited⟩ : Options).dialect = dialect comments := rfl
    rw [Rule.mode] at hrun
    rw [parse_of_fits hfits, hlimits, hdialect, hrun, htokens]
    simp [Reader.trailing, Reader.current, Token.isEof, heof]
  have hne : (y.meet (react .unlimited) last.token).reports ≠ [] := by
    rw [← hparse]
    exact fun hnone => hcut ⟨htokens, _, (sentence_of_reports hnone).2⟩
  rw [hparse]
  exact (once_react heof .unlimited y.mode y.stack y.complained).eq_singleton hne

end

end Expression

end Resilient
