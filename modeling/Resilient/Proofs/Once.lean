import Resilient.Proofs.Expression.Accounts
import Resilient.Proofs.Json.Accounts
import Resilient.Proofs.Json.Depth

/-!
# One report for each token

However often a reader is asked, it never goes back: of each token it reports at most once that
something else was wanted, and in the order of the text (`tokens_reported_once`).
-/

namespace Resilient

open List (SublistForall₂)

/-- Is it the report of a comma with nothing behind it? -/
def Diagnostic.isTrailingComma (d : Diagnostic) : Bool := d.fault = .trailingComma

/-- Of each token it is reported at most once that something else was wanted, of each comma that
nothing is behind it, and of each token that opens that it opens too deep. Each kind of report is
made in the order of the text. -/
structure ReportsOnce (opens : Kind → Bool) (ts : List Token) (rs : List Diagnostic) : Prop where
  misplaced : OneEach Diagnostic.Misplaces ts (rs.filter (·.isExpected))
  trailing : OneEach Diagnostic.Trails ts (rs.filter (·.isTrailingComma))
  tooDeep : OneEach (Diagnostic.Overreaches opens) ts (rs.filter (·.isDepth))

variable {opens : Kind → Bool} {ts : List Token} {rs : List Diagnostic}

theorem filter_remarks {p : Diagnostic → Bool} {R : Diagnostic → Token → Prop}
    (h : SublistForall₂ (Diagnostic.Remarks opens) (rs.filter (·.isRemark)) ts)
    (hp : ∀ d, p d = true → d.isRemark = true)
    (hR : ∀ d t, d.Remarks opens t → p d = true → R d t) : SublistForall₂ R (rs.filter p) ts := by
  have hall := sublistForall₂_filter h hR
  have heq : (rs.filter (·.isRemark)).filter p = rs.filter p := by
    rw [List.filter_filter]
    refine List.filter_congr fun d _ => ?_
    cases hd : p d with
    | false => rfl
    | true => simp [hp d hd]
  rwa [heq] at hall

theorem reportsOnce_of_sublistForall₂
    (hts : ts.Pairwise fun t u => t.span.start.offset < u.span.start.offset)
    (hexpected : SublistForall₂ Diagnostic.Misplaces (rs.filter (·.isExpected)) ts)
    (hremarks : SublistForall₂ (Diagnostic.Remarks opens) (rs.filter (·.isRemark)) ts) :
    ReportsOnce opens ts rs where
  misplaced := oneEach_of_sublistForall₂ hexpected (fun _ _ h => h.span) hts
  trailing := by
    refine oneEach_of_sublistForall₂ (filter_remarks hremarks ?_ ?_) (fun _ _ h => h.span) hts
    · intro d hd
      have hd : d.fault = .trailingComma := of_decide_eq_true hd
      simp [Diagnostic.isRemark, hd]
    · rintro d t (h | ⟨-, max, rfl⟩) hd
      · exact h
      · cases hd
  tooDeep := by
    refine oneEach_of_sublistForall₂ (filter_remarks hremarks ?_ ?_) (fun _ _ h => h.span) hts
    · intro d hd
      unfold Diagnostic.isDepth at hd
      split at hd
      · rename_i hfault
        simp [Diagnostic.isRemark, hfault]
      · cases hd
    · rintro d t (⟨-, rfl⟩ | h) hd
      · cases hd
      · exact h

theorem reportsOnce_of_oversized {max : Nat}
    (h : ∀ d ∈ rs, d = .atPoint (.maxSizeExceeded max) .start)
    (hts : ts.Pairwise fun t u => t.span.start.offset < u.span.start.offset) :
    ReportsOnce opens ts rs := by
  have hexpected : rs.filter (·.isExpected) = [] := by
    refine List.filter_eq_nil_iff.2 fun d hd => ?_
    rw [h d hd]
    simp [Diagnostic.isExpected, Diagnostic.atPoint, Diagnostic.of]
  have hremarks : rs.filter (·.isRemark) = [] := by
    refine List.filter_eq_nil_iff.2 fun d hd => ?_
    rw [h d hd]
    simp [Diagnostic.isRemark, Diagnostic.atPoint, Diagnostic.of]
  exact reportsOnce_of_sublistForall₂ hts (hexpected ▸ .nil) (hremarks ▸ .nil)

/-- However often a reader of either language is asked for the next document or expression: it is
reported at most once of each token that something else was wanted, at most once of each comma that
nothing is behind it, and at most once of each opening bracket that it opens too deep, each in the
order of the text. -/
theorem tokens_reported_once (source : String) (n : Nat) :
    (∀ o : Json.Options, ReportsOnce Kind.opens (tokenize source o.dialect).1
        ((Json.Reader.ofText source o).documents n).2.1) ∧
      ∀ o : Expression.Options, ReportsOnce (· = .leftParen) (tokenize source o.dialect).1
        ((Expression.Reader.ofText source o).2 ++
          ((Expression.Reader.ofText source o).1.expressions n).2.1) := by
  refine ⟨fun o => ?_, fun o => ?_⟩
  · have hts := starts_tokenize (Json.proper_dialect o.comments) source
    cases hsize : o.limits.exceededSize source with
    | some max =>
      have hover : (Json.Reader.ofText source o).oversized = some max := by
        rw [Json.Reader.ofText, hsize]
      exact reportsOnce_of_oversized (Json.documents_of_oversized hover n).2 hts
    | none =>
      obtain ⟨taken, h⟩ := (Json.accounted_ofText hsize).documents n
      have htaken : taken.Sublist (tokenize source o.dialect).1 :=
        h.text ▸ List.sublist_append_left taken _
      refine reportsOnce_of_sublistForall₂ hts ?_
        (sublistForall₂_of_sublist h.account.remarks.sublistForall₂ htaken)
      rw [h.text]
      exact h.account.complaints.sublistForall₂
  · have hts := starts_tokenize (Expression.proper_dialect o.comments) source
    cases hsize : o.limits.exceededSize source with
    | some max =>
      have hover : (Expression.Reader.ofText source o).1.oversized = some max := by
        rw [Expression.Reader.ofText, hsize]
      have hquiet : (Expression.Reader.ofText source o).2 = [] := by
        rw [Expression.Reader.ofText, hsize]
      rw [hquiet, List.nil_append]
      exact reportsOnce_of_oversized (Expression.expressions_of_oversized hover n) hts
    | none =>
      obtain ⟨taken, h⟩ := (Expression.accounted_ofText hsize).expressions n
      have hsolid : ((tokenize source o.dialect).1.filter (!·.kind.isTrivia)).Sublist
          (tokenize source o.dialect).1 := List.filter_sublist
      rw [h.text] at hsolid
      exact reportsOnce_of_sublistForall₂ hts
        (sublistForall₂_of_sublist h.account.complaints.sublistForall₂ hsolid)
        (sublistForall₂_of_sublist h.account.remarks
          ((List.sublist_append_left taken _).trans hsolid))

end Resilient
