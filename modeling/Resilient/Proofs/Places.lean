import Resilient.Proofs.Expression.Extents
import Resilient.Proofs.Json.Reports

/-!
# Every place is one of the text

Tokens, reports and trees tell places. `Position.IsIn` is what a place promises to a reader who
looks it up; here all of them are collected for a text (`places_isIn`), whatever the text holds and
however it is read.
-/

namespace Resilient

variable {source : String} {p : Position}

theorem Position.IsIn.ne_default (h : p.IsIn source) : p ≠ default := by
  rintro rfl
  obtain ⟨before, behind, -, -, hline, -⟩ := h.told
  have : (0 : Nat) = 1 + before.toList.count '\n' := hline
  omega

/-- The tokens and reports of a text in any dialect, the reports on it as JSON or as an expression
under any options, and all nodes of its tree cover ranges of it. None of them tells the place
`0:0`. -/
theorem places_isIn (source : String) :
    (∀ d, (∀ t ∈ (tokenize source d).1, t.span.IsIn source) ∧
        ∀ r ∈ (tokenize source d).2, r.span.IsIn source) ∧
      (∀ options, ∀ r ∈ (Json.parse source options).2, r.span.IsIn source) ∧
      (∀ options, (∀ n ∈ (Expression.parse source options).1.subtrees, n.span.IsIn source) ∧
        ∀ r ∈ (Expression.parse source options).2, r.span.IsIn source) ∧
      ∀ s : Span, s.IsIn source → s.start ≠ default ∧ s.stop ≠ default := by
  refine ⟨fun d => ⟨fun t ht => ?_, fun r hr => ?_⟩, Json.isIn_of_mem_parse source,
    fun options => ⟨fun n hn => ?_, (Expression.placed_parse source options).2⟩,
    fun s hs => ⟨hs.start.ne_default, hs.stop.ne_default⟩⟩
  · obtain ⟨s, hs, rfl⟩ := List.mem_map.1 ht
    exact (Scan.isIn_of_mem hs).1
  · obtain ⟨s, hs, hr⟩ := List.mem_flatMap.1 hr
    exact (Scan.isIn_of_mem hs).2 r hr
  · exact ((Expression.placed_parse source options).1.of_mem_subtrees hn).isIn

end Resilient
