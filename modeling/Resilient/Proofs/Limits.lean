import Resilient.Proofs.Expression.Limits
import Resilient.Proofs.Json.Limits

/-!
# Limits

A limit that is not reported has no effect, and a limit always holds, whatever the text is
(`limits_invisible_or_reported`).
-/

namespace Resilient

/-- If no limit is reported on a text, its result and all reports on it are those without limits. A
text longer than the bound on size is not looked at: the placeholder stands for it and only its size
is reported. No container of a JSON value lies inside as many others as the bound on depth says. -/
theorem limits_invisible_or_reported (source : String) :
    (∀ o : Json.Options, (∀ d ∈ (Json.parse source o).2, d.category ≠ .limit) →
        Json.parse source o = Json.parse source { o with limits := .unlimited }) ∧
      (∀ o : Expression.Options, (∀ d ∈ (Expression.parse source o).2, d.category ≠ .limit) →
        Expression.parse source o = Expression.parse source { o with limits := .unlimited }) ∧
      (∀ (o : Json.Options) (max : Nat), o.limits.size = some max → max < source.utf8ByteSize →
        Json.parse source o = (.null, [.atPoint (.maxSizeExceeded max) .start])) ∧
      (∀ (o : Expression.Options) (max : Nat), o.limits.size = some max →
        max < source.utf8ByteSize → Expression.parse source o =
          (.placeholder (.point .start), [.atPoint (.maxSizeExceeded max) .start])) ∧
      ∀ (o : Json.Options) (max : Nat), o.limits.depth = some max → ∀ n v,
        Value.Within n (Json.parse source o).1 v → v.isContainer = true → n < max := by
  have hexceeded : ∀ (limits : Limits) (max : Nat), limits.size = some max →
      max < source.utf8ByteSize → limits.exceededSize source = some max := by
    intro limits max hsize hlong
    simp [Limits.exceededSize, hsize, hlong]
  refine ⟨fun o h => Json.parse_eq_unlimited h, fun o h => Expression.parse_eq_unlimited h,
    fun o max hsize hlong => ?_, fun o max hsize hlong => ?_, fun o max hl n v h hv => ?_⟩
  · exact Json.parse_of_exceededSize (hexceeded o.limits max hsize hlong)
  · exact Expression.parse_of_exceededSize (hexceeded o.limits max hsize hlong)
  · exact Json.lt_of_within_parse hl h hv

/-- Two arrays, one inside the other, within both bounds, longer than the bound on size, and deeper
than the bound on depth. -/
theorem limits_invisible_or_reported_brackets :
    Json.parse "[[]]" ⟨false, true, ⟨some 2, some 4⟩⟩ = Json.parse "[[]]" .unlimited ∧
      Expression.parse "[[]]" ⟨false, ⟨some 1, some 4⟩⟩ =
        Expression.parse "[[]]" ⟨false, .unlimited⟩ ∧
      Json.parse "[[]]" ⟨false, true, ⟨none, some 3⟩⟩ =
        (.null, [.atPoint (.maxSizeExceeded 3) .start]) ∧
      Expression.parse "[[]]" ⟨false, ⟨none, some 3⟩⟩ =
        (.placeholder (.point .start), [.atPoint (.maxSizeExceeded 3) .start]) ∧
      ∀ n v, Value.Within n (Json.parse "[[]]" ⟨false, true, ⟨some 1, none⟩⟩).1 v →
        v.isContainer = true → n < 1 := by
  obtain ⟨hjson, hexpression, hlong, hlong', hdepth⟩ := limits_invisible_or_reported "[[]]"
  refine ⟨hjson _ ?_, hexpression _ ?_, hlong _ 3 rfl ?_, hlong' _ 3 rfl ?_, hdepth _ 1 rfl⟩
  · decide +kernel
  · decide +kernel
  · decide +kernel
  · decide +kernel

end Resilient
