import Resilient.Proofs.Expression.Extents

/-!
# Trees from their builders

Whatever ranges the operands have, even ranges that end before they start, an application gets the
least range that covers them, and so does a node that is widened (`Span.Least`). So in every tree
that is put together by the builders each node covers its operands, and each tree of that sort can
be put together (`Node.spans_least`).
-/

namespace Resilient

namespace Span

variable {parts : List Span} {s t : Span} {n : Node} {ns : List Node}

/-- The least range that covers the parts. -/
structure Least (parts : List Span) (s : Span) : Prop where
  /-- It starts where a part starts, and no part starts before it. -/
  start : ∃ p ∈ parts, s.start = p.start ∧ ∀ q ∈ parts, p.start.offset ≤ q.start.offset
  /-- It ends where a part ends, and no part ends behind it. -/
  stop : ∃ p ∈ parts, s.stop = p.stop ∧ ∀ q ∈ parts, q.stop.offset ≤ p.stop.offset
  covers : ∀ p ∈ parts, s.contains p = true
  /-- Every range that covers the parts covers it. -/
  least : ∀ t : Span, (∀ p ∈ parts, t.contains p = true) → t.contains s = true

theorem Least.of_ends
    (hstart : ∃ p ∈ parts, s.start = p.start ∧ ∀ q ∈ parts, p.start.offset ≤ q.start.offset)
    (hstop : ∃ p ∈ parts, s.stop = p.stop ∧ ∀ q ∈ parts, q.stop.offset ≤ p.stop.offset) :
    Least parts s where
  start := hstart
  stop := hstop
  covers p hp := by
    obtain ⟨a, -, ha, hfirst⟩ := hstart
    obtain ⟨b, -, hb, hlast⟩ := hstop
    rw [contains_iff, ha, hb]
    exact ⟨hfirst p hp, hlast p hp⟩
  least t ht := by
    obtain ⟨a, hmem, ha, -⟩ := hstart
    obtain ⟨b, hmem', hb, -⟩ := hstop
    rw [contains_iff, ha, hb]
    exact ⟨((contains_iff t a).1 (ht a hmem)).1, ((contains_iff t b).1 (ht b hmem')).2⟩

theorem least_singleton (s : Span) : Least [s] s :=
  .of_ends ⟨s, by simp⟩ ⟨s, by simp⟩

theorem Least.merge (h : Least parts s) (t : Span) : Least (parts ++ [t]) (s.merge t) := by
  obtain ⟨a, hmem, ha, hfirst⟩ := h.start
  obtain ⟨b, hmem', hb, hlast⟩ := h.stop
  refine .of_ends ?_ ?_
  · by_cases hlt : t.start.offset < s.start.offset
    · refine ⟨t, by simp, if_pos hlt, List.forall_mem_append.2 ⟨fun q hq => ?_, by simp⟩⟩
      exact Nat.le_of_lt (Nat.lt_of_lt_of_le (ha ▸ hlt) (hfirst q hq))
    · refine ⟨a, by simp [hmem], (if_neg hlt).trans ha, List.forall_mem_append.2 ⟨hfirst, ?_⟩⟩
      exact List.forall_mem_singleton.2 (ha ▸ Nat.le_of_not_lt hlt)
  · by_cases hlt : s.stop.offset < t.stop.offset
    · refine ⟨t, by simp, if_pos hlt, List.forall_mem_append.2 ⟨fun q hq => ?_, by simp⟩⟩
      exact Nat.le_of_lt (Nat.lt_of_le_of_lt (hlast q hq) (hb ▸ hlt))
    · refine ⟨b, by simp [hmem'], (if_neg hlt).trans hb, List.forall_mem_append.2 ⟨hlast, ?_⟩⟩
      exact List.forall_mem_singleton.2 (hb ▸ Nat.le_of_not_lt hlt)

theorem Least.foldl_merge (h : Least parts s) (ns : List Node) :
    Least (parts ++ ns.map Node.span) (ns.foldl (fun s n => s.merge n.span) s) := by
  induction ns generalizing parts s with
  | nil => simpa using h
  | cons n ns ih => simpa using ih (h.merge n.span)

/-- A range that covers another one is not changed by it, not even in lines and columns. -/
theorem merge_of_contains (h : s.contains t = true) : s.merge t = s := by
  rw [contains_iff] at h
  simp [merge, Nat.not_lt.2 h.1, Nat.not_lt.2 h.2]

theorem foldl_merge_of_contains (h : ∀ n ∈ ns, s.contains n.span = true) :
    ns.foldl (fun s n => s.merge n.span) s = s := by
  induction ns with
  | nil => rfl
  | cons n ns ih =>
    rw [List.forall_mem_cons] at h
    rw [List.foldl_cons, merge_of_contains h.1, ih h.2]

end Span

namespace Node

variable {n : Node} {ns : List Node} {s : Span} {f : Symbol}

theorem least_apply (f : Symbol) (n : Node) (ns : List Node) :
    Span.Least ((n :: ns).map span) (apply f (n :: ns)).span :=
  (Span.least_singleton n.span).foldl_merge ns

theorem least_applyWithin (s : Span) (f : Symbol) (ns : List Node) :
    Span.Least (s :: ns.map span) (applyWithin s f ns).span :=
  (Span.least_singleton s).foldl_merge ns

theorem least_widen (s : Span) (n : Node) : Span.Least [n.span, s] (n.widen s).span := by
  rw [span_widen]
  exact (Span.least_singleton n.span).merge s

/-! ### Whole trees -/

/-- Each node covers its operands. -/
def Closed (n : Node) : Prop :=
  ∀ m ∈ n.subtrees, ∀ k ∈ m.operands, m.span.contains k.span = true

theorem closed_literal (v : Scalar) (s : Span) : (literal v s).Closed := by
  simp [Closed, subtrees, operands]

theorem closed_identifier (name : String) (s : Span) : (identifier name s).Closed := by
  simp [Closed, subtrees, operands]

theorem closed_call_iff :
    (call f ns s).Closed ↔
      (∀ n ∈ ns, s.contains n.span = true) ∧ ∀ n ∈ ns, n.Closed := by
  simp only [Closed, subtrees, List.forall_mem_cons, operands, span, mem_subtreesAll]
  refine and_congr_right fun _ => ⟨fun h n hn m hm => h m ⟨n, hn, hm⟩, fun h m hm => ?_⟩
  obtain ⟨n, hn, hm⟩ := hm
  exact h n hn m hm

theorem Closed.apply (h : ∀ n ∈ ns, n.Closed) : (apply f ns).Closed := by
  cases ns with
  | nil => exact closed_call_iff.2 ⟨by simp, h⟩
  | cons n ns =>
    have hleast := least_apply f n ns
    exact closed_call_iff.2 ⟨fun k hk => hleast.covers _ (List.mem_map_of_mem hk), h⟩

theorem Closed.applyWithin (h : ∀ n ∈ ns, n.Closed) : (applyWithin s f ns).Closed := by
  have hleast := least_applyWithin s f ns
  exact closed_call_iff.2
    ⟨fun k hk => hleast.covers _ (List.mem_cons_of_mem _ (List.mem_map_of_mem hk)), h⟩

/-- A node over a wider range still covers its operands. -/
theorem Closed.widen (h : n.Closed) (s : Span) : (n.widen s).Closed := by
  cases n with
  | literal v t => exact closed_literal v _
  | identifier name t => exact closed_identifier name _
  | call f ns t =>
    obtain ⟨hcovers, hns⟩ := closed_call_iff.1 h
    exact closed_call_iff.2 ⟨fun k hk => Span.contains_merge_left (hcovers k hk) s, hns⟩

/-- The trees that can be put together. -/
inductive Built : Node → Prop where
  | literal (v : Scalar) (s : Span) : Built (.literal v s)
  | identifier (name : String) (s : Span) : Built (.identifier name s)
  | placeholder (s : Span) : Built (.placeholder s)
  | apply (f : Symbol) {ns : List Node} (h : ∀ n ∈ ns, Built n) : Built (.apply f ns)
  | applyWithin (s : Span) (f : Symbol) {ns : List Node} (h : ∀ n ∈ ns, Built n) :
    Built (.applyWithin s f ns)
  | binary (f : Symbol) {l r : Node} (hl : Built l) (hr : Built r) : Built (.binary f l r)
  | widen (s : Span) {n : Node} (h : Built n) : Built (n.widen s)

theorem Built.closed (h : n.Built) : n.Closed := by
  induction h with
  | literal v s => exact closed_literal v s
  | identifier name s => exact closed_identifier name s
  | placeholder s => exact closed_literal .null s
  | apply f _ ih => exact .apply ih
  | applyWithin s f _ ih => exact .applyWithin ih
  | binary f _ _ ihl ihr => exact .apply (by simp [ihl, ihr])
  | widen s _ ih => exact ih.widen s

/-- An application that covers its operands is one over its own range. -/
theorem Closed.built : ∀ {n : Node}, n.Closed → n.Built
  | .literal v s, _ => .literal v s
  | .identifier name s, _ => .identifier name s
  | .call f ns s, h => by
    obtain ⟨hcovers, hns⟩ := closed_call_iff.1 h
    have happly : call f ns s = .applyWithin s f ns := by
      rw [Node.applyWithin, Span.foldl_merge_of_contains hcovers]
    rw [happly]
    exact .applyWithin s f fun n hn => (hns n hn).built

/-- An application has the least range over its operands, if there are any; an application over a
range has the least one over that range and the operands; and a widened node has the least one over
its old range and the new one. The trees that can be put together from literals, identifiers,
placeholders, applications and widened nodes are those where each node covers its operands. -/
theorem spans_least :
    (∀ f n ns, Span.Least ((n :: ns).map span) (apply f (n :: ns)).span) ∧
    (∀ s f ns, Span.Least (s :: ns.map span) (applyWithin s f ns).span) ∧
    (∀ s n, Span.Least [n.span, s] (widen s n).span) ∧
    ∀ n, Built n ↔ ∀ m ∈ n.subtrees, ∀ k ∈ m.operands, m.span.contains k.span = true :=
  ⟨least_apply, least_applyWithin, least_widen, fun _ => ⟨Built.closed, Closed.built⟩⟩

end Node

end Resilient
