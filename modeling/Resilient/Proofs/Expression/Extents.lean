import Mathlib.Tactic.SplitIfs
import Resilient.Proofs.Expression.Acceptance
import Resilient.Proofs.Source.Tokens

/-!
# The ranges of a tree

A tree is `Placed` in a text if each of its nodes covers a range of the text, within the range of
the node above it and behind its neighbour to the left. What waits on the stack is placed in the
same way, from the bottom to the token at hand (`Stacked`), and every decision keeps that
(`placed_react`). So the tree of every text is placed, whatever is wrong with the text
(`placed_parse`).
-/

namespace Resilient

mutual

/-- The nodes of a tree, each before its operands. -/
def Node.subtrees : Node → List Node
  | .literal v s => [.literal v s]
  | .identifier name s => [.identifier name s]
  | .call symbol ns s => .call symbol ns s :: Node.subtreesAll ns

/-- All subtrees of a list of trees. -/
def Node.subtreesAll : List Node → List Node
  | [] => []
  | n :: ns => n.subtrees ++ Node.subtreesAll ns

end

namespace Node

theorem mem_subtrees_self (n : Node) : n ∈ n.subtrees := by
  cases n <;> exact List.mem_cons_self

theorem mem_subtreesAll {m : Node} {ns : List Node} :
    m ∈ subtreesAll ns ↔ ∃ n ∈ ns, m ∈ n.subtrees := by
  induction ns with
  | nil => simp [subtreesAll]
  | cons n ns ih => simp [subtreesAll, ih]

/-- Every node covers a range of the text. The operands of a node lie within its range, in order
and without overlap. -/
inductive Placed (source : String) : Node → Prop where
  | literal {v : Scalar} {s : Span} (h : s.IsIn source) : Placed source (.literal v s)
  | identifier {name : String} {s : Span} (h : s.IsIn source) : Placed source (.identifier name s)
  | call {symbol : Symbol} {ns : List Node} {s : Span} (h : s.IsIn source)
      (within : ∀ n ∈ ns, s.contains n.span = true)
      (ordered : ns.IsChain fun a b => a.span.stop.offset ≤ b.span.start.offset)
      (hs : ∀ n ∈ ns, Placed source n) : Placed source (.call symbol ns s)

namespace Placed

variable {source : String} {n l m : Node} {s : Span}

theorem isIn (h : n.Placed source) : n.span.IsIn source := by
  cases h with
  | literal h | identifier h | call h _ _ _ => exact h

theorem placeholder (h : s.IsIn source) : (Node.placeholder s).Placed source := .literal h

theorem widen (h : n.Placed source) (hs : s.IsIn source) : (n.widen s).Placed source := by
  cases h with
  | literal h => exact .literal (h.merge hs)
  | identifier h => exact .identifier (h.merge hs)
  | call h within ordered hns =>
    exact .call (h.merge hs) (fun m hm => Span.contains_merge_left (within m hm) s) ordered hns

theorem binary (symbol : Symbol) (hl : l.Placed source) (hm : m.Placed source)
    (h : l.span.stop.offset ≤ m.span.start.offset) : (Node.binary symbol l m).Placed source := by
  refine .call (hl.isIn.merge hm.isIn) ?_ (by simpa using h) (by simp [hl, hm])
  simp only [List.forall_mem_cons, List.not_mem_nil, false_imp_iff, implies_true, and_true,
    Span.contains_iff, List.foldl_cons, List.foldl_nil, Span.start_offset_merge,
    Span.stop_offset_merge]
  omega

theorem applyWithin (symbol : Symbol) (hs : s.IsIn source) (hn : n.Placed source) :
    (Node.applyWithin s symbol [n]).Placed source := by
  refine .call (hs.merge hn.isIn) ?_ (by simp) (by simp [hn])
  simp only [List.forall_mem_cons, List.not_mem_nil, false_imp_iff, implies_true, and_true,
    Span.contains_iff, List.foldl_cons, List.foldl_nil, Span.start_offset_merge,
    Span.stop_offset_merge]
  omega

theorem of_mem_subtrees (h : n.Placed source) (hm : m ∈ n.subtrees) : m.Placed source := by
  induction h with
  | literal h =>
    rw [subtrees, List.mem_singleton] at hm
    exact hm ▸ .literal h
  | identifier h =>
    rw [subtrees, List.mem_singleton] at hm
    exact hm ▸ .identifier h
  | @call symbol ns s h within ordered hs ih =>
    rw [subtrees] at hm
    rcases List.mem_cons.1 hm with rfl | hm
    · exact .call h within ordered hs
    · obtain ⟨k, hk, hm⟩ := mem_subtreesAll.1 hm
      exact ih k hk hm

end Placed

end Node

namespace Expression

variable {source : String} {limits : Limits} {t : Token} {n : Node} {f : Frame} {st : List Frame}
  {turn : Turn} {lo hi : Nat}

/-! ### What waits on the stack -/

/-- The range of what waits. -/
def Frame.span : Frame → Span
  | .group b | .negation b => b
  | .operand l _ _ | .factor l | .base l => l.span

/-- What waits in the frame is placed in the source. -/
def Frame.Placed (source : String) : Frame → Prop
  | .group b | .negation b => b.IsIn source
  | .operand l _ _ | .factor l | .base l => l.Placed source

/-- What waits is placed, in order and without overlap, and it ends at the offset at the latest. -/
def Stacked (source : String) (lo : Nat) : List Frame → Prop
  | [] => True
  | f :: st => f.Placed source ∧ f.span.stop.offset ≤ lo ∧ Stacked source f.span.start.offset st

theorem Stacked.mono (h : Stacked source lo st) (hle : lo ≤ hi) : Stacked source hi st := by
  cases st with
  | nil => trivial
  | cons f st => exact ⟨h.1, Nat.le_trans h.2.1 hle, h.2.2⟩

theorem Frame.Placed.isIn (h : f.Placed source) : f.span.IsIn source := by
  cases f with
  | group b | negation b => exact h
  | operand l s i | factor l | base l => exact Node.Placed.isIn h

theorem Frame.Placed.join (h : f.Placed source) (hn : n.Placed source)
    (hle : f.span.stop.offset ≤ n.span.start.offset) :
    (f.join n).Placed source ∧ (f.join n).span.start.offset = f.span.start.offset ∧
      (f.join n).span.stop.offset = n.span.stop.offset := by
  have hf := h.isIn.ordered
  have hin := hn.isIn.ordered
  cases f with
  | group b =>
    refine ⟨hn.widen h, ?_⟩
    simp only [Frame.join, Frame.span, Node.span_widen, Span.start_offset_merge,
      Span.stop_offset_merge] at hle hf ⊢
    omega
  | negation b =>
    refine ⟨.applyWithin .neg h hn, ?_⟩
    simp only [Frame.join, Node.applyWithin, Node.span, List.foldl_cons, List.foldl_nil,
      Frame.span, Span.start_offset_merge, Span.stop_offset_merge] at hle hf hin ⊢
    omega
  | operand l s i | factor l | base l =>
    refine ⟨.binary _ h hn hle, ?_⟩
    simp only [Frame.join, Node.binary, Node.apply, Frame.span, List.foldl_cons,
      List.foldl_nil] at hle hf ⊢
    rw [Node.span, Span.start_offset_merge, Span.stop_offset_merge]
    omega

/-- The operand in the mode and what waits for it are placed, and they end at the offset at the
latest. -/
def Mode.Placed (source : String) (lo : Nat) (st : List Frame) : Mode → Prop
  | .signed | .primary => Stacked source lo st
  | .settled n =>
    n.Placed source ∧ n.span.stop.offset ≤ lo ∧ Stacked source n.span.start.offset st
  | .skip _ b last =>
    b.IsIn source ∧ b.stop.offset ≤ lo ∧
      (∀ l ∈ last, l.IsIn source ∧ b.stop.offset ≤ l.start.offset ∧ l.stop.offset ≤ lo) ∧
      Stacked source b.start.offset st

/-! ### Decisions -/

/-- Reports stand at the token, and what the decision leaves is placed up to the token's end. -/
structure Keeps (source : String) (t : Token) (turn : Turn) : Prop where
  reports : ∀ d ∈ turn.reports, d.span = t.span
  leaves : turn.Leaves (fun mode st => mode.Placed source t.span.stop.offset st)
    (Node.Placed source)

theorem Keeps.behind (h : Keeps source t turn) (wanted : String) (c : Bool) :
    Keeps source t (turn.behind (t.expected wanted c)) := by
  refine ⟨fun d hd => ?_, h.leaves⟩
  rcases List.mem_append.1 hd with hd | hd
  · unfold Token.expected at hd
    split_ifs at hd
    · cases hd
    · rw [List.mem_singleton.1 hd]
      rfl
  · exact h.reports d hd

theorem keeps_consume {mode : Mode} (h : mode.Placed source t.span.stop.offset st) :
    Keeps source t (.consume mode st) := ⟨by simp, h⟩

theorem keeps_finish (h : n.Placed source) (t : Token) (c : Bool) :
    Keeps source t (.finish n c) := ⟨by simp [Turn.finish], h⟩

section

variable (ht : t.span.IsIn source)

include ht

theorem keeps_operandAt (limits : Limits) (h : Stacked source t.span.start.offset st) :
    Keeps source t (operandAt limits t st) := by
  unfold operandAt
  split
  · exact keeps_consume ⟨.identifier ht, Nat.le_refl _, h⟩
  · exact keeps_consume ⟨.literal ht, Nat.le_refl _, h⟩
  · split
    · exact ⟨by simp [Diagnostic.of], ht, Nat.le_refl _, by simp, h⟩
    · exact keeps_consume ⟨ht, Nat.le_refl _, h⟩

theorem keeps_shift (limits : Limits) (hn : n.Placed source)
    (hle : n.span.stop.offset ≤ t.span.start.offset)
    (h : Stacked source n.span.start.offset st) : Keeps source t (shift limits t n st) := by
  have hend := Nat.le_trans hle ht.ordered
  unfold shift
  split_ifs
  · exact keeps_consume ⟨hn, hend, h⟩
  · exact keeps_operandAt ht limits ⟨hn, hle, h⟩
  · split
    · exact keeps_consume ⟨hn, hend, h⟩
    · exact keeps_finish hn t false

theorem keeps_settle (limits : Limits) (c : Bool) (hn : n.Placed source)
    (hle : n.span.stop.offset ≤ t.span.start.offset)
    (h : Stacked source n.span.start.offset st) :
    Keeps source t (settle limits t c n st) := by
  induction st generalizing c n with
  | nil =>
    unfold settle
    split_ifs
    · exact keeps_finish hn t c
    · exact keeps_shift ht limits hn hle h
  | cons f st ih =>
    obtain ⟨hf, hfn, hst⟩ := h
    obtain ⟨hjoin, hstart, hstop⟩ := hf.join hn hfn
    -- What waits takes the operand and is the operand of what waits below.
    have hnext : ∀ c, Keeps source t (settle limits t c (f.join n) st) := fun c =>
      ih c hjoin (by omega) (by rwa [hstart])
    have hstack : Stacked source n.span.start.offset (f :: st) := ⟨hf, hfn, hst⟩
    have hshift := keeps_shift ht limits hn hle hstack
    cases f with
    | group b =>
      unfold settle
      split_ifs
      · exact hshift
      · have hb := hf.isIn.ordered
        have htoken := ht.ordered
        have hnode := hn.isIn.ordered
        simp only [Frame.span] at hb hfn hst
        refine keeps_consume ⟨hn.widen (Span.IsIn.merge hf ht), ?_, ?_⟩
        · simp only [Node.span_widen, Span.stop_offset_merge]
          omega
        · refine hst.mono ?_
          simp only [Node.span_widen, Span.start_offset_merge]
          omega
      · exact (hnext true).behind _ _
    | operand l s i | negation b | factor l | base l =>
      unfold settle
      split_ifs
      · exact hnext c
      · exact hshift

theorem keeps_primaryAt (limits : Limits) (c : Bool) (h : Stacked source t.span.start.offset st) :
    Keeps source t (primaryAt limits t c st) := by
  unfold primaryAt
  split_ifs
  · exact keeps_operandAt ht limits h
  · have hp := Node.Placed.placeholder (Span.IsIn.point ht.start)
    exact (keeps_settle ht limits true hp (Nat.le_refl _) h).behind _ _

/-- Inside parentheses that stand too deep; the end of the text takes no place. -/
theorem keeps_skipAt (limits : Limits) (c : Bool) {k : Nat} {b : Span} {last : Option Span}
    (he : t.kind = .eof → t.span.stop = t.span.start)
    (h : (Mode.skip k b last).Placed source t.span.start.offset st) :
    Keeps source t (skipAt limits t c k b last st) := by
  obtain ⟨hb, hble, hlast, hst⟩ := h
  have htoken := ht.ordered
  have horder := hb.ordered
  have hafter : ∀ l ∈ some t.span, l.IsIn source ∧ b.stop.offset ≤ l.start.offset ∧
      l.stop.offset ≤ t.span.stop.offset := by
    rintro l ⟨⟩
    exact ⟨ht, hble, Nat.le_refl _⟩
  unfold skipAt
  split_ifs with hk
  · obtain ⟨hin, hbl, hle⟩ : (last.getD t.span).IsIn source ∧
        b.stop.offset ≤ (last.getD t.span).start.offset ∧
        (last.getD t.span).stop.offset ≤ t.span.start.offset := by
      cases last with
      | none => exact ⟨ht, hble, Nat.le_of_eq (congrArg Position.offset (he hk))⟩
      | some l => exact hlast l rfl
    refine keeps_settle ht limits c (.placeholder (hb.merge hin)) ?_ (hst.mono ?_)
    · rw [Node.placeholder, Node.span, Span.stop_offset_merge]
      omega
    · rw [Node.placeholder, Node.span, Span.start_offset_merge]
      omega
  · refine keeps_consume ⟨.placeholder (hb.merge ht), ?_, hst.mono ?_⟩
    · rw [Node.placeholder, Node.span, Span.stop_offset_merge]
      omega
    · rw [Node.placeholder, Node.span, Span.start_offset_merge]
      omega
  all_goals exact keeps_consume ⟨hb, Nat.le_trans hble htoken, hafter, hst⟩

theorem keeps_react (limits : Limits) (c : Bool) {mode : Mode}
    (he : t.kind = .eof → t.span.stop = t.span.start)
    (h : mode.Placed source t.span.start.offset st) :
    Keeps source t (react limits mode st c t) := by
  cases mode with
  | signed =>
    simp only [react]
    split_ifs
    · exact keeps_consume ⟨ht, Nat.le_refl _, h⟩
    · exact keeps_primaryAt ht limits c h
  | primary => exact keeps_primaryAt ht limits c h
  | settled n => exact keeps_settle ht limits c h.1 h.2.1 h.2.2
  | skip k b last => exact keeps_skipAt ht limits c he h

end

/-! ### Whole texts -/

theorem Mode.Placed.mono {mode : Mode} (h : mode.Placed source lo st) (hle : lo ≤ hi) :
    mode.Placed source hi st := by
  cases mode with
  | signed | primary => exact Stacked.mono h hle
  | settled n => exact ⟨h.1, Nat.le_trans h.2.1 hle, h.2.2⟩
  | skip k b last =>
    obtain ⟨hb, hble, hlast, hst⟩ := h
    exact ⟨hb, Nat.le_trans hble hle, fun l hl =>
      ⟨(hlast l hl).1, (hlast l hl).2.1, Nat.le_trans (hlast l hl).2.2 hle⟩, hst⟩

/-- Tokens without reports that cover ranges of the text, in order and without overlap; the end
takes no place. -/
structure Lined (source : String) (scans : List Scan) : Prop where
  isIn : ∀ s ∈ scans, s.IsIn source
  inOrder : Scan.InOrder scans
  eof : ∀ s ∈ scans, s.token.kind = .eof → s.token.span.stop = s.token.span.start

/-- What waits is placed before the scans left. -/
def Ahead (source : String) (mode : Mode) (st : List Frame) (scans : List Scan) : Prop :=
  Lined source scans ∧
    ∃ lo, mode.Placed source lo st ∧ ∀ s ∈ scans, lo ≤ s.token.span.start.offset

theorem ahead_react {mode : Mode} {s : Scan} {ss : List Scan}
    (h : Ahead source mode st (s :: ss)) (limits : Limits) (c : Bool) :
    (∀ d ∈ s.reports, d.span.IsIn source) ∧
      (∀ d ∈ (react limits mode st c s.token).reports, d.span.IsIn source) ∧
      (react limits mode st c s.token).Leaves (fun mode st => Ahead source mode st ss)
        (Node.Placed source) := by
  obtain ⟨⟨hin, horder, heof⟩, lo, hmode, hlo⟩ := h
  obtain ⟨⟨htoken, hreports⟩, hss⟩ := List.forall_mem_cons.1 hin
  obtain ⟨hnext, horder⟩ := List.pairwise_cons.1 horder
  obtain ⟨htold, hleaves⟩ := keeps_react htoken limits c (heof s (by simp))
    (hmode.mono (hlo s (by simp)))
  refine ⟨hreports, fun d hd => htold d hd ▸ htoken, ?_⟩
  unfold Turn.Leaves at hleaves ⊢
  split at hleaves
  · exact ⟨⟨hss, horder, fun s hs => heof s (by simp [hs])⟩, _, hleaves, hnext⟩
  · exact hleaves

theorem lined_solidTokens (source : String) (comments : Bool) :
    Lined source (scans (solidTokens source comments) ++ [⟨[], endOf source⟩]) := by
  have heq : scans (solidTokens source comments) ++ [⟨[], endOf source⟩] =
      scans ((tokenize source (dialect comments)).1.filter (!·.kind.isTrivia)) := by
    rw [filter_tokenize, scans_append]
    rfl
  have horder : (tokenize source (dialect comments)).1.Pairwise fun t u =>
      t.span.stop.offset ≤ u.span.start.offset :=
    List.pairwise_map.2 (Scan.inOrder_ofText (dialect comments) source)
  constructor
  · rw [heq]
    intro s hs
    obtain ⟨t, ht, rfl⟩ := List.mem_map.1 hs
    obtain ⟨u, hu, rfl⟩ := List.mem_map.1 (List.mem_filter.1 ht).1
    exact ⟨(Scan.isIn_of_mem hu).1, by simp⟩
  · rw [heq]
    exact List.pairwise_map.2 (horder.filter _)
  · intro s hs he
    rcases List.mem_append.1 hs with hs | hs
    · obtain ⟨t, ht, rfl⟩ := List.mem_map.1 hs
      exact absurd he (mem_of_mem_solidTokens ht).2
    · rw [List.mem_singleton.1 hs]
      rfl

/-- The tree of a text is placed in it, and all reports on the text cover ranges of it. -/
theorem placed_parse (source : String) (options : Options) :
    (parse source options).1.Placed source ∧
      ∀ d ∈ (parse source options).2, d.span.IsIn source := by
  cases h : options.limits.exceededSize source with
  | some max =>
    have hstart := Span.IsIn.point (Position.Sees.of_source source).isIn
    rw [parse_of_exceededSize h]
    exact ⟨.placeholder hstart, List.forall_mem_singleton.2 hstart⟩
  | none =>
    have hlined := lined_solidTokens source options.comments
    have hstay : ∀ x : State, (x.meet (react options.limits) (endOf source)).Finishes :=
      fun x => react_eof rfl options.limits x.mode x.stack x.complained
    have hahead : Ahead source .signed []
        (scans (solidTokens source options.comments) ++ [⟨[], endOf source⟩]) :=
      ⟨hlined, 0, trivial, by simp⟩
    obtain ⟨hresult, hreports, t, ht, rest, hrest⟩ := Automaton.run_invariant hstay
      (fun mode st c s ss hs => ahead_react hs options.limits c) false _ hahead
    rw [parse_of_fits h]
    refine ⟨hresult, fun d hd => ?_⟩
    rcases List.mem_append.1 hd with hd | hd
    · obtain ⟨s, hs, hd⟩ := List.mem_flatMap.1 hd
      exact (Scan.isIn_of_mem hs).2 d hd
    rcases List.mem_append.1 hd with hd | hd
    · exact hreports d hd
    · simp only [hrest, Reader.trailing, Reader.current, List.head?_cons, Option.map_some] at hd
      split at hd
      · cases hd
      · rw [List.mem_singleton.1 hd]
        exact (hlined.isIn t ht).1

/-- Whatever a text holds, each node of its tree covers a range of it that can be cut out; a node
covers its operands, and they stand in order without overlap. -/
theorem nodes_nested_in_order (source : String) (options : Options) :
    ∀ n ∈ (parse source options).1.subtrees,
      (n.span.slice source).isSome = true ∧ n.span.start.offset ≤ n.span.stop.offset ∧
        n.span.stop.offset ≤ source.utf8ByteSize ∧
        (∀ m ∈ n.operands, n.span.contains m.span = true) ∧
        n.operands.IsChain fun l m => l.span.stop.offset ≤ m.span.start.offset := by
  intro n hn
  have h := (placed_parse source options).1.of_mem_subtrees hn
  refine ⟨h.isIn.isSome_slice, h.isIn.ordered, h.isIn.bounded, ?_⟩
  cases h with
  | literal _ | identifier _ => exact ⟨by simp [Node.operands], by simp [Node.operands]⟩
  | call _ within ordered _ => exact ⟨within, ordered⟩

/-- A sum in a group that is not closed. -/
theorem nodes_nested_in_order_sum :
    ∃ l r, (parse "(a+b" ⟨false, .unlimited⟩).1.operands = [l, r] ∧
      (parse "(a+b" ⟨false, .unlimited⟩).1.span.contains l.span = true ∧
      (parse "(a+b" ⟨false, .unlimited⟩).1.span.contains r.span = true ∧
      l.span.stop.offset ≤ r.span.start.offset := by
  have hlength : (parse "(a+b" ⟨false, .unlimited⟩).1.operands.length = 2 := by decide +kernel
  obtain ⟨l, r, hlr⟩ := List.length_eq_two.1 hlength
  obtain ⟨-, -, -, hwithin, hordered⟩ :=
    nodes_nested_in_order "(a+b" ⟨false, .unlimited⟩ _ (Node.mem_subtrees_self _)
  rw [hlr] at hwithin hordered
  exact ⟨l, r, hlr, hwithin l (by simp), hwithin r (by simp), by simpa using hordered⟩

end Expression

end Resilient
