import Mathlib.Data.List.TakeWhile
import Resilient.Proofs.Expression.Reading
import Resilient.Proofs.Scan

/-!
# Which expressions are accepted without a report

As long as nothing is reported, the grammar explains what waits on the stack (`Pending`) and what
was read last (`Reached`). When an operand is complete, the frames on the stack are closed one by
one to sentences of looser layers (`sound_settle`).
-/

namespace Resilient

namespace Expression

/-- What waits on the stack, and the tokens that it was read from. Operators that wait bind more
loosely than those above them. -/
inductive Pending : List Frame → List Token → Prop where
  | nil : Pending [] []
  | group {st : List Frame} {ts : List Token} {a : Token} {b : Span} (hs : Pending st ts)
      (ha : a.kind = .leftParen) : Pending (.group b :: st) (ts ++ [a])
  | operand {st : List Frame} {ts us : List Token} {l : Node} {o : Token} {p : Precedence}
      {symbol : Symbol} (hs : Pending st ts) (hst : Loose p.level st)
      (h : Sentence (.level p) us l.tree) (ho : (o.kind, p, symbol) ∈ binaryOperators) :
      Pending (.operand l symbol p.level :: st) (ts ++ (us ++ [o]))
  | negation {st : List Frame} {ts : List Token} {o : Token} {b : Span} (hs : Pending st ts)
      (hst : Loose negationStrength st) (ho : o.kind = .minus) :
      Pending (.negation b :: st) (ts ++ [o])
  | factor {st : List Frame} {ts us : List Token} {l : Node} (hs : Pending st ts)
      (hst : Loose factorStrength st) (h : Sentence .term us l.tree) :
      Pending (.factor l :: st) (ts ++ us)
  | base {st : List Frame} {ts us : List Token} {l : Node} {o : Token} (hs : Pending st ts)
      (hst : Loose powerStrength st) (h : Sentence .atom us l.tree) (ho : o.kind = .caret) :
      Pending (.base l :: st) (ts ++ (us ++ [o]))

/-- The tokens that bring the automaton to a state without a report. -/
inductive Reached : Mode → List Frame → List Token → Prop where
  | signed {st : List Frame} {ts : List Token} (hs : Pending st ts)
      (hst : Loose negationStrength st) : Reached .signed st ts
  | primary {st : List Frame} {ts : List Token} (hs : Pending st ts) : Reached .primary st ts
  | settled {st : List Frame} {ts us : List Token} {n : Node} (hs : Pending st ts)
      (h : Sentence .primary us n.tree) : Reached (.settled n) st (ts ++ us)

variable {limits : Limits} {t : Token} {st : List Frame} {f : Frame} {n : Node} {k m : Nat}
  {ts us : List Token} {r q : Rule} {tree : Tree} {mode : Mode}

/-! ### Layers -/

namespace Rule

/-- Every layer. -/
def all : List Rule :=
  [.level .assignment, .level .bitwise, .level .comparison, .level .additive,
    .level .multiplicative, .signed, .term, .atom, .primary]

theorem mem_all (r : Rule) : r ∈ all := by
  cases r with
  | level p => cases p <;> decide
  | _ => decide

theorem eq_of_strength (h : r.strength = q.strength) : r = q := by
  have key : ∀ r ∈ all, ∀ q ∈ all, r.strength = q.strength → r = q := by decide
  exact key r (mem_all r) q (mem_all q) h

/-- A layer looser than a given one is built from one that is still no tighter. -/
theorem exists_inner (h : q.strength < r.strength) :
    ∃ i, q.inner = some i ∧ i.strength ≤ r.strength := by
  have key : ∀ r ∈ all, ∀ q ∈ all, q.strength < r.strength →
      q.inner.any (fun i => decide (i.strength ≤ r.strength)) = true := by decide
  have hk := key r (mem_all r) q (mem_all q) h
  obtain ⟨i, hi, hle⟩ := (Option.any_eq_true _ _).1 hk
  exact ⟨i, hi, of_decide_eq_true hle⟩

theorem assignment_le (r : Rule) : (level .assignment).strength ≤ r.strength := by
  have key : ∀ r ∈ all, (level .assignment).strength ≤ r.strength := by decide
  exact key r (mem_all r)

end Rule

theorem Sentence.loosen (h : Sentence r ts tree) (hr : q.strength ≤ r.strength) :
    Sentence q ts tree := by
  obtain ⟨d, hd⟩ : ∃ d, r.strength - q.strength = d := ⟨_, rfl⟩
  induction d using Nat.strongRecOn generalizing q with
  | ind d ih =>
    subst hd
    by_cases heq : q.strength = r.strength
    · rwa [Rule.eq_of_strength heq]
    · obtain ⟨i, hi, hle⟩ := Rule.exists_inner (Nat.lt_of_le_of_ne hr heq)
      have hlt := Rule.strength_lt_inner hi
      exact .inner hi (ih _ (by omega) hle rfl)

/-! ### Operands that are complete -/

/-- What waits on top of the stack takes an operand of a tighter layer. -/
theorem Pending.join (h : Pending (f :: st) ts) (hf : f.strength? = some m)
    (hn : Sentence r us n.tree) (hm : m < r.strength) :
    ∃ ts' us' r', ts ++ us = ts' ++ us' ∧ Pending st ts' ∧ Sentence r' us' (f.join n).tree ∧
      r'.strength = m ∧ Loose m st := by
  cases h with
  | group hs ha => cases hf
  | @operand _ ts vs l o p symbol hs hst h ho =>
    cases hf
    obtain ⟨i, hi, hle⟩ := Rule.exists_inner (q := .level p) hm
    refine ⟨ts, vs ++ o :: us, .level p, by simp, hs, ?_, rfl, hst⟩
    rw [Frame.join, Node.tree_binary]
    exact .binary h ho hi (hn.loosen hle)
  | @negation _ ts o b hs hst ho =>
    cases hf
    refine ⟨ts, o :: us, .signed, by simp, hs, ?_, rfl, hst⟩
    obtain ⟨i, hi, hle⟩ := Rule.exists_inner (q := .signed) hm
    cases hi
    rw [Frame.join, Node.tree_applyWithin]
    exact .negation ho (hn.loosen hle)
  | @factor _ ts vs l hs hst h =>
    cases hf
    refine ⟨ts, vs ++ us, .term, by simp, hs, ?_, rfl, hst⟩
    obtain ⟨i, hi, hle⟩ := Rule.exists_inner (q := .term) hm
    cases hi
    rw [Frame.join, Node.tree_binary]
    exact .product h (hn.loosen hle)
  | @base _ ts vs l o hs hst h ho =>
    cases hf
    refine ⟨ts, vs ++ o :: us, .atom, by simp, hs, ?_, rfl, hst⟩
    obtain ⟨i, hi, hle⟩ := Rule.exists_inner (q := .atom) hm
    cases hi
    rw [Frame.join, Node.tree_binary]
    exact .power h ho (hn.loosen hle)

theorem Pending.loose (h : Pending st ts) : Loose (Rule.strength .primary) st := by
  cases h with
  | nil => simp [Loose]
  | group hs ha => exact loose_group _ _ _
  | @operand _ _ _ _ _ p _ _ _ _ _ => exact loose_cons rfl (by cases p <;> decide)
  | negation _ _ _ | factor _ _ _ | base _ _ _ _ => exact loose_cons rfl (by decide)

/-! ### One token -/

/-- A token as it is scanned. -/
def Legal (t : Token) : Prop :=
  (t.kind = .identifier → ∃ name, t.payload = some (.string name)) ∧
    (t.kind = .number → ∃ x, t.payload = some (.number x))

/-- The decision on a token, taken without a report, goes on with what the grammar explains. -/
def Sound (ts : List Token) (t : Token) (turn : Turn) : Prop :=
  turn.reports = [] → match turn.move with
    | .consume mode st => Reached mode st (ts ++ [t])
    | .finish n _ => Sentence (.level .assignment) ts n.tree

theorem sound_of_expected {wanted : String} {turn : Turn} :
    Sound ts t (turn.behind (t.expected wanted false)) := by
  intro h
  simp [Token.expected] at h

theorem sound_operandAt (hl : limits.depth = none) (ht : Legal t)
    (hk : startsOperand t.kind = true) (hs : Pending st ts) :
    Sound ts t (operandAt limits t st) := by
  intro _
  cases hkind : t.kind with
  | identifier =>
    obtain ⟨name, hp⟩ := ht.1 hkind
    have hm : operandAt limits t st = .consume (.settled (.identifier name t.span)) st := by
      simp [operandAt, hkind, Token.text?, hp, Scalar.text?]
    rw [hm]
    refine .settled hs ?_
    simpa [Node.tree] using Sentence.identifier hkind hp
  | number =>
    obtain ⟨x, hp⟩ := ht.2 hkind
    have hm : operandAt limits t st = .consume (.settled (.literal (.number x) t.span)) st := by
      simp [operandAt, hkind, Token.number?, hp, Scalar.number?]
    rw [hm]
    refine .settled hs ?_
    simpa [Node.tree] using Sentence.number hkind hp
  | leftParen =>
    rw [operandAt_of_leftParen hl hkind]
    exact .signed (.group hs hkind) (loose_group _ _ _)
  | _ =>
    rw [hkind] at hk
    cases hk

theorem mem_of_binaryOperator? {kind : Kind} {symbol : Symbol} {i : Nat}
    (h : binaryOperator? kind = some (symbol, i)) :
    ∃ p, (kind, p, symbol) ∈ binaryOperators ∧ i = p.level := by
  cases kind <;> cases h <;> exact ⟨_, by decide, rfl⟩

theorem strength_le (kind : Kind) : strength kind ≤ powerStrength := by
  cases kind <;> decide

/-- A token that binds tighter than what waits begins something new. -/
theorem sound_shift (hl : limits.depth = none) (ht : Legal t) (hs : Pending st ts)
    (h : Sentence r us n.tree) (hk : strength t.kind ≤ r.strength)
    (hst : Loose (strength t.kind) st) (h0 : 0 < strength t.kind) :
    Sound (ts ++ us) t (shift limits t n st) := by
  by_cases hc : t.kind = .caret
  · have h70 : strength t.kind = powerStrength := by rw [hc]; rfl
    rw [h70] at hk hst
    rw [shift_of_caret hc]
    intro _
    have hp := Reached.primary (.base hs hst (h.loosen (q := .atom) hk) hc)
    simpa using hp
  · by_cases ho : startsOperand t.kind = true
    · have h60 := (strength_of_startsOperand ho).1
      rw [h60] at hk hst
      rw [shift_of_startsOperand ho]
      exact sound_operandAt hl ht ho (.factor hs hst (h.loosen (q := .term) hk))
    · cases hb : binaryOperator? t.kind with
      | none => simp [strength, hc, ho, hb] at h0
      | some e =>
        obtain ⟨symbol, i⟩ := e
        obtain ⟨p, hm, rfl⟩ := mem_of_binaryOperator? hb
        have hp := (binaryOperator_of_mem hm).1
        rw [hp] at hk hst
        rw [shift_of_binaryOperator hm]
        intro _
        have hnext := Reached.signed (.operand hs hst (h.loosen (q := .level p) hk) hm)
          (loose_cons rfl (by cases p <;> decide))
        simpa using hnext

/-- Behind a complete operand the stack is closed up to what binds more loosely than the token. -/
theorem sound_settle (hl : limits.depth = none) (ht : Legal t) (hs : Pending st ts)
    (h : Sentence r us n.tree) (hst : Loose r.strength st) (hk : strength t.kind ≤ r.strength) :
    Sound (ts ++ us) t (settle limits t false n st) := by
  induction st generalizing ts us r n with
  | nil =>
    by_cases h0 : strength t.kind = 0
    · cases hs
      unfold settle
      rw [if_pos h0]
      exact fun _ => h.loosen (Rule.assignment_le r)
    · rw [settle_of_loose (by simp [Loose]) (Nat.pos_of_ne_zero h0)]
      exact sound_shift hl ht hs h hk (by simp [Loose]) (Nat.pos_of_ne_zero h0)
  | cons f st ih =>
    cases hf : f.strength? with
    | some m =>
      have hm : m < r.strength := hst f rfl m hf
      by_cases hle : strength t.kind ≤ m
      · rw [settle_of_le hf hle]
        obtain ⟨ts', us', r', heq, hs', h', rfl, hst'⟩ := hs.join hf h hm
        rw [heq]
        exact ih hs' h' hst' hle
      · have hlt : m < strength t.kind := Nat.lt_of_not_le hle
        rw [settle_of_loose (loose_cons hf hlt) (Nat.lt_of_le_of_lt (Nat.zero_le m) hlt)]
        exact sound_shift hl ht hs h hk (loose_cons hf hlt)
          (Nat.lt_of_le_of_lt (Nat.zero_le m) hlt)
    | none =>
      cases f with
      | operand _ _ _ | negation _ | factor _ | base _ => cases hf
      | group b =>
        cases hs with
        | @group _ ts a b hs ha =>
          by_cases h0 : 0 < strength t.kind
          · rw [settle_of_loose (loose_group _ _ _) h0]
            exact sound_shift hl ht (.group hs ha) h hk (loose_group _ _ _) h0
          · unfold settle
            rw [if_neg h0]
            split
            · rename_i hp
              intro _
              have hg := Sentence.group ha (h.loosen (Rule.assignment_le r)) hp
              rw [← Node.tree_widen (b.merge t.span)] at hg
              have hnext := Reached.settled hs hg
              simpa using hnext
            · exact sound_of_expected

theorem sound_primaryAt (hl : limits.depth = none) (ht : Legal t) (hs : Pending st ts) :
    Sound ts t (primaryAt limits t false st) := by
  unfold primaryAt
  split
  · rename_i hk
    exact sound_operandAt hl ht hk hs
  · exact sound_of_expected

/-- What a token without a report does to a state that the grammar explains. -/
theorem sound_react (hl : limits.depth = none) (ht : Legal t) (h : Reached mode st ts) :
    Sound ts t (react limits mode st false t) := by
  cases h with
  | signed hs hst =>
    simp only [react]
    split
    · rename_i hk
      exact fun _ => .primary (.negation hs hst hk)
    · exact sound_primaryAt hl ht hs
  | primary hs => exact sound_primaryAt hl ht hs
  | settled hs h =>
    exact sound_settle hl ht hs h hs.loose (Nat.le_succ_of_le (strength_le t.kind))

/-! ### A run -/

/-- A run without a report keeps to states that the grammar explains. -/
theorem reached_of_passes (hl : limits.depth = none) {x y : State} {ss : List Scan}
    (h : Passes limits x ss [] y) (hx : x.complained = false) (ht : ∀ s ∈ ss, Legal s.token)
    (hs : Reached x.mode x.stack ts) :
    Reached y.mode y.stack (ts ++ ss.map Scan.token) ∧ y.complained = false := by
  have hrun := Automaton.invariant_of_passes
    (P := fun mode st ss => Reached mode st (ts ++ ss.map Scan.token))
    (fun mode st ss s mode' st' hs ht hm => ?_) h rfl hx ht [] (by simpa using hs)
  · simpa using hrun
  · have hsound := sound_react hl ht hs
    rw [hm] at hsound
    simpa using hsound rfl

/-! ### Whole texts -/

/-- How an expression text is cut into tokens. -/
abbrev dialect (comments : Bool) : Dialect := Dialect.expression.withComments comments

theorem proper_dialect (comments : Bool) : (dialect comments).Proper := by
  have key : ∀ op ∈ Operator.expression, op.spelling ≠ "" ∧ op.kind ≠ .eof := by decide
  exact key

theorem legal_of_token? {comments : Bool} {text rest : List Char} {l : Lexeme} {span : Span}
    (h : Lexeme.read (dialect comments) text = some (l, rest))
    (ht : l.token? (dialect comments) span = some t) : Legal t := by
  cases l with
  | gap run | newline | literal l =>
    cases ht
    exact ⟨by simp [Token.bare], by simp [Token.bare]⟩
  | number x =>
    cases ht
    exact ⟨by simp, fun _ => ⟨_, rfl⟩⟩
  | stray c => cases ht
  | word w =>
    have hw : Lexeme.literalWord? (dialect comments) w = none := rfl
    simp only [Lexeme.token?, hw, Option.some.injEq] at ht
    rw [← ht]
    exact ⟨fun _ => ⟨_, rfl⟩, by simp⟩
  | operator op =>
    cases ht
    have key : ∀ op ∈ Operator.expression, op.kind ≠ .identifier ∧ op.kind ≠ .number := by decide
    obtain ⟨hi, hn⟩ := key op (Lexeme.mem_of_read_operator h)
    exact ⟨fun h => absurd h hi, fun h => absurd h hn⟩

theorem legal_of_mem {source : String} {comments : Bool}
    (h : t ∈ (tokenize source (dialect comments)).1) : Legal t := by
  obtain ⟨s, hs, rfl⟩ := List.mem_map.1 h
  have hs : s ∈ Scan.scansFrom (dialect comments) source .start source.toList := hs
  rcases Scan.token_of_mem hs with
    he | ⟨text, l, rest, span, hread, ht⟩
  · have hk : s.token.kind = .eof := by simpa [Token.isEof] using he
    exact ⟨by simp [hk], by simp [hk]⟩
  · exact legal_of_token? hread ht

/-- The tokens of a text before its end, without trivia. -/
def solidTokens (source : String) (comments : Bool) : List Token :=
  ((tokenize source (dialect comments)).1.takeWhile (·.kind ≠ .eof)).filter (!·.kind.isTrivia)

/-- The token at the end of a text. -/
def endOf (source : String) : Token := .atEnd (Position.start.after source.toList)

/-- What a reader sees of the tokens of a text. -/
theorem filter_tokenize (source : String) (comments : Bool) :
    (tokenize source (dialect comments)).1.filter (!·.kind.isTrivia) =
      solidTokens source comments ++ [endOf source] := by
  obtain ⟨ss, reports, hscans, hk⟩ :=
    Scan.scansFrom_eq_append (proper_dialect comments) source .start source.toList
  have htokens : (tokenize source (dialect comments)).1 = ss.map Scan.token ++ [endOf source] := by
    have h := congrArg (List.map Scan.token) hscans
    rw [List.map_append] at h
    exact h
  rw [solidTokens, htokens, List.takeWhile_append_of_pos (by simpa using hk)]
  simp [endOf, Token.atEnd, Token.bare, Kind.isTrivia]

theorem parse_of_exceededSize {source : String} {options : Options} {max : Nat}
    (h : options.limits.exceededSize source = some max) :
    parse source options =
      (.placeholder (.point .start), [.atPoint (.maxSizeExceeded max) .start]) := by
  simp [parse, Reader.ofText, Reader.expression, h]

/-- The tree of a text that is not too long, and the reports on it. -/
theorem parse_of_fits {source : String} {options : Options}
    (h : options.limits.exceededSize source = none) :
    parse source options =
      let o := Automaton.run (react options.limits) .signed [] false []
        (scans (solidTokens source options.comments) ++ [⟨[], endOf source⟩])
      (o.result, (tokenize source options.dialect).2 ++ (o.reports ++
        Reader.trailing ⟨options, none, o.unread, o.complained⟩)) := by
  have hscan : scans (solidTokens source options.comments) ++ [⟨[], endOf source⟩] =
      ((tokenize source options.dialect).1.filter (!·.kind.isTrivia)).map (⟨[], ·⟩) := by
    have hsolid := filter_tokenize source options.comments
    rw [Options.dialect, hsolid, List.map_append]
    rfl
  rw [hscan]
  simp [parse, Reader.ofText, Reader.expression, h]

theorem mem_of_mem_solidTokens {source : String} {comments : Bool}
    (h : t ∈ solidTokens source comments) :
    t ∈ (tokenize source (dialect comments)).1 ∧ t.kind ≠ .eof := by
  rw [solidTokens, List.mem_filter] at h
  refine ⟨(List.takeWhile_prefix _).subset h.1, ?_⟩
  simpa using List.mem_takeWhile_imp h.1

theorem parse_of_leads {source : String} {options : Options} {reports : List Diagnostic} {c : Bool}
    (hsize : options.limits.exceededSize source = none)
    (h : Leads options.limits ⟨.signed, [], false⟩ (scans (solidTokens source options.comments))
      (endOf source) reports ⟨.settled n, [], c⟩) :
    parse source options = (n, (tokenize source options.dialect).2 ++ reports) := by
  have hend : react options.limits (.settled n) [] c (endOf source) = .finish n c := by
    have h0 : strength Kind.eof = 0 := strength_eof
    simp [react, settle, endOf, Token.atEnd, Token.bare, h0]
  have hrun := Automaton.run_of_leads (s := ⟨[], endOf source⟩) h rfl hend []
  rw [parse_of_fits hsize, hrun]
  simp [Reader.trailing, Reader.current, Token.isEof, endOf, Token.atEnd, Token.bare]

/-- A text whose tokens are a sentence with gaps is read as its tree, and each gap is reported
behind what is wrong with the characters. -/
theorem parse_of_gapped {source : String} {options : Options} {gs : List Token}
    (hl : options.limits.depth = none) (hsize : options.limits.exceededSize source = none)
    (h : Gapped true (endOf source) (.level .assignment) (solidTokens source options.comments) n
      gs) :
    parse source options = (n, (tokenize source options.dialect).2 ++ gs.map missing) := by
  obtain ⟨c, hlead⟩ := leads_gapped hl h [] (by simp [Loose]) (Nat.zero_le _)
  exact parse_of_leads hsize hlead

theorem parse_of_sentence {source : String} {comments : Bool}
    (h : Sentence (.level .assignment) (solidTokens source comments) tree) :
    (parse source ⟨comments, .unlimited⟩).1.tree = tree ∧
      (parse source ⟨comments, .unlimited⟩).2 = (tokenize source (dialect comments)).2 := by
  obtain ⟨n, rfl, hgapped⟩ := h.gapped true (endOf source)
  have hparse : parse source ⟨comments, .unlimited⟩ = _ := parse_of_gapped rfl rfl hgapped
  rw [hparse]
  exact ⟨rfl, List.append_nil _⟩

/-- A text that is read without a report is cut into tokens without one, and they are a sentence. -/
theorem sentence_of_reports {source : String} {comments : Bool}
    (hr : (parse source ⟨comments, .unlimited⟩).2 = []) :
    (tokenize source (dialect comments)).2 = [] ∧
      Sentence (.level .assignment) (solidTokens source comments)
        (parse source ⟨comments, .unlimited⟩).1.tree := by
  have hparse : parse source ⟨comments, .unlimited⟩ = _ := parse_of_fits rfl
  have hstay : ∀ x : State, (x.meet (react .unlimited) (endOf source)).Finishes :=
    fun x => react_eof rfl .unlimited x.mode x.stack x.complained
  obtain ⟨us, z, rest, r, y, n, complained, heq, hp, hf, hrun⟩ :=
    Automaton.exists_finish (s := ⟨[], endOf source⟩) hstay ⟨.signed, [], false⟩
      (scans (solidTokens source comments))
  rw [hparse, hrun] at hr ⊢
  simp only [List.append_eq_nil_iff] at hr
  obtain ⟨htokens, ⟨rfl, hz, hturn⟩, htrail⟩ := hr
  have heof : z.token.kind = .eof := by
    simpa [Reader.trailing, Reader.current, Token.isEof] using htrail
  have hk : ∀ s ∈ scans (solidTokens source comments), s.token.kind ≠ .eof := by
    simpa [scans] using fun t ht => (mem_of_mem_solidTokens ht).2
  obtain ⟨rfl, rfl, rfl⟩ := Scan.eq_of_append_eof hk heq heof
  have hlegal : ∀ s ∈ scans (solidTokens source comments), Legal s.token := by
    simpa [scans] using fun t ht => legal_of_mem (mem_of_mem_solidTokens ht).1
  obtain ⟨hy, hc⟩ := reached_of_passes rfl hp rfl hlegal (.signed .nil (by simp [Loose]))
  have hsound := sound_react (t := endOf source) (rfl : Limits.unlimited.depth = none)
    ⟨by simp [endOf, Token.atEnd, Token.bare], by simp [endOf, Token.atEnd, Token.bare]⟩ hy
  rw [← hc] at hsound
  have hn := hsound hturn
  rw [Automaton.State.meet] at hf
  rw [hf] at hn
  refine ⟨htokens, ?_⟩
  simpa using hn

/-- Exactly the sentences whose characters are in order are read without a report, each as the tree
of its derivation. -/
theorem parse_reports_nothing_iff_sentence (source : String) (comments : Bool) :
    ((parse source ⟨comments, .unlimited⟩).2 = [] ↔
        (tokenize source (Dialect.expression.withComments comments)).2 = [] ∧
          ∃ tree, Sentence (.level .assignment) (solidTokens source comments) tree) ∧
      ∀ tree, Sentence (.level .assignment) (solidTokens source comments) tree →
        (parse source ⟨comments, .unlimited⟩).1.tree = tree := by
  refine ⟨⟨fun hr => ?_, ?_⟩, fun tree h => (parse_of_sentence h).1⟩
  · obtain ⟨htokens, h⟩ := sentence_of_reports hr
    exact ⟨htokens, _, h⟩
  · rintro ⟨htokens, tree, h⟩
    rw [(parse_of_sentence h).2]
    exact htokens

end Expression

end Resilient
