import Resilient.Expression.Reader
import Resilient.Proofs.Automaton
import Resilient.Proofs.Expression.Grammar

/-!
# Sentences and the automaton of expressions

Without a bound on depth a sentence is read up to a token that binds no tighter than its layer, if
what stands on top of the stack binds more loosely. Where operands are missing each gap is reported
once (`leads_gapped`). A sentence is one without gaps (`Sentence.gapped`).
-/

namespace Resilient

namespace Expression

/-- A state of the automaton of expressions. -/
abbrev State := Automaton.State Mode Frame

/-- The automaton takes these scans. -/
abbrev Passes (limits : Limits) (x : State) (ss : List Scan) (reports : List Diagnostic)
    (y : State) : Prop :=
  Automaton.Passes (react limits) x ss reports y

/-- The automaton takes these scans and then meets a token as in the last state. -/
abbrev Leads (limits : Limits) (x : State) (ss : List Scan) (next : Token)
    (reports : List Diagnostic) (y : State) : Prop :=
  Automaton.Leads (react limits) x ss next reports y

/-- Tokens as scans without reports. -/
def scans (ts : List Token) : List Scan := ts.map (⟨[], ·⟩)

@[simp] theorem scans_cons (t : Token) (ts : List Token) : scans (t :: ts) = ⟨[], t⟩ :: scans ts :=
  rfl

@[simp] theorem scans_append (ts us : List Token) : scans (ts ++ us) = scans ts ++ scans us :=
  List.map_append

@[simp] theorem map_token_scans (ts : List Token) : (scans ts).map Scan.token = ts := by
  simp [scans, Function.comp_def]

namespace Rule

/-- How tightly the parts of a layer are bound at least. -/
def strength : Rule → Nat
  | level p => p.level
  | signed => negationStrength
  | term => factorStrength
  | atom => powerStrength
  | primary => powerStrength + 1

/-- How a sentence of a layer begins. -/
def mode : Rule → Mode
  | level _ | signed => .signed
  | term | atom | primary => .primary

theorem strength_lt_inner {r r' : Rule} (h : r.inner = some r') : r.strength < r'.strength := by
  cases r with
  | level p => cases p <;> cases h <;> decide
  | primary => cases h
  | _ => cases h; decide

end Rule

/-- What stands on top of the stack binds more loosely. -/
def Loose (k : Nat) (st : List Frame) : Prop := ∀ f ∈ st.head?, ∀ m ∈ f.strength?, m < k

variable {limits : Limits} {t : Token} {st : List Frame} {f : Frame} {n : Node} {c : Bool}
  {k m : Nat}

theorem Loose.mono (h : Loose m st) (hk : m ≤ k) : Loose k st :=
  fun f hf i hi => Nat.lt_of_lt_of_le (h f hf i hi) hk

theorem loose_cons (hf : f.strength? = some m) (h : m < k) : Loose k (f :: st) := by
  simpa [Loose, hf] using h

theorem loose_group (b : Span) (k : Nat) (st : List Frame) : Loose k (.group b :: st) := by
  simp [Loose, Frame.strength?]

/-! ### Strength of tokens -/

theorem strength_of_startsOperand (h : startsOperand t.kind = true) :
    strength t.kind = factorStrength ∧ t.kind ≠ .caret ∧ t.kind ≠ .minus := by
  unfold startsOperand at h
  split at h
  · rename_i hk
    simp [hk, strength, startsOperand]
  · rename_i hk
    simp [hk, strength, startsOperand]
  · rename_i hk
    simp [hk, strength, startsOperand]
  · cases h

theorem binaryOperator_of_mem {kind : Kind} {p : Precedence} {symbol : Symbol}
    (h : (kind, p, symbol) ∈ binaryOperators) :
    strength kind = p.level ∧ binaryOperator? kind = some (symbol, p.level) ∧ kind ≠ .caret ∧
      startsOperand kind = false := by
  have key : ∀ e ∈ binaryOperators, strength e.1 = e.2.1.level ∧
      binaryOperator? e.1 = some (e.2.2, e.2.1.level) ∧ e.1 ≠ .caret ∧
      startsOperand e.1 = false := by decide
  exact key _ h

theorem level_pos (p : Precedence) : 0 < p.level := by cases p <;> decide

/-! ### A token behind an operand -/

/-- A token that binds tighter than what waits becomes what waits. -/
theorem settle_of_loose (h : Loose (strength t.kind) st) (h0 : 0 < strength t.kind) (c : Bool)
    (n : Node) : settle limits t c n st = shift limits t n st := by
  cases st with
  | nil =>
    unfold settle
    rw [if_neg (Nat.ne_of_gt h0)]
  | cons f st =>
    cases f with
    | group b =>
      unfold settle
      rw [if_pos h0]
    | operand l s i | negation s | factor l | base l =>
      have hm := h _ rfl _ rfl
      unfold settle
      rw [if_neg]
      simpa [Frame.strength?] using hm

/-- A token that binds no tighter than what waits lets it take the operand. -/
theorem settle_of_le (hf : f.strength? = some m) (h : strength t.kind ≤ m) (c : Bool) (n : Node)
    (st : List Frame) : settle limits t c n (f :: st) = settle limits t c (f.join n) st := by
  cases f with
  | group b => cases hf
  | operand l s i | negation s | factor l | base l =>
    rw [settle.eq_def limits t c n (_ :: st)]
    simp only [hf, Option.any_some, decide_eq_true h, if_true]

theorem shift_of_startsOperand (h : startsOperand t.kind = true) (n : Node) (st : List Frame) :
    shift limits t n st = operandAt limits t (.factor n :: st) := by
  rw [shift, if_neg (strength_of_startsOperand h).2.1, if_pos h]

theorem shift_of_caret (h : t.kind = .caret) (n : Node) (st : List Frame) :
    shift limits t n st = .consume .primary (.base n :: st) := by
  rw [shift, if_pos h]

theorem shift_of_binaryOperator {p : Precedence} {symbol : Symbol}
    (h : (t.kind, p, symbol) ∈ binaryOperators) (n : Node) (st : List Frame) :
    shift limits t n st = .consume .signed (.operand n symbol p.level :: st) := by
  obtain ⟨-, hb, hc, hs⟩ := binaryOperator_of_mem h
  rw [shift, if_neg hc, if_neg (by simp [hs]), hb]

theorem operandAt_of_leftParen (hl : limits.depth = none) (h : t.kind = .leftParen)
    (st : List Frame) : operandAt limits t st = .consume .signed (.group t.span :: st) := by
  simp [operandAt, h, Limits.reachedDepth, hl]

/-! ### How a part begins -/

/-- The layers whose sentences begin without a minus sign. -/
def Rule.unsigned : Rule → Bool
  | .level _ | .signed => false
  | .term | .atom | .primary => true

theorem exists_cons_of_sentence {r : Rule} {ts : List Token} {tree : Tree}
    (h : Sentence r ts tree) (hr : r.unsigned = true) :
    ∃ t us, ts = t :: us ∧ startsOperand t.kind = true := by
  induction h with
  | @inner r r' _ _ hi _ ih =>
    cases r with
    | level p => cases hr
    | signed => cases hr
    | term | atom =>
      cases hi
      exact ih rfl
    | primary => cases hi
  | binary _ _ _ _ _ | negation _ _ _ => cases hr
  | product _ _ ih _ | power _ _ _ ih _ =>
    obtain ⟨t, us, rfl, ht⟩ := ih rfl
    exact ⟨t, _, rfl, ht⟩
  | identifier hk _ | number hk _ | group hk _ _ _ =>
    exact ⟨_, _, rfl, by rw [hk]; rfl⟩

/-- A token in front of which an operand may be missing begins none, with or without a sign. -/
theorem startsOperand_of_resumes {k : Kind} (h : resumes k = true) :
    startsOperand k = false ∧ k ≠ .minus := by
  revert h
  cases k <;> decide

/-- A part of these layers, with gaps, begins with a token that begins an operand; if it begins with
a gap, a token follows that does not. -/
theorem begins_of_gapped {due : Bool} {next : Token} {r : Rule} {ts gs : List Token} {n : Node}
    (h : Gapped due next r ts n gs) (hr : r.unsigned = true) :
    ∃ t us, ts ++ [next] = t :: us ∧
      (startsOperand t.kind = true ∨ due = true ∧ resumes t.kind = true) := by
  induction h with
  | @inner _ _ r r' _ _ _ hi _ ih =>
    cases r with
    | level p => cases hr
    | signed => cases hr
    | term | atom =>
      cases hi
      exact ih rfl
    | primary => cases hi
  | binary _ _ _ _ _ | negation _ _ _ => cases hr
  | @product _ next _ ts us _ _ _ _ _ _ ih _ | @power _ next _ ts us _ _ _ _ _ _ _ ih _ =>
    obtain ⟨t, vs, heq, ht⟩ := ih rfl
    refine ⟨t, vs ++ (us ++ [next]), ?_, ht⟩
    rw [← List.cons_append, ← heq]
    simp
  | identifier hk _ | number hk _ | group hk _ _ _ =>
    exact ⟨_, _, rfl, .inl (by rw [hk]; rfl)⟩
  | @gap next hn => exact ⟨next, [], rfl, .inr ⟨rfl, hn⟩⟩

theorem startsOperand_of_gapped {next : Token} {r : Rule} {us gs : List Token} {n : Node}
    (h : Gapped false next r (t :: us) n gs) (hr : r.unsigned = true) :
    startsOperand t.kind = true := by
  obtain ⟨t', us', heq, ht⟩ := begins_of_gapped h hr
  cases heq
  simpa using ht

/-- A term does not begin with a minus sign, and none follows a gap in place of it. -/
theorem kind_ne_minus_of_gapped {due : Bool} {next : Token} {ts gs : List Token} {n : Node}
    (h : Gapped due next .term ts n gs) : ∀ t ∈ (ts ++ [next]).head?, t.kind ≠ .minus := by
  intro t ht
  obtain ⟨t', us, heq, ht'⟩ := begins_of_gapped h rfl
  obtain rfl : t' = t := by simpa [heq] using ht
  rcases ht' with ht' | ⟨-, ht'⟩
  · exact (strength_of_startsOperand ht').2.2
  · exact (startsOperand_of_resumes ht').2

theorem Rule.mode_of_inner {p : Precedence} {r : Rule} (h : (Rule.level p).inner = some r) :
    r.mode = .signed := by
  cases p <;> cases h <;> rfl

/-- A token other than a minus sign is met in the same way with and without one allowed. -/
theorem react_signed (h : t.kind ≠ .minus) (st : List Frame) (c : Bool) :
    react limits .signed st c t = react limits .primary st c t := by
  simp only [react]
  rw [if_neg h]

/-! ### Sentences with gaps -/

theorem Leads.join {x : State} {ss : List Scan} {next : Token} {r : List Diagnostic}
    (h : Leads limits x ss next r ⟨.settled n, f :: st, c⟩) (hf : f.strength? = some m)
    (hn : strength next.kind ≤ m) : Leads limits x ss next r ⟨.settled (f.join n), st, c⟩ :=
  h.meet_trans (settle_of_le hf hn c n st)

theorem passes_of_react {mode mode' : Mode} {st' : List Frame}
    (h : react limits mode st c t = .consume mode' st') :
    Passes limits ⟨mode, st, c⟩ (scans [t]) [] ⟨mode', st', false⟩ := by
  have hm : Automaton.State.meet (react limits) ⟨mode, st, c⟩ t = .consume mode' st' := h
  exact Automaton.Passes.single (s := ⟨[], t⟩) hm

/-- An inner part is read as a part of the outer layer, if it does not begin with a minus sign where
a sign is taken; a gap begins with the token behind it. -/
theorem leads_inner {r r' : Rule} {ts : List Token} {next : Token} {reports : List Diagnostic}
    {y : State} (hr : r.inner = some r')
    (hsign : r = .signed → ∀ t ∈ (ts ++ [next]).head?, t.kind ≠ .minus)
    (h : Leads limits ⟨r'.mode, st, false⟩ (scans ts) next reports y) :
    Leads limits ⟨r.mode, st, false⟩ (scans ts) next reports y := by
  cases r with
  | level p => rwa [Rule.mode_of_inner hr] at h
  | term | atom =>
    cases hr
    exact h
  | primary => cases hr
  | signed =>
    cases hr
    refine h.of_first fun t ht => react_signed (hsign rfl t ?_) st false
    rwa [map_token_scans] at ht

section

variable {next o : Token} {ts us : List Token} {l : Node} {c' : Bool} {x : State}
  {reports reports' : List Diagnostic}

theorem leads_binary {p : Precedence} {symbol : Symbol}
    (ho : (o.kind, p, symbol) ∈ binaryOperators) (hst : Loose p.level st)
    (hn : strength next.kind ≤ p.level)
    (hl : Leads limits x (scans ts) o reports ⟨.settled l, st, c⟩)
    (h : Leads limits ⟨.signed, .operand l symbol p.level :: st, false⟩ (scans us) next reports'
      ⟨.settled n, .operand l symbol p.level :: st, c'⟩) :
    Leads limits x (scans (ts ++ o :: us)) next (reports ++ reports')
      ⟨.settled (.binary symbol l n), st, c'⟩ := by
  have hstrength := (binaryOperator_of_mem ho).1
  have hsettle : react limits (.settled l) st c o =
      .consume .signed (.operand l symbol p.level :: st) := by
    rw [react, settle_of_loose (by rw [hstrength]; exact hst)
      (by rw [hstrength]; exact level_pos p), shift_of_binaryOperator ho]
  have htake := hl.append_passes (s := ⟨[], o⟩) rfl (passes_of_react hsettle)
  have hall := (h.join rfl hn).passes_append htake
  simpa [Frame.join] using hall

theorem leads_negation (ho : o.kind = .minus) (hn : strength next.kind ≤ negationStrength)
    (h : Leads limits ⟨.primary, .negation o.span :: st, false⟩ (scans ts) next reports
      ⟨.settled n, .negation o.span :: st, c⟩) :
    Leads limits ⟨.signed, st, false⟩ (scans (o :: ts)) next reports
      ⟨.settled (.applyWithin o.span .neg [n]), st, c⟩ := by
  have hreact : react limits .signed st false o = .consume .primary (.negation o.span :: st) := by
    simp [react, ho]
  exact (h.join rfl hn).passes_append (passes_of_react hreact)

theorem leads_product (ht : startsOperand t.kind = true) (hst : Loose factorStrength st)
    (hn : strength next.kind ≤ factorStrength)
    (hl : Leads limits x (scans ts) t reports ⟨.settled l, st, c⟩)
    (h : Leads limits ⟨.primary, .factor l :: st, false⟩ (scans (t :: us)) next reports'
      ⟨.settled n, .factor l :: st, c'⟩) :
    Leads limits x (scans (ts ++ t :: us)) next (reports ++ reports')
      ⟨.settled (.binary .mul l n), st, c'⟩ := by
  have hstrength := (strength_of_startsOperand ht).1
  -- The first token of the atom is taken at once, behind a sign of multiplication left out.
  have hmeet : react limits (.settled l) st c t =
      react limits .primary (.factor l :: st) false t := by
    have hright : react limits .primary (.factor l :: st) false t =
        operandAt limits t (.factor l :: st) := if_pos ht
    rw [hright, react, settle_of_loose (by rw [hstrength]; exact hst)
      (by rw [hstrength]; decide), shift_of_startsOperand ht]
  have hall := hl.trans (s := ⟨[], t⟩) rfl ((h.join rfl hn).of_meet_eq hmeet)
  rw [scans_append]
  exact hall

theorem leads_power (ho : o.kind = .caret) (hst : Loose powerStrength st)
    (hn : strength next.kind ≤ powerStrength)
    (hl : Leads limits x (scans ts) o reports ⟨.settled l, st, c⟩)
    (h : Leads limits ⟨.primary, .base l :: st, false⟩ (scans us) next reports'
      ⟨.settled n, .base l :: st, c'⟩) :
    Leads limits x (scans (ts ++ o :: us)) next (reports ++ reports')
      ⟨.settled (.binary .pow l n), st, c'⟩ := by
  have hstrength : strength o.kind = powerStrength := by rw [ho]; rfl
  have hsettle : react limits (.settled l) st c o = .consume .primary (.base l :: st) := by
    rw [react, settle_of_loose (by rw [hstrength]; exact hst) (by rw [hstrength]; decide),
      shift_of_caret ho]
  have htake := hl.append_passes (s := ⟨[], o⟩) rfl (passes_of_react hsettle)
  have hall := (h.join rfl hn).passes_append htake
  simpa [Frame.join] using hall

end

theorem passes_identifier {name : String} (hk : t.kind = .identifier)
    (hp : t.payload = some (.string name)) (st : List Frame) :
    Passes limits ⟨.primary, st, false⟩ (scans [t]) []
      ⟨.settled (.identifier name t.span), st, false⟩ := by
  apply passes_of_react
  simp [react, primaryAt, startsOperand, hk, operandAt, Token.text?, hp, Scalar.text?]

theorem passes_number {x : Binary64} (hk : t.kind = .number)
    (hp : t.payload = some (.number x)) (st : List Frame) :
    Passes limits ⟨.primary, st, false⟩ (scans [t]) []
      ⟨.settled (.literal (.number x) t.span), st, false⟩ := by
  apply passes_of_react
  simp [react, primaryAt, startsOperand, hk, operandAt, Token.number?, hp, Scalar.number?]

theorem leads_group {a b next : Token} {ts : List Token} {reports : List Diagnostic}
    (ha : a.kind = .leftParen) (hb : b.kind = .rightParen)
    (hopen : operandAt limits a st = .consume .signed (.group a.span :: st))
    (h : Leads limits ⟨.signed, .group a.span :: st, false⟩ (scans ts) b reports
      ⟨.settled n, .group a.span :: st, c⟩) :
    Leads limits ⟨.primary, st, false⟩ (scans (a :: (ts ++ [b]))) next reports
      ⟨.settled (n.widen (a.span.merge b.span)), st, false⟩ := by
  have hmeet : react limits .primary st false a = .consume .signed (.group a.span :: st) := by
    simp only [react, primaryAt, startsOperand, ha, if_true]
    exact hopen
  have hclose : react limits (.settled n) (.group a.span :: st) c b =
      .consume (.settled (n.widen (a.span.merge b.span))) st := by
    have h0 : strength Kind.rightParen = 0 := by decide
    simp [react, settle, hb, h0]
  have hinner := h.append_passes (s := ⟨[], b⟩) rfl (passes_of_react hclose)
  simpa [scans] using ((passes_of_react hmeet).append hinner).leads next

/-- The report on the token behind a gap. -/
def missing (t : Token) : Diagnostic := .of (.expected operandWanted t.kind.name) t.span

/-- A part with gaps is read up to a token that binds no tighter than its layer. Each gap is
reported at the token behind it, and nothing else is. -/
theorem leads_gapped (hl : limits.depth = none) {due : Bool} {next : Token} {r : Rule}
    {ts gs : List Token} (h : Gapped due next r ts n gs) (st : List Frame)
    (hst : Loose r.strength st) (hn : strength next.kind ≤ r.strength) :
    ∃ c, Leads limits ⟨r.mode, st, false⟩ (scans ts) next (gs.map missing)
      ⟨.settled n, st, c⟩ := by
  induction h generalizing st with
  | @inner due next r r' ts gs n hr h ih =>
    have hle := Nat.le_of_lt (Rule.strength_lt_inner hr)
    obtain ⟨c, hlead⟩ := ih st (hst.mono hle) (Nat.le_trans hn hle)
    refine ⟨c, leads_inner hr (fun hs => ?_) hlead⟩
    subst hs
    cases hr
    exact kind_ne_minus_of_gapped h
  | @binary due next o p symbol r ts us gs hs l n hleft ho hr h ihs ih =>
    have hlt := Rule.strength_lt_inner hr
    obtain ⟨c, hlead⟩ := ihs st hst (Nat.le_of_eq (binaryOperator_of_mem ho).1)
    obtain ⟨c', hright⟩ := ih (.operand l symbol p.level :: st) (loose_cons rfl hlt)
      (Nat.le_trans hn (Nat.le_of_lt hlt))
    rw [Rule.mode_of_inner hr] at hright
    rw [List.map_append]
    exact ⟨c', leads_binary ho hst hn hlead hright⟩
  | @negation due next o ts gs n ho h ih =>
    obtain ⟨c, hlead⟩ := ih (.negation o.span :: st) (loose_cons rfl (by decide))
      (Nat.le_trans hn (by decide))
    exact ⟨c, leads_negation ho hn hlead⟩
  | @product due next t ts us gs hs l n hleft h ihs ih =>
    have ht := startsOperand_of_gapped h rfl
    obtain ⟨c, hlead⟩ := ihs st hst (Nat.le_of_eq (strength_of_startsOperand ht).1)
    obtain ⟨c', hright⟩ := ih (.factor l :: st) (loose_cons rfl (by decide))
      (Nat.le_trans hn (by decide))
    rw [List.map_append]
    exact ⟨c', leads_product ht hst hn hlead hright⟩
  | @power due next o ts us gs hs l n hleft ho h ihs ih =>
    obtain ⟨c, hlead⟩ := ihs st hst (by rw [ho]; exact Nat.le_refl _)
    obtain ⟨c', hright⟩ := ih (.base l :: st) (loose_cons rfl (by decide))
      (Nat.le_trans hn (by decide))
    rw [List.map_append]
    exact ⟨c', leads_power ho hst hn hlead hright⟩
  | @identifier due next t name hk hp => exact ⟨false, (passes_identifier hk hp st).leads next⟩
  | @number due next t x hk hp => exact ⟨false, (passes_number hk hp st).leads next⟩
  | @group due next a b ts gs n ha h hb ih =>
    obtain ⟨c, hlead⟩ := ih (.group a.span :: st) (loose_group a.span _ st)
      (by rw [hb]; exact Nat.zero_le _)
    exact ⟨false, leads_group ha hb (operandAt_of_leftParen hl ha st) hlead⟩
  | @gap next hg =>
    -- The token is reported and met again behind the null literal that stands for the operand.
    have hmeet : react limits .primary st false next =
        (react limits (.settled (.placeholder (.point next.span.start))) st true next).behind
          [missing next] := by
      have hs := (startsOperand_of_resumes hg).1
      simp [react, primaryAt, hs, Token.expected, missing]
    exact ⟨true, .of_meet hmeet⟩

/-! ### Sentences -/

theorem Sentence.gapped {r : Rule} {ts : List Token} {tree : Tree} (h : Sentence r ts tree)
    (due : Bool) (next : Token) : ∃ n, n.tree = tree ∧ Gapped due next r ts n [] := by
  induction h generalizing due next with
  | inner hr h ih =>
    obtain ⟨n, htree, hn⟩ := ih due next
    exact ⟨n, htree, .inner hr hn⟩
  | @binary p symbol r ts us o l' r' hs ho hr h ihs ih =>
    obtain ⟨l, rfl, hl⟩ := ihs due o
    obtain ⟨n, rfl, hn⟩ := ih true next
    exact ⟨_, Node.tree_binary _ _ _, .binary hl ho hr hn⟩
  | @negation ts o tree ho h ih =>
    obtain ⟨n, rfl, hn⟩ := ih true next
    exact ⟨_, Node.tree_applyWithin _ _ _, .negation ho hn⟩
  | @product ts us l' r' hs h ihs ih =>
    obtain ⟨t, us, rfl, ht⟩ := exists_cons_of_sentence h rfl
    obtain ⟨l, rfl, hl⟩ := ihs due t
    obtain ⟨n, rfl, hn⟩ := ih false next
    exact ⟨_, Node.tree_binary _ _ _, .product hl hn⟩
  | @power ts us o l' r' hs ho h ihs ih =>
    obtain ⟨l, rfl, hl⟩ := ihs due o
    obtain ⟨n, rfl, hn⟩ := ih true next
    exact ⟨_, Node.tree_binary _ _ _, .power hl ho hn⟩
  | identifier hk hp => exact ⟨_, by simp [Node.tree], .identifier hk hp⟩
  | number hk hp => exact ⟨_, by simp [Node.tree], .number hk hp⟩
  | @group ts a b tree ha h hb ih =>
    obtain ⟨n, rfl, hn⟩ := ih true b
    exact ⟨_, Node.tree_widen _ _, .group ha hn hb⟩

end Expression

end Resilient
