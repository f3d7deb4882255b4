import Mathlib.Tactic.SplitIfs
import Resilient.Proofs.Expression.Acceptance
import Resilient.Proofs.Json.Reports

/-!
# Tokens fetched when they are needed

The scans of a text may all be made before a run, or each one when the run comes to it.
`Automaton.Fetches` is a run of the second kind: it cuts no further into the text than to the token
that stays. Both kinds give the same result with the same reports (`Automaton.exists_fetches`), and
so a text read as JSON and the tokens of the text agree on what is wrong with its characters
(`fetched_agrees_with_tokens`). An expression is cut into tokens as a whole first.
-/

namespace Resilient

/-! ### One token at a time -/

/-- Behind any token but the end's the scans go on, over a shorter text. -/
theorem Scan.all_of_ne_eof {d : Dialect} {c : Cursor} (hd : d.Proper)
    (h : (Scan.next d c).1.token.kind ≠ .eof) :
    (Scan.all d c).1 = (Scan.next d c).1 :: (Scan.all d (Scan.next d c).2).1 ∧
      (Scan.next d c).2.rest.length < c.rest.length := by
  have heof : ¬ (Scan.next d c).1.token.isEof = true := fun he => h (of_decide_eq_true he)
  have hmoves := Nat.ne_of_gt ((Scan.moves_of_proper hd c).resolve_left heof)
  rw [Scan.all_eq, if_neg (by simpa [heof] using hmoves)]
  exact ⟨rfl, Scan.length_rest_lt hmoves⟩

namespace Automaton

variable {Mode Frame Result : Type}

/-- A run that fetches a token, decides on it, and fetches the next one only if the token was taken:
the scans fetched, the result and the reports. -/
inductive Fetches (react : Mode → List Frame → Bool → Token → Turn Mode Frame Result) :
    State Mode Frame → Lexer → List Scan → Result → List Diagnostic → Prop where
  | stays {x : State Mode Frame} {l : Lexer} {result : Result} {complained : Bool}
      (h : (x.meet react l.fetch.1.token).move = .finish result complained) :
      Fetches react x l [l.fetch.1] result
        (l.fetch.1.reports ++ (x.meet react l.fetch.1.token).reports)
  | taken {x : State Mode Frame} {l : Lexer} {mode : Mode} {stack : List Frame} {ss : List Scan}
      {result : Result} {more : List Diagnostic}
      (h : (x.meet react l.fetch.1.token).move = .consume mode stack)
      (hs : Fetches react ⟨mode, stack, false⟩ l.fetch.2 ss result more) :
      Fetches react x l (l.fetch.1 :: ss) result
        (l.fetch.1.reports ++ ((x.meet react l.fetch.1.token).reports ++ more))

variable {react : Mode → List Frame → Bool → Token → Turn Mode Frame Result}
  {x : State Mode Frame} {l : Lexer} {ss ss' : List Scan} {v v' : Result}
  {r r' : List Diagnostic}

theorem Fetches.unique (h : Fetches react x l ss v r) (h' : Fetches react x l ss' v' r') :
    ss = ss' ∧ v = v' ∧ r = r' := by
  induction h generalizing ss' v' r' with
  | stays h =>
    cases h' with
    | stays h' =>
      rw [h] at h'
      cases h'
      exact ⟨rfl, rfl, rfl⟩
    | taken h' _ =>
      rw [h] at h'
      cases h'
  | taken h _ ih =>
    cases h' with
    | stays h' =>
      rw [h] at h'
      cases h'
    | taken h' hs' =>
      rw [h] at h'
      cases h'
      obtain ⟨rfl, rfl, rfl⟩ := ih hs'
      exact ⟨rfl, rfl, rfl⟩

/-- The lexical reports of a run are those met on the way to the tokens. -/
theorem Fetches.filter_lexical (h : Fetches react x l ss v r)
    (hscans : ∀ s ∈ ss, ∀ d ∈ s.reports, d.category = .lexical)
    (hturns : ∀ (x : State Mode Frame) t, ∀ d ∈ (x.meet react t).reports,
      d.category ≠ .lexical) :
    r.filter (·.category = .lexical) = ss.flatMap Scan.reports := by
  have hscan : ∀ reports : List Diagnostic, (∀ d ∈ reports, d.category = .lexical) →
      reports.filter (·.category = .lexical) = reports := fun reports h =>
    List.filter_eq_self.2 fun d hd => decide_eq_true (h d hd)
  have hturn : ∀ (x : State Mode Frame) t,
      (x.meet react t).reports.filter (·.category = .lexical) = [] := fun x t =>
    List.filter_eq_nil_iff.2 fun d hd => by simpa using hturns x t d hd
  induction h with
  | stays h =>
    obtain ⟨hfirst, -⟩ := List.forall_mem_cons.1 hscans
    rw [List.filter_append, hscan _ hfirst, hturn, List.flatMap_singleton, List.append_nil]
  | taken h _ ih =>
    obtain ⟨hfirst, hscans⟩ := List.forall_mem_cons.1 hscans
    rw [List.filter_append, List.filter_append, hscan _ hfirst, hturn, ih hscans,
      List.flatMap_cons, List.nil_append]

/-- If the end of a text always stays, a run over all scans fetches them one at a time up to the
first one that stays, and none behind a token of the end's kind. -/
theorem exists_fetches [Inhabited Result]
    (hstay : ∀ (x : State Mode Frame) t, t.kind = .eof → (x.meet react t).Finishes)
    (hd : l.dialect.Proper) (x : State Mode Frame) :
    ∃ ss s rest v r complained, Fetches react x l (ss ++ [s]) v r ∧
      (Scan.all l.dialect l.cursor).1 = ss ++ s :: rest ∧
      (∀ t ∈ ss, t.token.kind ≠ .eof) ∧
      run react x.mode x.stack x.complained [] (Scan.all l.dialect l.cursor).1 =
        ⟨v, r, complained, { s with reports := [] } :: rest⟩ := by
  obtain ⟨n, hn⟩ : ∃ n, l.cursor.rest.length = n := ⟨_, rfl⟩
  induction n using Nat.strongRecOn generalizing l x with
  | ind n ih =>
    subst hn
    cases hm : (x.meet react l.fetch.1.token).move with
    | finish v complained =>
      obtain ⟨rest, hrest⟩ : ∃ rest, (Scan.all l.dialect l.cursor).1 = l.fetch.1 :: rest := by
        rw [Scan.all_eq]
        split <;> exact ⟨_, rfl⟩
      refine ⟨[], l.fetch.1, rest, v, _, complained, .stays hm, hrest, by simp, ?_⟩
      rw [hrest]
      exact run_finish hm rest
    | consume mode stack =>
      have hkind : l.fetch.1.token.kind ≠ .eof := by
        intro he
        obtain ⟨v, complained, hf⟩ := hstay x l.fetch.1.token he
        rw [hm] at hf
        cases hf
      obtain ⟨hall, hshort⟩ := Scan.all_of_ne_eof hd hkind
      obtain ⟨ss, s, rest, v, r, complained, hfetches, hscans, hk, hrun⟩ :=
        ih _ hshort (l := l.fetch.2) hd ⟨mode, stack, false⟩ rfl
      have hall : (Scan.all l.dialect l.cursor).1 = l.fetch.1 :: (ss ++ s :: rest) := by
        rw [← hscans]
        exact hall
      rw [hscans] at hrun
      refine ⟨l.fetch.1 :: ss, s, rest, v, _, complained, .taken hm hfetches, hall,
        List.forall_mem_cons.2 ⟨hkind, hk⟩, ?_⟩
      have hconsume := run_consume hm (ss ++ s :: rest)
      rw [hall]
      rw [hrun] at hconsume
      simpa [State.meet] using hconsume

end Automaton

/-! ### Reports on tokens -/

/-- No report is on the characters. -/
def Turn.OnTokens {Mode Frame Result : Type} (turn : Turn Mode Frame Result) : Prop :=
  ∀ d ∈ turn.reports, d.category ≠ .lexical

namespace Turn

variable {Mode Frame Result : Type} {turn : Turn Mode Frame Result}

theorem onTokens_of_nil (h : turn.reports = []) : turn.OnTokens := by
  simp [OnTokens, h]

theorem OnTokens.behind (h : turn.OnTokens) (t : Token) (wanted : String) (c : Bool) :
    (turn.behind (t.expected wanted c)).OnTokens := by
  refine List.forall_mem_append.2 ⟨?_, h⟩
  cases c with
  | true => simp [Token.expected]
  | false => simp [Token.expected, Diagnostic.of, Diagnostic.category, Fault.category]

end Turn

namespace Json

theorem onTokens_react (limits : Limits) (mode : Mode) (st : List Frame) (c : Bool) (t : Token) :
    (react limits mode st c t).OnTokens := by
  intro d hd
  cases (told_react limits mode st c t).1 d hd <;> exact nofun

end Json

namespace Expression

theorem onTokens_operandAt (limits : Limits) (t : Token) (st : List Frame) :
    (operandAt limits t st).OnTokens := by
  unfold operandAt
  split
  · exact Turn.onTokens_of_nil rfl
  · exact Turn.onTokens_of_nil rfl
  · split
    · exact List.forall_mem_singleton.2 nofun
    · exact Turn.onTokens_of_nil rfl

theorem onTokens_shift (limits : Limits) (t : Token) (n : Node) (st : List Frame) :
    (shift limits t n st).OnTokens := by
  unfold shift
  split_ifs
  · exact Turn.onTokens_of_nil rfl
  · exact onTokens_operandAt limits t _
  · split <;> exact Turn.onTokens_of_nil rfl

theorem onTokens_settle (limits : Limits) (t : Token) (c : Bool) (n : Node) (st : List Frame) :
    (settle limits t c n st).OnTokens := by
  induction st generalizing c n with
  | nil =>
    unfold settle
    split_ifs
    · exact Turn.onTokens_of_nil rfl
    · exact onTokens_shift limits t n []
  | cons f below ih =>
    cases f with
    | group b =>
      unfold settle
      split_ifs
      · exact onTokens_shift limits t n _
      · exact Turn.onTokens_of_nil rfl
      · exact (ih true (n.widen b)).behind t _ c
    | operand _ _ _ | negation _ | factor _ | base _ =>
      unfold settle
      split_ifs
      · exact ih c _
      · exact onTokens_shift limits t n _

theorem onTokens_primaryAt (limits : Limits) (t : Token) (c : Bool) (st : List Frame) :
    (primaryAt limits t c st).OnTokens := by
  unfold primaryAt
  split_ifs
  · exact onTokens_operandAt limits t st
  · exact (onTokens_settle limits t true _ st).behind t _ c

theorem onTokens_react (limits : Limits) (mode : Mode) (st : List Frame) (c : Bool) (t : Token) :
    (react limits mode st c t).OnTokens := by
  cases mode with
  | signed =>
    simp only [react]
    split_ifs
    · exact Turn.onTokens_of_nil rfl
    · exact onTokens_primaryAt limits t c st
  | primary => exact onTokens_primaryAt limits t c st
  | settled n => exact onTokens_settle limits t c n st
  | skip k b last =>
    simp only [react, skipAt]
    split_ifs
    · exact onTokens_settle limits t c _ st
    all_goals exact Turn.onTokens_of_nil rfl

end Expression

/-! ### Whole texts -/

variable {source : String}

/-- A JSON text that is not too long is read by fetching its tokens one at a time. -/
theorem Json.exists_fetched {o : Json.Options} (h : o.limits.exceededSize source = none) :
    ∃ fetched last rest v made c,
      Automaton.Fetches (Json.react o.limits) ⟨.value, [], false⟩ (.ofText source o.dialect)
          (fetched ++ [last]) v made ∧
        Scan.ofText o.dialect source = fetched ++ last :: rest ∧
        (∀ s ∈ fetched, s.token.kind ≠ .eof) ∧
        (Json.Reader.ofText source o).document =
          (v, made ++ Json.Reader.trailing ⟨o, none, { last with reports := [] } :: rest, c⟩,
            ⟨o, none, { last with reports := [] } :: rest, c⟩) := by
  have hproper : o.dialect.Proper := Json.proper_dialect o.comments
  have hstay : ∀ (x : Json.State) t, t.kind = .eof → (x.meet (Json.react o.limits) t).Finishes :=
    fun x t ht => Json.react_eof ht o.limits x.mode x.stack x.complained
  obtain ⟨fetched, last, rest, v, made, c, hfetches, hscans, hk, hrun⟩ :=
    Automaton.exists_fetches (l := .ofText source o.dialect) hstay hproper ⟨.value, [], false⟩
  have hrun : Automaton.run (Json.react o.limits) .value [] false []
      (Scan.ofText o.dialect source) = ⟨v, made, c, { last with reports := [] } :: rest⟩ := hrun
  refine ⟨fetched, last, rest, v, made, c, hfetches, hscans, hk, ?_⟩
  rw [Json.document_of_fits h, hrun]

theorem Json.category_of_mem_trailing {r : Json.Reader} : ∀ d ∈ r.trailing,
    d.category ≠ .lexical := by
  unfold Json.Reader.trailing
  split
  · split
    · exact List.forall_mem_singleton.2 nofun
    · simp
  · simp

theorem Expression.category_of_mem_trailing {r : Expression.Reader} : ∀ d ∈ r.trailing,
    d.category ≠ .lexical := by
  unfold Expression.Reader.trailing
  split
  · split
    · simp
    · exact List.forall_mem_singleton.2 nofun
  · simp

/-- Behind the reports on the characters of an expression text there are none. -/
theorem Expression.exists_later {o : Expression.Options}
    (h : o.limits.exceededSize source = none) : ∃ later,
      (Expression.parse source o).2 = (tokenize source o.dialect).2 ++ later ∧
        ∀ d ∈ later, d.category ≠ .lexical := by
  let scans := Expression.scans (Expression.solidTokens source o.comments)
  have hstay : ∀ x : Expression.State,
      (x.meet (Expression.react o.limits) (Expression.endOf source)).Finishes :=
    fun x => Expression.react_eof rfl o.limits x.mode x.stack x.complained
  have hnone : ∀ s ∈ scans ++ [⟨[], Expression.endOf source⟩], s.reports = [] := by
    simp only [scans, Expression.scans, List.mem_append, List.mem_map, List.mem_singleton]
    rintro s (⟨t, -, rfl⟩ | rfl) <;> rfl
  have hreports : ∀ d ∈ (Automaton.run (Expression.react o.limits) .signed [] false []
      (scans ++ [⟨[], Expression.endOf source⟩])).reports, d.category ≠ .lexical := by
    refine (Automaton.run_invariant (s := ⟨[], Expression.endOf source⟩)
      (I := fun _ _ scans => ∀ s ∈ scans, s.reports = []) (R := fun _ => True) hstay
      (fun mode st c s ss hs => ?_) false scans hnone).2.1
    obtain ⟨hs, hss⟩ := List.forall_mem_cons.1 hs
    refine ⟨by simp [hs], Expression.onTokens_react o.limits mode st c s.token, ?_⟩
    unfold Turn.Leaves
    split
    · exact hss
    · trivial
  rw [Expression.parse_of_fits h]
  exact ⟨_, rfl, List.forall_mem_append.2 ⟨hreports, Expression.category_of_mem_trailing⟩⟩

/-- Reading one value of a JSON text that is not too long fetches the first tokens of the text, in
order, and nothing behind the token that stays or the end. The lexical reports are those met on the
way to these tokens, so they are the first ones on the text, and all of them if the end was fetched.
An expression text is cut into tokens as a whole: all reports on its characters are made, and they
stand in front of the others. -/
theorem fetched_agrees_with_tokens (source : String) :
    (∀ o : Json.Options, o.limits.exceededSize source = none → ∃ fetched last v made,
      Automaton.Fetches (Json.react o.limits) ⟨.value, [], false⟩ (.ofText source o.dialect)
          (fetched ++ [last]) v made ∧
        (Json.parse source o).1 = v ∧ made <+: (Json.parse source o).2 ∧
        (Json.Reader.ofText source o).document.2.2.current = some last.token ∧
        (fetched ++ [last]).map Scan.token <+: (tokenize source o.dialect).1 ∧
        (∀ s ∈ fetched, s.token.kind ≠ .eof) ∧
        (Json.parse source o).2.filter (·.category = .lexical) =
          (fetched ++ [last]).flatMap Scan.reports ∧
        (fetched ++ [last]).flatMap Scan.reports <+: (tokenize source o.dialect).2 ∧
        (last.token.kind = .eof →
          (Json.parse source o).2.filter (·.category = .lexical) =
            (tokenize source o.dialect).2)) ∧
    ∀ o : Expression.Options, o.limits.exceededSize source = none → ∃ later,
      (Expression.parse source o).2 = (tokenize source o.dialect).2 ++ later ∧
        (∀ d ∈ (tokenize source o.dialect).2, d.category = .lexical) ∧
        ∀ d ∈ later, d.category ≠ .lexical := by
  have hlexical : ∀ d, ∀ r ∈ (tokenize source d).2, r.category = .lexical := by
    intro d r hr
    obtain ⟨s, hs, hr⟩ := List.mem_flatMap.1 hr
    exact Scan.lexical_of_mem hs r hr
  refine ⟨fun o ho => ?_, fun o ho => ?_⟩
  · have hproper : o.dialect.Proper := Json.proper_dialect o.comments
    obtain ⟨fetched, last, rest, v, made, c, hfetches, hscans, hk, hdocument⟩ :=
      Json.exists_fetched ho
    have hall : Scan.ofText o.dialect source = (fetched ++ [last]) ++ rest := by
      rw [hscans, List.append_assoc, List.singleton_append]
    have hmet : made.filter (·.category = .lexical) = (fetched ++ [last]).flatMap Scan.reports := by
      refine hfetches.filter_lexical (fun s hs => ?_) fun x t =>
        Json.onTokens_react o.limits x.mode x.stack x.complained t
      exact Scan.lexical_of_mem (hall ▸ List.mem_append_left rest hs)
    have hparse : Json.parse source o = _ := congrArg (fun r => (r.1, r.2.1)) hdocument
    have hfilter : (Json.parse source o).2.filter (·.category = .lexical) =
        (fetched ++ [last]).flatMap Scan.reports := by
      rw [hparse, List.filter_append, hmet, List.filter_eq_nil_iff.2, List.append_nil]
      simpa using Json.category_of_mem_trailing
    have hreports : (tokenize source o.dialect).2 =
        (fetched ++ [last]).flatMap Scan.reports ++ rest.flatMap Scan.reports := by
      rw [← List.flatMap_append, ← hall]
      rfl
    refine ⟨fetched, last, v, made, hfetches, ?_, ?_, ?_, ?_, hk, hfilter, ?_, fun he => ?_⟩
    · rw [hparse]
    · rw [hparse]
      exact List.prefix_append _ _
    · rw [hdocument]
      rfl
    · refine ⟨rest.map Scan.token, ?_⟩
      rw [← List.map_append, ← hall]
      rfl
    · rw [hreports]
      exact List.prefix_append _ _
    · obtain ⟨ss, reports, hend, hss⟩ :=
        Scan.scansFrom_eq_append hproper source .start source.toList
      obtain ⟨-, -, rfl⟩ := Scan.eq_of_append_eof hss (hend.symm.trans hscans) he
      rw [hfilter, hreports, List.flatMap_nil, List.append_nil]
  · obtain ⟨later, hparse, hlater⟩ := Expression.exists_later ho
    exact ⟨later, hparse, hlexical _, hlater⟩

/-- The second number is fetched and stays; the stray character behind it is not met. -/
theorem fetched_agrees_with_tokens_stray :
    (∃ fetched last v made,
      Automaton.Fetches (Json.react .unlimited) ⟨.value, [], false⟩ (.ofText "1 @ 2 #" .json)
          (fetched ++ [last]) v made ∧
        (Json.parse "1 @ 2 #" ⟨false, false, .unlimited⟩).1 = v ∧
        (fetched ++ [last]).map Scan.token <+: (tokenize "1 @ 2 #" .json).1 ∧
        (Json.parse "1 @ 2 #" ⟨false, false, .unlimited⟩).2.filter (·.category = .lexical) =
          (fetched ++ [last]).flatMap Scan.reports ∧
        (fetched ++ [last]).flatMap Scan.reports <+: (tokenize "1 @ 2 #" .json).2) ∧
    ∃ later, (Expression.parse "1 @ 2 #" ⟨false, .unlimited⟩).2 =
        (tokenize "1 @ 2 #" .expression).2 ++ later ∧
      ∀ d ∈ later, d.category ≠ .lexical := by
  obtain ⟨hjson, hexpression⟩ := fetched_agrees_with_tokens "1 @ 2 #"
  obtain ⟨fetched, last, v, made, hfetches, hv, -, -, htokens, -, hmet, hfirst, -⟩ :=
    hjson ⟨false, false, .unlimited⟩ rfl
  obtain ⟨later, hparse, -, hlater⟩ := hexpression ⟨false, .unlimited⟩ rfl
  exact ⟨⟨fetched, last, v, made, hfetches, hv, htokens, hmet, hfirst⟩, later, hparse, hlater⟩

end Resilient
