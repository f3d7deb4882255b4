import Resilient.Proofs.Json.Reading
import Resilient.Proofs.Json.Spelling

/-!
# What is accepted without a report

As long as nothing is reported, the automaton is in a state that the grammar explains: `Reached`
says how the tokens taken so far are the beginning of a sentence. `sound_react` is the step and
`reached_of_passes` the run.
-/

namespace Resilient

namespace Json

/-- A container that holds parts, up to its last one. -/
inductive Filled : Group → List Scan → Prop where
  | array {a ts : List Scan} {vs : List Value} (ha : Terminals.scan.mark .leftBracket a)
      (h : Sentence Terminals.scan ts (.items vs)) : Filled (.array vs.reverse) (a ++ ts)
  | object {a ts : List Scan} {ms : List (String × Value)}
      (ha : Terminals.scan.mark .leftBrace a) (h : Sentence Terminals.scan ts (.members ms)) :
      Filled (.object (Entries.ofPairs ms)) (a ++ ts)

/-- A container up to where the next part begins. -/
inductive Ready : Group → List Scan → Prop where
  | first {g : Group} {a : List Scan} (hg : g.Empty) (ha : Terminals.scan.mark g.opener a) :
      Ready g a
  | next {g : Group} {ts c : List Scan} (h : Filled g ts) (hc : Terminals.scan.mark .comma c) :
      Ready g (ts ++ c)

/-- The containers on the stack, up to where the value of the innermost one begins. -/
inductive Awaits : List Frame → List Scan → Prop where
  | nil : Awaits [] []
  | item {done : List Value} {st : List Frame} {ss ts : List Scan} (hs : Awaits st ss)
      (h : Ready (.array done) ts) : Awaits (.item done :: st) (ss ++ ts)
  | member {done : Entries Value} {key : String} {st : List Frame} {ss ts k c : List Scan}
      (hs : Awaits st ss) (h : Ready (.object done) ts)
      (hk : Terminals.scan.scalar (.string key) k) (hc : Terminals.scan.mark .colon c) :
      Awaits (.member done key :: st) (ss ++ (ts ++ (k ++ c)))

/-- The scans that bring the automaton to a state without a report. -/
inductive Reached : Mode → List Frame → List Scan → Prop where
  | value {st : List Frame} {ss : List Scan} (hs : Awaits st ss) : Reached .value st ss
  | opened {st : List Frame} {ss a : List Scan} {g : Group} {b : Span} (hs : Awaits st ss)
      (hg : g.Empty) (ha : Terminals.scan.mark g.opener a) : Reached (.opened g b) st (ss ++ a)
  | separated {st : List Frame} {ss ts c : List Scan} {g : Group} {b : Span} (hs : Awaits st ss)
      (h : Filled g ts) (hc : Terminals.scan.mark .comma c) :
      Reached (.separated g b) st (ss ++ (ts ++ c))
  | colon {done : Entries Value} {key : String} {st : List Frame} {ss ts k : List Scan}
      (hs : Awaits st ss) (h : Ready (.object done) ts)
      (hk : Terminals.scan.scalar (.string key) k) :
      Reached (.colon done (some key)) st (ss ++ (ts ++ k))
  | ended {v : Value} {st : List Frame} {ss ts : List Scan} (hs : Awaits st ss)
      (h : Sentence Terminals.scan ts (.value v)) : Reached (.ended v) st (ss ++ ts)

variable {limits : Limits} {s : Scan} {ss ts a b : List Scan} {st : List Frame} {g : Group}
  {f : Frame} {v : Value} {t : Token} {mode : Mode} {c : Bool}

/-! ### What the grammar makes of the parts -/

theorem Ready.item {done : List Value} (h : Ready (.array done) ss)
    (hv : Sentence Terminals.scan ts (.value v)) : Filled (.array (v :: done)) (ss ++ ts) := by
  cases h with
  | first hg ha =>
    obtain rfl : done = [] := by simpa [Group.Empty] using hg
    exact .array ha (.oneItem hv)
  | @next us c h hc =>
    cases h with
    | @array a is vs ha h =>
      have hi := Filled.array ha (.moreItems h hc hv)
      simpa using hi

theorem Ready.member {done : Entries Value} {key : String} {k c : List Scan}
    (h : Ready (.object done) ss) (hk : Terminals.scan.scalar (.string key) k)
    (hc : Terminals.scan.mark .colon c) (hv : Sentence Terminals.scan ts (.value v)) :
    Filled (.object (done.insert key v)) (ss ++ (k ++ (c ++ ts))) := by
  have hm := Sentence.member hk hc hv
  cases h with
  | first hg ha =>
    obtain rfl : done = [] := by simpa [Group.Empty] using hg
    exact .object ha (.oneMember hm)
  | @next us c h hc =>
    cases h with
    | @object a is ms ha h =>
      have hi := Filled.object ha (.moreMembers h hc hm)
      rw [Entries.ofPairs_append_singleton] at hi
      simpa using hi

theorem Awaits.filled (h : Awaits (f :: st) ss) (hv : Sentence Terminals.scan ts (.value v)) :
    ∃ us ws, ss ++ ts = us ++ ws ∧ Awaits st us ∧ Filled (f.fill v) ws := by
  cases h with
  | @item done _ us ws hs h => exact ⟨us, ws ++ ts, by simp, hs, h.item hv⟩
  | @member done key _ us ws k c hs h hk hc =>
    exact ⟨us, ws ++ (k ++ (c ++ ts)), by simp, hs, h.member hk hc hv⟩

theorem Filled.closed (h : Filled g ss) (hb : Terminals.scan.mark g.closer b) :
    Sentence Terminals.scan (ss ++ b) (.value g.value) := by
  cases h with
  | @array a ts vs ha h =>
    rw [List.append_assoc]
    simpa [Group.value] using Sentence.array ha h hb
  | @object a ts ms ha h =>
    rw [List.append_assoc, Entries.ofPairs_eq_lastWritten]
    exact .object ha h hb

theorem Group.Empty.closed (hg : g.Empty) (ha : Terminals.scan.mark g.opener a)
    (hb : Terminals.scan.mark g.closer b) : Sentence Terminals.scan (a ++ b) (.value g.value) := by
  rcases hg with rfl | rfl
  · exact .emptyArray ha hb
  · exact .emptyObject ha hb

/-! ### One token -/

/-- A token as it is scanned without a report. -/
def Legal (t : Token) : Prop :=
  t.kind ∈ .eof :: punctuation.map Prod.fst ∨ ∃ v : Scalar, t.kind = v.kind ∧ t.payload = some v

/-- The decision on a token, taken without a report, goes on with what the grammar explains. -/
def Sound (ss : List Scan) (s : Scan) (turn : Turn) : Prop :=
  turn.reports = [] → match turn.move with
    | .consume mode st => Reached mode st (ss ++ [s])
    | .finish v _ => Sentence Terminals.scan ss (.value v)

theorem sound_of_expected {wanted : String} {turn : Turn} :
    Sound ss s (turn.behind (s.token.expected wanted false)) := by
  intro h
  simp [Token.expected] at h

theorem sound_valueAt (ht : Legal s.token) (hs : Awaits st ss) :
    Sound ss s (valueAt s.token false st) := by
  rcases ht with ht | ⟨v, hk, hp⟩
  · simp only [punctuation, List.map_cons, List.map_nil, List.mem_cons, List.not_mem_nil,
      or_false] at ht
    unfold valueAt
    rcases ht with h | h | h | h | h | h | h <;> rw [h]
    · exact sound_of_expected
    · exact fun _ => .opened hs (.inr rfl) ⟨s, rfl, h⟩
    · exact sound_of_expected
    · exact fun _ => .opened hs (.inl rfl) ⟨s, rfl, h⟩
    all_goals exact sound_of_expected
  · have hm : valueAt s.token false st = .consume (.ended (.ofScalar v)) st := by
      cases v with
      | bool b => cases b <;> simp [valueAt, hk, hp, Scalar.kind]
      | _ => simp [valueAt, hk, hp, Scalar.kind]
    rw [hm]
    exact fun _ => .ended hs (.scalar ⟨s, rfl, hk, hp⟩)

theorem sound_keyAt {done : Entries Value} (ht : Legal s.token) (hs : Awaits st ss)
    (h : Ready (.object done) ts) : Sound (ss ++ ts) s (keyAt s.token false done st) := by
  rcases ht with ht | ⟨v, hk, hp⟩
  · simp only [punctuation, List.map_cons, List.map_nil, List.mem_cons, List.not_mem_nil,
      or_false] at ht
    unfold keyAt
    rcases ht with h | h | h | h | h | h | h <;> rw [h] <;> exact sound_of_expected
  · cases v with
    | string key =>
      have hm : keyAt s.token false done st = .consume (.colon done (some key)) st := by
        simp [keyAt, hk, hp, Scalar.kind, Token.text?, Scalar.text?]
      rw [hm]
      intro _
      have hc := Reached.colon hs h ⟨s, rfl, hk, hp⟩
      simpa using hc
    | bool b =>
      unfold keyAt
      cases b <;> rw [hk] <;> exact sound_of_expected
    | null | number x =>
      unfold keyAt
      rw [hk]
      exact sound_of_expected

theorem sound_partAt (ht : Legal s.token) (hs : Awaits st ss) (h : Ready g ts) :
    Sound (ss ++ ts) s (partAt s.token false g st) := by
  cases g with
  | array done => exact sound_valueAt ht (.item hs h)
  | object done => exact sound_keyAt ht hs h

theorem sound_settle (hs : Awaits st ss) (hv : Sentence Terminals.scan ts (.value v)) :
    Sound (ss ++ ts) s (settle s.token false v st) := by
  cases st with
  | nil =>
    cases hs
    exact fun _ => hv
  | cons f st =>
    obtain ⟨us, ws, heq, hs, hf⟩ := hs.filled hv
    rw [heq, settle, separate.eq_def]
    split
    · rename_i hk
      intro _
      have hc := Reached.separated (b := s.token.span) hs hf ⟨s, rfl, hk⟩
      simpa using hc
    · split
      · rename_i hk
        intro _
        have hc := Reached.ended hs (hf.closed ⟨s, rfl, hk⟩)
        simpa using hc
      · split <;> exact sound_of_expected

theorem sound_react (hl : limits.depth = none) (ht : Legal s.token) (h : Reached mode st ss) :
    Sound ss s (react limits mode st false s.token) := by
  cases h with
  | value hs => exact sound_valueAt ht hs
  | opened hs hg ha =>
    rw [react_opened hl]
    split
    · rename_i hk
      intro _
      have hc := Reached.ended hs (hg.closed ha ⟨s, rfl, hk⟩)
      simpa using hc
    · exact sound_partAt ht hs (.first hg ha)
  | separated hs hf hc =>
    simp only [react]
    split
    · intro h
      simp at h
    · exact sound_partAt ht hs (.next hf hc)
  | @colon done key _ ss ts k hs h hk =>
    simp only [react, colonAt]
    split
    · rename_i hc
      intro _
      have hv := Reached.value (.member hs h hk ⟨s, rfl, hc⟩)
      simpa using hv
    · exact sound_of_expected
  | ended hs hv => exact sound_settle hs hv

/-! ### A run -/

theorem reached_of_passes (hl : limits.depth = none) {x y : State} (h : Passes limits x ts [] y)
    (hx : x.complained = false) (ht : ∀ s ∈ ts, Legal s.token) (hs : Reached x.mode x.stack ss) :
    Reached y.mode y.stack (ss ++ ts) ∧ y.complained = false := by
  refine Automaton.invariant_of_passes (P := Reached) (fun mode st ss s mode' st' hs ht hm => ?_)
    h rfl hx ht ss hs
  have hsound := sound_react hl ht hs
  rw [hm] at hsound
  exact hsound rfl

theorem legal_of_spelled {comments : Bool} {text : List Char} (h : Spelled comments text ss) :
    ∀ s ∈ ss, Legal s.token := by
  induction h with
  | nil => simp
  | @cons t w text s ss h hw hs ih =>
    refine List.forall_mem_cons.2 ⟨?_, ih⟩
    cases h with
    | punctuation hc => exact .inl (List.mem_cons_of_mem _ (List.mem_map.2 ⟨_, hc, rfl⟩))
    | scalar hv hk hp => exact .inr ⟨_, hk, hp⟩

theorem document_of_reports {source : String} {comments : Bool}
    (hr : (parse source (Options.unlimited.withComments comments)).2 = []) :
    Document comments source.toList
      (parse source (Options.unlimited.withComments comments)).1 := by
  obtain ⟨ss, reports, hscans, hk⟩ :=
    Scan.scansFrom_eq_append (proper_dialect comments) source .start source.toList
  generalize Position.start.after source.toList = q at hscans
  have hstay : ∀ x : State, (x.meet (react .unlimited) (.atEnd q)).Finishes :=
    fun x => react_eof rfl .unlimited x.mode x.stack x.complained
  obtain ⟨us, z, rest, r, y, v, complained, heq, hp, hf, hrun⟩ :=
    Automaton.exists_finish (s := ⟨reports, .atEnd q⟩) hstay ⟨.value, [], false⟩ ss
  have hscan : Scan.ofText (Dialect.json.withComments comments) source =
      ss ++ [⟨reports, .atEnd q⟩] := hscans
  rw [parse_unlimited, hscan, hrun] at hr ⊢
  simp only [List.append_eq_nil_iff] at hr
  obtain ⟨⟨rfl, hz, hturn⟩, htrail⟩ := hr
  have heof : z.token.kind = .eof := by
    simpa [Reader.trailing, Reader.current, Options.unlimited, Options.ofLimits,
      Options.withComments, Token.isEof] using htrail
  obtain ⟨rfl, rfl, rfl⟩ := Scan.eq_of_append_eof hk heq heof
  have hclean : ∀ s ∈ ss ++ [⟨reports, .atEnd q⟩], s.reports = [] := by
    simpa [or_imp, forall_and] using
      ⟨fun s hs => List.eq_nil_iff_forall_not_mem.2 fun d hd => by
        simpa using hp.reports_subset s hs d hd, hz⟩
  have hlegal : ∀ s ∈ ss, Legal s.token := by
    obtain ⟨before, core, last, ss', q', -, -, hspelled, -, hss⟩ :=
      exists_spelled (by rw [hscans]; exact hclean)
    rw [hscans] at hss
    obtain ⟨rfl, -⟩ := List.append_singleton_inj.1 hss
    exact legal_of_spelled hspelled
  obtain ⟨hy, hc⟩ := reached_of_passes rfl hp rfl hlegal (.value .nil)
  have hsound := sound_react (s := ⟨reports, .atEnd q⟩) (rfl : Limits.unlimited.depth = none)
    (.inl (by simp [Token.atEnd, Token.bare])) hy
  rw [← hc] at hsound
  have hv := hsound hturn
  rw [Automaton.State.meet] at hf
  rw [hf] at hv
  exact document_of_scans hscans hclean hv

theorem parse_of_document {source : String} {comments : Bool} {v : Value}
    (h : Document comments source.toList v) :
    parse source (Options.unlimited.withComments comments) = (v, []) := by
  obtain ⟨ss, q, hscans, hv, hr⟩ := scansFrom_document h source .start
  have hp := passed_of_sentence (rfl : Limits.unlimited.depth = none) hv []
  have hfound : found ss = [] := List.flatMap_eq_nil_iff.2 hr
  rw [hfound] at hp
  exact parse_of_passes hscans hp

/-- Exactly the documents are read without a report, each as the value that it denotes. -/
theorem parse_reports_nothing_iff_document (source : String) (comments : Bool) :
    ((parse source (Options.unlimited.withComments comments)).2 = [] ↔
        ∃ v, Document comments source.toList v) ∧
      ∀ v, Document comments source.toList v →
        (parse source (Options.unlimited.withComments comments)).1 = v := by
  refine ⟨⟨fun hr => ⟨_, document_of_reports hr⟩, ?_⟩, fun v h => ?_⟩
  · rintro ⟨v, h⟩
    rw [parse_of_document h]
  · rw [parse_of_document h]

end Json

end Resilient
