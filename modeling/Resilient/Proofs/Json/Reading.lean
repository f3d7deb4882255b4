import Resilient.Json.Reader
import Resilient.Proofs.Automaton
import Resilient.Proofs.Json.Grammar

/-!
# Sentences and the automaton

Without a bound on depth, a sentence over scans is taken from its first to its last token, and the
automaton reports nothing by itself (`passed_of_sentence`).
-/

namespace Resilient

namespace Json

/-- A state of the automaton of JSON. -/
abbrev State := Automaton.State Mode Frame

/-- The automaton takes these scans. -/
abbrev Passes (limits : Limits) (x : State) (ss : List Scan) (reports : List Diagnostic)
    (y : State) : Prop :=
  Automaton.Passes (react limits) x ss reports y

variable {limits : Limits} {x y : State} {s : Scan} {ss : List Scan} {st : List Frame} {c : Bool}
  {g : Group} {f : Frame} {v : Value} {t : Token} {r : List Diagnostic} {b : Span}

/-! ### How a token is met -/

/-- Where a part of a container begins. -/
def Group.part (g : Group) (st : List Frame) : State :=
  match g with
  | .array done => ⟨.value, .item done :: st, false⟩
  | .object done => ⟨.key done, st, false⟩

@[simp] theorem part_array (done : List Value) (st : List Frame) :
    (Group.array done).part st = ⟨.value, .item done :: st, false⟩ := rfl

@[simp] theorem part_object (done : Entries Value) (st : List Frame) :
    (Group.object done).part st = ⟨.key done, st, false⟩ := rfl

theorem meet_part (g : Group) (st : List Frame) (t : Token) :
    (g.part st).meet (react limits) t = partAt t false g st := by
  cases g <;> rfl

theorem react_opened (hl : limits.depth = none) (g : Group) (b : Span) (st : List Frame)
    (c : Bool) (t : Token) :
    react limits (.opened g b) st c t =
      if t.kind = g.closer then .consume (.ended g.value) st else partAt t c g st := by
  have hr : (limits.reachedDepth fun _ => st.length) = none := by simp [Limits.reachedDepth, hl]
  simp [react, hr]

theorem separate_comma (h : t.kind = .comma) (c : Bool) (g : Group) (st : List Frame) :
    separate t c g st = .consume (.separated g t.span) st := by
  unfold separate
  simp [h]

theorem separate_closer (h : t.kind = g.closer) (c : Bool) (st : List Frame) :
    separate t c g st = .consume (.ended g.value) st := by
  have hc : g.closer ≠ .comma := by cases g <;> simp [Group.closer]
  unfold separate
  simp [h, hc]

/-- The state behind the opening bracket of a container, or behind a comma in it. -/
inductive Starts (g : Group) (st : List Frame) : State → Prop where
  | opened (b : Span) : Starts g st ⟨.opened g b, st, false⟩
  | separated (b : Span) : Starts g st ⟨.separated g b, st, false⟩

theorem Starts.meet (hl : limits.depth = none) (hx : Starts g st x) (h : t.kind ≠ g.closer) :
    x.meet (react limits) t = (g.part st).meet (react limits) t := by
  rw [meet_part]
  cases hx with
  | opened b => exact (react_opened hl g b st false t).trans (if_neg h)
  | separated b => exact if_neg h

theorem Starts.passes (hl : limits.depth = none) (hx : Starts g st x)
    (h : s.token.kind ≠ g.closer) (hp : Passes limits (g.part st) (s :: ss) r y) :
    Passes limits x (s :: ss) r y :=
  hp.of_meet_eq (hx.meet hl h)

/-- The kind of bracket that opens the container. -/
def Group.opener : Group → Kind
  | .array _ => .leftBracket
  | .object _ => .leftBrace

/-- A container without parts. -/
def Group.Empty (g : Group) : Prop := g = .array [] ∨ g = .object []

/-! ### One token -/

/-- The reports on the scans themselves. -/
abbrev found (ss : List Scan) : List Diagnostic := ss.flatMap Scan.reports

theorem passes_of_react {mode mode' : Mode} {st' : List Frame}
    (h : react limits mode st c s.token = .consume mode' st') :
    Passes limits ⟨mode, st, c⟩ [s] (found [s]) ⟨mode', st', false⟩ := by
  have hm : Automaton.State.meet (react limits) ⟨mode, st, c⟩ s.token = .consume mode' st' := h
  simpa using Automaton.Passes.single hm

theorem passes_scalar {a : Scalar} (h : Terminals.scan.scalar a ss) (st : List Frame) :
    Passes limits ⟨.value, st, false⟩ ss (found ss) ⟨.ended (.ofScalar a), st, false⟩ := by
  obtain ⟨s, rfl, hk, hp⟩ := h
  apply passes_of_react
  cases a with
  | bool b => cases b <;> simp [react, valueAt, hk, hp, Scalar.kind]
  | _ => simp [react, valueAt, hk, hp, Scalar.kind]

theorem passes_opener (limits : Limits) (hg : g.Empty) (h : Terminals.scan.mark g.opener ss)
    (st : List Frame) :
    ∃ b, Passes limits ⟨.value, st, false⟩ ss (found ss) ⟨.opened g b, st, false⟩ := by
  obtain ⟨s, rfl, hk⟩ := h
  refine ⟨s.token.span, passes_of_react ?_⟩
  rcases hg with rfl | rfl <;> simp [react, valueAt, hk, Group.opener]

theorem passes_empty (hl : limits.depth = none) (h : Terminals.scan.mark g.closer ss) (b : Span)
    (st : List Frame) :
    Passes limits ⟨.opened g b, st, false⟩ ss (found ss) ⟨.ended g.value, st, false⟩ := by
  obtain ⟨s, rfl, hk⟩ := h
  exact passes_of_react ((react_opened hl g b st false s.token).trans (if_pos hk))

theorem passes_closer (limits : Limits) (h : Terminals.scan.mark (f.fill v).closer ss)
    (st : List Frame) :
    Passes limits ⟨.ended v, f :: st, false⟩ ss (found ss)
      ⟨.ended (f.fill v).value, st, false⟩ := by
  obtain ⟨s, rfl, hk⟩ := h
  exact passes_of_react (separate_closer hk false st)

theorem passes_comma (limits : Limits) (h : Terminals.scan.mark .comma ss) (f : Frame) (v : Value)
    (st : List Frame) :
    ∃ x, Starts (f.fill v) st x ∧ Passes limits ⟨.ended v, f :: st, false⟩ ss (found ss) x := by
  obtain ⟨s, rfl, hk⟩ := h
  exact ⟨_, .separated _, passes_of_react (separate_comma hk false (f.fill v) st)⟩

theorem passes_key (limits : Limits) {key : String} (h : Terminals.scan.scalar (.string key) ss)
    (done : Entries Value) (st : List Frame) :
    Passes limits ⟨.key done, st, false⟩ ss (found ss) ⟨.colon done (some key), st, false⟩ := by
  obtain ⟨s, rfl, hk, hp⟩ := h
  apply passes_of_react
  simp [react, keyAt, hk, Scalar.kind, Token.text?, hp, Scalar.text?]

theorem passes_colon (limits : Limits) (h : Terminals.scan.mark .colon ss) (done : Entries Value)
    (key? : Option String) (st : List Frame) :
    Passes limits ⟨.colon done key?, st, false⟩ ss (found ss)
      ⟨.value, .member done (key?.getD "") :: st, false⟩ := by
  obtain ⟨s, rfl, hk⟩ := h
  apply passes_of_react
  simp [react, colonAt, hk]

/-! ### Sentences -/

/-- The kinds of the tokens that begin a value. -/
def beginsValue : Kind → Bool
  | .leftBracket | .leftBrace | .number | .string | .trueWord | .falseWord | .nullWord
  | .identifier => true
  | _ => false

theorem closes_of_beginsValue {k : Kind} (h : beginsValue k = true) : k.closes = false := by
  revert h
  cases k <;> simp [beginsValue, Kind.closes]

theorem beginsValue_kind (a : Scalar) : beginsValue a.kind = true := by
  cases a with
  | bool b => cases b <;> rfl
  | _ => rfl

theorem exists_cons_of_sentence {part : Part} (h : Sentence Terminals.scan ss part) :
    ∃ s rest, ss = s :: rest ∧ beginsValue s.token.kind = true := by
  induction h with
  | null h | bool h | number h | string h =>
    obtain ⟨s, rfl, hk, -⟩ := h
    exact ⟨s, [], rfl, by rw [hk]; exact beginsValue_kind _⟩
  | emptyArray ha _ | array ha _ _ _ | emptyObject ha _ | object ha _ _ _ =>
    obtain ⟨s, rfl, hk⟩ := ha
    exact ⟨s, _, rfl, by rw [hk]; rfl⟩
  | oneItem _ ih | oneMember _ ih => exact ih
  | moreItems _ _ _ ih _ | moreMembers _ _ _ ih _ =>
    obtain ⟨s, rest, rfl, hs⟩ := ih
    exact ⟨s, _, rfl, hs⟩
  | member hk _ _ _ =>
    obtain ⟨s, rfl, hk, -⟩ := hk
    exact ⟨s, _, rfl, by rw [hk]; rfl⟩

theorem closes_closer (g : Group) : g.closer.closes = true := by cases g <;> rfl

theorem ne_closer {k : Kind} (h : k.closes = false) (g : Group) : k ≠ g.closer := by
  rintro rfl
  rw [closes_closer] at h
  cases h

/-- What follows a bracket or a comma is read as a part of the container. -/
theorem Starts.passes_sentence {part : Part} (hl : limits.depth = none) (hx : Starts g st x)
    (h : Sentence Terminals.scan ss part) (hp : Passes limits (g.part st) ss r y) :
    Passes limits x ss r y := by
  obtain ⟨s, rest, rfl, hs⟩ := exists_cons_of_sentence h
  exact hx.passes hl (ne_closer (closes_of_beginsValue hs) g) hp

/-- Entries with pairs written one after the other. -/
def writeAll (done : Entries Value) (ms : List (String × Value)) : Entries Value :=
  ms.foldl (fun es p => es.insert p.1 p.2) done

/-- What the automaton makes of the scans of a part. -/
def Part.Passed (limits : Limits) (ss : List Scan) : Part → Prop
  | .value v => ∀ st, Passes limits ⟨.value, st, false⟩ ss (found ss) ⟨.ended v, st, false⟩
  | .items vs => ∀ done st, ∃ f v, f.fill v = .array (vs.reverse ++ done) ∧
      Passes limits ((Group.array done).part st) ss (found ss) ⟨.ended v, f :: st, false⟩
  | .member key v => ∀ done st,
      Passes limits ((Group.object done).part st) ss (found ss)
        ⟨.ended v, .member done key :: st, false⟩
  | .members ms => ∀ done st, ∃ f v, f.fill v = .object (writeAll done ms) ∧
      Passes limits ((Group.object done).part st) ss (found ss) ⟨.ended v, f :: st, false⟩

/-- A sentence is taken from its first to its last token without a report of the automaton. -/
theorem passed_of_sentence (hl : limits.depth = none) {part : Part}
    (h : Sentence Terminals.scan ss part) : part.Passed limits ss := by
  induction h with
  | null h | bool h | number h | string h => exact passes_scalar h
  | emptyArray ha hb =>
    intro st
    obtain ⟨b, ho⟩ := passes_opener limits (g := .array []) (.inl rfl) ha st
    simpa [Group.value] using ho.append (passes_empty (g := .array []) hl hb b st)
  | emptyObject ha hb =>
    intro st
    obtain ⟨b, ho⟩ := passes_opener limits (g := .object []) (.inr rfl) ha st
    simpa [Group.value] using ho.append (passes_empty (g := .object []) hl hb b st)
  | @array a ts b vs ha h hb ih =>
    intro st
    obtain ⟨b, ho⟩ := passes_opener limits (g := .array []) (.inl rfl) ha st
    obtain ⟨f, v, hf, hp⟩ := ih [] st
    have hp := (Starts.opened b).passes_sentence hl h hp
    have hc := passes_closer limits (f := f) (v := v) (by rw [hf]; exact hb) st
    rw [hf] at hc
    simpa [Group.value] using ho.append (hp.append hc)
  | @object a ts b ms ha h hb ih =>
    intro st
    obtain ⟨b, ho⟩ := passes_opener limits (g := .object []) (.inr rfl) ha st
    obtain ⟨f, v, hf, hp⟩ := ih [] st
    have hp := (Starts.opened b).passes_sentence hl h hp
    have hc := passes_closer limits (f := f) (v := v) (by rw [hf]; exact hb) st
    have hw : writeAll [] ms = Entries.lastWritten ms := Entries.ofPairs_eq_lastWritten ms
    rw [hf, hw] at hc
    simpa [Group.value] using ho.append (hp.append hc)
  | oneItem h ih => exact fun done st => ⟨.item done, _, rfl, ih (.item done :: st)⟩
  | oneMember h ih => exact fun done st => ⟨.member done _, _, rfl, ih done st⟩
  | @moreItems ts c t vs v hs hc h ihs ih =>
    intro done st
    obtain ⟨f, w, hf, hp⟩ := ihs done st
    obtain ⟨x, hx, hcomma⟩ := passes_comma limits hc f w st
    rw [hf] at hx
    have hv := hx.passes_sentence hl h (ih (.item (vs.reverse ++ done) :: st))
    refine ⟨.item (vs.reverse ++ done), v, by simp [Frame.fill], ?_⟩
    simpa using hp.append (hcomma.append hv)
  | @moreMembers ts c t ms key v hs hc h ihs ih =>
    intro done st
    obtain ⟨f, w, hf, hp⟩ := ihs done st
    obtain ⟨x, hx, hcomma⟩ := passes_comma limits hc f w st
    rw [hf] at hx
    have hv := hx.passes_sentence hl h (ih (writeAll done ms) st)
    refine ⟨.member (writeAll done ms) key, v, by simp [Frame.fill, writeAll], ?_⟩
    simpa using hp.append (hcomma.append hv)
  | @member k c t key v hk hc h ih =>
    intro done st
    have hp := (passes_key limits hk done st).append
      ((passes_colon limits hc done (some key) st).append (ih (.member done key :: st)))
    simpa using hp

/-! ### Whole texts -/

theorem parse_unlimited (source : String) (comments : Bool) :
    parse source (Options.unlimited.withComments comments) =
      let o := Automaton.run (react .unlimited) .value [] false []
        (Scan.ofText (Dialect.json.withComments comments) source)
      (o.result, o.reports ++
        Reader.trailing ⟨Options.unlimited.withComments comments, none, o.unread, o.complained⟩) :=
  rfl

theorem parse_of_passes {source : String} {comments : Bool} {q : Position}
    (hs : Scan.ofText (Dialect.json.withComments comments) source = ss ++ [⟨[], .atEnd q⟩])
    (hp : Passes .unlimited ⟨.value, [], false⟩ ss r ⟨.ended v, [], false⟩) :
    parse source (Options.unlimited.withComments comments) = (v, r) := by
  have hrun := Automaton.run_of_passes hp [⟨[], .atEnd q⟩]
  have hstay : (react .unlimited (.ended v) [] false (.atEnd q)).move = .finish v false := rfl
  have hend := Automaton.run_finish (s := ⟨[], .atEnd q⟩) hstay []
  rw [hend] at hrun
  rw [parse_unlimited, hs, hrun]
  simp [Outcome.behind, Reader.trailing, Reader.current, Token.isEof, Token.atEnd, Token.bare,
    react, settle, Turn.finish]

end Json

end Resilient
