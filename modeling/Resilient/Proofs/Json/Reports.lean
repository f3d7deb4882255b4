import Mathlib.Tactic.SplitIfs
import Resilient.Proofs.Json.Reading
import Resilient.Proofs.Json.Scanning
import Resilient.Proofs.Source.Tokens

/-!
# What the automaton reports

Each decision reports at most that something else was wanted than the token at hand, and behind an
opening bracket or a comma also the depth or the comma (`Told`). So a report of the automaton stands
at the token at hand or at the one before it, and all reports on a text cover ranges of it
(`isIn_of_mem_parse`).
-/

namespace Resilient

namespace Json

/-- The range that a mode remembers: the one of the token before. -/
def Mode.span? : Mode → Option Span
  | .opened _ b | .separated _ b => some b
  | _ => none

/-- The mode that follows a token remembers no range but the token's. A container is entered at its
opening bracket, without parts. -/
def Mode.Follows (t : Token) : Mode → Prop
  | .opened g b => g.Empty ∧ t.kind = g.opener ∧ b = t.span
  | .separated _ b => t.kind = .comma ∧ b = t.span
  | _ => True

theorem Mode.Follows.span {mode : Mode} {t : Token} {b : Span} (h : mode.Follows t)
    (hb : mode.span? = some b) : b = t.span := by
  cases mode with
  | opened g b' =>
    cases hb
    exact h.2.2
  | separated g b' =>
    cases hb
    exact h.2
  | _ => cases hb

/-- What can be reported on a token in a mode. -/
inductive Told (limits : Limits) (t : Token) : Mode → Diagnostic → Prop where
  | expected {mode : Mode} (wanted : String) :
      Told limits t mode (.of (.expected wanted t.kind.name) t.span)
  | trailingComma (g : Group) (b : Span) : Told limits t (.separated g b) (.of .trailingComma b)
  | maxDepthExceeded (g : Group) (b : Span) {max : Nat} (hl : limits.depth = some max) :
      Told limits t (.opened g b) (.of (.maxDepthExceeded max) b)

/-- A decision on a token alone: it reports only that something else was wanted, and only once. -/
structure Local (t : Token) (c : Bool) (turn : Turn) : Prop where
  once : turn.Once t c
  marks : turn.Marks c
  follows : turn.Leaves (fun mode _ => mode.Follows t) fun _ => True

variable {limits : Limits} {mode : Mode} {t : Token} {turn : Turn} {d : Diagnostic} {c : Bool}

theorem local_consume {st : List Frame} (h : mode.Follows t) : Local t c (.consume mode st) :=
  ⟨Turn.once_consume t c mode st, Turn.marks_consume c mode st, h⟩

theorem local_finish (t : Token) (v : Value) (c : Bool) : Local t c (.finish v c) :=
  ⟨Turn.once_finish t c v c, Turn.marks_finish c v, trivial⟩

theorem Local.behind (h : Local t true turn) (wanted : String) (c : Bool) :
    Local t c (turn.behind (t.expected wanted c)) :=
  ⟨h.once.behind wanted c, h.marks.behind wanted c, h.follows⟩

theorem Local.reports (h : Local t c turn) :
    ∀ d ∈ turn.reports, ∃ wanted, d = .of (.expected wanted t.kind.name) t.span := by
  intro d hd
  obtain ⟨wanted, hreports⟩ := h.once.eq_singleton (List.ne_nil_of_mem hd)
  rw [hreports] at hd
  exact ⟨wanted, List.mem_singleton.1 hd⟩

theorem local_separate (t : Token) (c : Bool) (g : Group) (st : List Frame) :
    Local t c (separate t c g st) := by
  induction st generalizing c g with
  | nil =>
    rw [separate.eq_def]
    split_ifs with hk
    · exact local_consume ⟨hk, rfl⟩
    · exact local_consume trivial
    · exact (local_finish t g.value true).behind _ _
    · refine Local.behind ?_ _ _
      exact local_consume trivial
  | cons f st ih =>
    rw [separate.eq_def]
    split_ifs with hk
    · exact local_consume ⟨hk, rfl⟩
    · exact local_consume trivial
    · exact (ih true (f.fill g.value)).behind _ _
    · refine Local.behind ?_ _ _
      exact local_consume trivial

theorem local_settle (t : Token) (c : Bool) (v : Value) (st : List Frame) :
    Local t c (settle t c v st) := by
  cases st with
  | nil => exact local_finish t v c
  | cons f st => exact local_separate t c _ st

theorem local_seekSeparator (t : Token) (c : Bool) (n : Nat) (g : Group) (st : List Frame) :
    Local t c (seekSeparator t c n g st) := by
  rw [seekSeparator]
  split_ifs
  · exact local_separate t c g st
  · exact local_consume trivial

theorem local_seekValue (t : Token) (c : Bool) (n : Nat) (st : List Frame) :
    Local t c (seekValue t c n st) := by
  rw [seekValue]
  split_ifs
  · exact local_settle t c .null st
  · exact local_consume trivial

theorem local_colonAt (t : Token) (c : Bool) (done : Entries Value) (key : Option String)
    (st : List Frame) : Local t c (colonAt t c done key st) := by
  rw [colonAt]
  split_ifs
  · exact local_consume trivial
  · exact (local_seekSeparator t true 0 _ st).behind _ _
  · exact local_seekSeparator t c 0 _ st

theorem local_seekColon (t : Token) (c : Bool) (n : Nat) (done : Entries Value)
    (st : List Frame) : Local t c (seekColon t c n done st) := by
  rw [seekColon]
  split_ifs
  · exact local_colonAt t c done none st
  · exact local_consume trivial

theorem local_valueAt (t : Token) (c : Bool) (st : List Frame) : Local t c (valueAt t c st) := by
  rw [valueAt]
  split
  case h_1 hk => exact local_consume ⟨.inl rfl, hk, rfl⟩
  case h_2 hk => exact local_consume ⟨.inr rfl, hk, rfl⟩
  case h_9 => exact (local_seekValue t true 0 st).behind _ _
  all_goals exact local_consume trivial

theorem local_keyAt (t : Token) (c : Bool) (done : Entries Value) (st : List Frame) :
    Local t c (keyAt t c done st) := by
  rw [keyAt]
  split
  case h_3 => exact (local_seekColon t true 0 done st).behind _ _
  all_goals exact local_consume trivial

theorem local_partAt (t : Token) (c : Bool) (g : Group) (st : List Frame) :
    Local t c (partAt t c g st) := by
  cases g with
  | array done => exact local_valueAt t c _
  | object done => exact local_keyAt t c done st

theorem local_skipAt (t : Token) (c : Bool) (n : Nat) (st : List Frame) :
    Local t c (skipAt t c n st) := by
  rw [skipAt]
  split_ifs
  · exact local_settle t c .null st
  · exact local_consume trivial
  · exact local_consume trivial

theorem Local.told (h : Local t c turn) (hd : d ∈ turn.reports) : Told limits t mode d := by
  obtain ⟨wanted, rfl⟩ := h.reports d hd
  exact .expected wanted

/-- What a decision reports on the token before. -/
inductive Belated (limits : Limits) : Mode → List Diagnostic → Prop where
  | nothing {mode : Mode} : Belated limits mode []
  | trailingComma (g : Group) (b : Span) : Belated limits (.separated g b) [.of .trailingComma b]
  | maxDepthExceeded (g : Group) (b : Span) {max : Nat} (hl : limits.depth = some max) :
      Belated limits (.opened g b) [.of (.maxDepthExceeded max) b]

/-- A decision is one on the token alone, behind what is left to report on the token before. -/
theorem exists_local_react (limits : Limits) (mode : Mode) (st : List Frame) (c : Bool)
    (t : Token) : ∃ early turn, Belated limits mode early ∧ Local t c turn ∧
      react limits mode st c t = turn.behind early := by
  have key : ∀ turn, Local t c turn → ∃ early turn', Belated limits mode early ∧ Local t c turn' ∧
      turn = turn'.behind early :=
    fun turn h => ⟨[], turn, .nothing, h, rfl⟩
  cases mode with
  | value => exact key _ (local_valueAt t c st)
  | opened g b =>
    simp only [react]
    split
    · rename_i max hmax
      have hl := (Option.filter_eq_some_iff.1 hmax).1
      exact ⟨_, _, .maxDepthExceeded g b hl, local_skipAt t c 1 st, rfl⟩
    · split_ifs
      · exact key _ (local_consume trivial)
      · exact key _ (local_partAt t c g st)
  | key done => exact key _ (local_keyAt t c done st)
  | colon done k => exact key _ (local_colonAt t c done k st)
  | separated g b =>
    simp only [react]
    split_ifs
    · have hnext : Local t c (.consume (.ended g.value) st) := local_consume trivial
      exact ⟨_, _, .trailingComma g b, hnext, rfl⟩
    · exact key _ (local_partAt t c g st)
  | seekValue n => exact key _ (local_seekValue t c n st)
  | seekColon n done => exact key _ (local_seekColon t c n done st)
  | seekSeparator n g => exact key _ (local_seekSeparator t c n g st)
  | skip n => exact key _ (local_skipAt t c n st)
  | ended v => exact key _ (local_settle t c v st)

/-- What a decision reports, and which mode follows it. -/
theorem told_react (limits : Limits) (mode : Mode) (st : List Frame) (c : Bool) (t : Token) :
    (∀ d ∈ (react limits mode st c t).reports, Told limits t mode d) ∧
      (react limits mode st c t).Leaves (fun mode' _ => mode'.Follows t) fun _ => True := by
  obtain ⟨early, turn, hearly, hlocal, heq⟩ := exists_local_react limits mode st c t
  rw [heq]
  refine ⟨List.forall_mem_append.2 ⟨?_, fun d hd => hlocal.told hd⟩, hlocal.follows⟩
  cases hearly with
  | nothing => simp
  | trailingComma g b => exact List.forall_mem_singleton.2 (.trailingComma g b)
  | maxDepthExceeded g b hl => exact List.forall_mem_singleton.2 (.maxDepthExceeded g b hl)

theorem Told.span (h : Told limits t mode d) : d.span = t.span ∨ mode.span? = some d.span := by
  cases h with
  | expected wanted => exact .inl rfl
  | trailingComma g b | maxDepthExceeded g b _ => exact .inr rfl

/-- Without a bound on depth only syntax is reported. -/
theorem Told.syntactic (h : Told limits t mode d) (hl : limits.depth = none) :
    d.category = .syntactic := by
  cases h with
  | expected wanted | trailingComma g b => rfl
  | maxDepthExceeded g b h =>
    rw [hl] at h
    cases h

/-! ### Whole texts -/

variable {source : String} {options : Options}

theorem parse_of_exceededSize {max : Nat} (h : options.limits.exceededSize source = some max) :
    parse source options = (.null, [.atPoint (.maxSizeExceeded max) .start]) := by
  simp [parse, Reader.ofText, Reader.document, h]

theorem document_of_fits (h : options.limits.exceededSize source = none) :
    (Reader.ofText source options).document =
      let o := Automaton.run (react options.limits) .value [] false []
        (Scan.ofText options.dialect source)
      let behind : Reader := ⟨options, none, o.unread, o.complained⟩
      (o.result, o.reports ++ behind.trailing, behind) := by
  simp [Reader.ofText, Reader.document, Reader.value, h]

theorem parse_of_fits (h : options.limits.exceededSize source = none) :
    parse source options =
      let o := Automaton.run (react options.limits) .value [] false []
        (Scan.ofText options.dialect source)
      (o.result, o.reports ++ Reader.trailing ⟨options, none, o.unread, o.complained⟩) := by
  rw [parse, document_of_fits h]

/-- The end of a text is the last of its scans, and it always stays. -/
theorem exists_scans (limits : Limits) (source : String) (comments : Bool) :
    ∃ ss e, Scan.ofText (dialect comments) source = ss ++ [e] ∧ (∀ s ∈ ss, s.token.kind ≠ .eof) ∧
      e.token.kind = .eof ∧ ∀ x : State, (x.meet (react limits) e.token).Finishes := by
  obtain ⟨ss, reports, hscans, hk⟩ :=
    Scan.scansFrom_eq_append (proper_dialect comments) source .start source.toList
  exact ⟨ss, _, hscans, hk, rfl, fun x => react_eof rfl limits x.mode x.stack x.complained⟩

/-- What the mode remembers and the scans left cover ranges of the text. -/
def Placed (source : String) (mode : Mode) (_st : List Frame) (scans : List Scan) : Prop :=
  (∀ b ∈ mode.span?, b.IsIn source) ∧ ∀ s ∈ scans, s.IsIn source

theorem placed_react {s : Scan} {ss : List Scan} {st : List Frame}
    (h : Placed source mode st (s :: ss)) (limits : Limits) (c : Bool) :
    (∀ d ∈ s.reports, d.span.IsIn source) ∧
      (∀ d ∈ (react limits mode st c s.token).reports, d.span.IsIn source) ∧
      (react limits mode st c s.token).Leaves (fun mode st => Placed source mode st ss)
        fun _ => True := by
  obtain ⟨hmode, hscans⟩ := h
  obtain ⟨⟨htoken, hreports⟩, hss⟩ := List.forall_mem_cons.1 hscans
  obtain ⟨htold, hleaves⟩ := told_react limits mode st c s.token
  refine ⟨hreports, fun d hd => ?_, ?_⟩
  · rcases (htold d hd).span with hspan | hspan
    · rw [hspan]
      exact htoken
    · exact hmode _ hspan
  · unfold Turn.Leaves at hleaves ⊢
    split at hleaves
    · refine ⟨fun b hb => ?_, hss⟩
      rw [hleaves.span hb]
      exact htoken
    · trivial

theorem isIn_of_mem_parse (source : String) (options : Options) :
    ∀ d ∈ (parse source options).2, d.span.IsIn source := by
  cases h : options.limits.exceededSize source with
  | some max =>
    rw [parse_of_exceededSize h]
    exact List.forall_mem_singleton.2 (.point (Position.Sees.of_source source).isIn)
  | none =>
    obtain ⟨ss, e, hscans, -, -, hstay⟩ := exists_scans options.limits source options.comments
    have hscans : Scan.ofText options.dialect source = ss ++ [e] := hscans
    have hplaced : Placed source .value [] (ss ++ [e]) :=
      ⟨by simp [Mode.span?], fun s hs => Scan.isIn_of_mem (hscans ▸ hs)⟩
    obtain ⟨-, hreports, t, ht, rest, hunread⟩ := Automaton.run_invariant hstay
      (fun mode st c s ss hs => placed_react hs options.limits c) false ss hplaced
    rw [parse_of_fits h, hscans]
    intro d hd
    rcases List.mem_append.1 hd with hd | hd
    · exact hreports d hd
    · simp only [hunread, Reader.trailing, Reader.current, List.head?_cons, Option.map_some] at hd
      split at hd
      · rw [List.mem_singleton.1 hd]
        exact (hplaced.2 t ht).1
      · cases hd

end Json

end Resilient
