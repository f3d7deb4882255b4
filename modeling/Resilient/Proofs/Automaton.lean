import Resilient.Automaton

/-!
# Runs of an automaton

`Passes` says that scans are taken one after the other, and what is reported meanwhile. A token may
be met in one state as it would be met in another; `Leads` is a run up to such a token.
-/

namespace Resilient

/-- The same outcome behind earlier reports. -/
def Outcome.behind {Result : Type} (reports : List Diagnostic) (o : Outcome Result) :
    Outcome Result :=
  { o with reports := reports ++ o.reports }

namespace Turn

variable {Mode Frame Result : Type} {next : Mode → List Frame → Prop} {last : Result → Prop}

/-- What holds of the next state, or of the result. -/
def Leaves (turn : Turn Mode Frame Result) (next : Mode → List Frame → Prop)
    (last : Result → Prop) : Prop :=
  match turn.move with
  | .consume mode stack => next mode stack
  | .finish result _ => last result

@[simp] theorem leaves_consume (mode : Mode) (stack : List Frame) :
    (consume mode stack : Turn Mode Frame Result).Leaves next last ↔ next mode stack := Iff.rfl

@[simp] theorem leaves_finish (result : Result) (complained : Bool) :
    (finish result complained : Turn Mode Frame Result).Leaves next last ↔ last result := Iff.rfl

@[simp] theorem leaves_behind (reports : List Diagnostic) (turn : Turn Mode Frame Result) :
    (turn.behind reports).Leaves next last ↔ turn.Leaves next last := Iff.rfl

variable {turn : Turn Mode Frame Result} {t : Token} {c : Bool}

/-- At most one report is made: that something else was wanted than the token, unless it was
reported before. -/
def Once (t : Token) (c : Bool) (turn : Turn Mode Frame Result) : Prop :=
  turn.reports = [] ∨ ∃ wanted, turn.reports = t.expected wanted c

theorem once_consume (t : Token) (c : Bool) (mode : Mode) (stack : List Frame) :
    Once t c (consume mode stack : Turn Mode Frame Result) := .inl rfl

theorem once_finish (t : Token) (c : Bool) (result : Result) (c' : Bool) :
    Once t c (finish result c' : Turn Mode Frame Result) := .inl rfl

theorem Once.behind (h : turn.Once t true) (wanted : String) (c : Bool) :
    (turn.behind (t.expected wanted c)).Once t c := by
  have hnone : turn.reports = [] := by
    rcases h with h | ⟨wanted, h⟩
    · exact h
    · exact h
  exact .inr ⟨wanted, by rw [reports_behind, hnone, List.append_nil]⟩

theorem Once.eq_singleton (h : turn.Once t c) (hne : turn.reports ≠ []) :
    ∃ wanted, turn.reports = [.of (.expected wanted t.kind.name) t.span] := by
  obtain ⟨wanted, h⟩ := h.resolve_left hne
  refine ⟨wanted, ?_⟩
  rw [h] at hne ⊢
  cases c with
  | false => rfl
  | true => exact absurd rfl hne

/-- A token that stays is held to be out of place if it was before or is reported now. -/
def Marks (c : Bool) (turn : Turn Mode Frame Result) : Prop :=
  ∀ result c', turn.move = .finish result c' → c' = (c || !turn.reports.isEmpty)

theorem marks_consume (c : Bool) (mode : Mode) (stack : List Frame) :
    Marks c (consume mode stack : Turn Mode Frame Result) := nofun

theorem marks_finish (c : Bool) (result : Result) :
    Marks c (finish result c : Turn Mode Frame Result) := by
  rintro _ _ ⟨⟩
  exact (Bool.or_false c).symm

theorem Marks.behind (h : turn.Marks true) (wanted : String) (c : Bool) :
    (turn.behind (t.expected wanted c)).Marks c := by
  intro result c' hm
  have htrue : c' = true := h result c' hm
  cases c with
  | false => simp [htrue, Token.expected]
  | true => exact htrue

end Turn

namespace Automaton

/-- Where an automaton stands. -/
structure State (Mode Frame : Type) where
  /-- What the next token is taken for. -/
  mode : Mode
  /-- What waits for a result. -/
  stack : List Frame
  /-- Whether the next token was reported to be out of place. -/
  complained : Bool

section

variable {Mode Frame Result : Type}

/-- The decision on a token in a state. -/
def State.meet (react : Mode → List Frame → Bool → Token → Turn Mode Frame Result)
    (x : State Mode Frame) (t : Token) : Turn Mode Frame Result :=
  react x.mode x.stack x.complained t

/-- Both states decide alike on the token, reports aside. -/
def State.Agree (react : Mode → List Frame → Bool → Token → Turn Mode Frame Result)
    (x y : State Mode Frame) (t : Token) : Prop :=
  (x.meet react t).move = (y.meet react t).move

variable (react : Mode → List Frame → Bool → Token → Turn Mode Frame Result)

/-- The scans are taken one after the other, with these reports. -/
inductive Passes : State Mode Frame → List Scan → List Diagnostic → State Mode Frame → Prop where
  | nil {x : State Mode Frame} : Passes x [] [] x
  | cons {x y : State Mode Frame} {s : Scan} {ss : List Scan} {reports more : List Diagnostic}
      {mode : Mode} {stack : List Frame}
      (h : x.meet react s.token = ⟨reports, .consume mode stack⟩)
      (hs : Passes ⟨mode, stack, false⟩ ss more y) :
      Passes x (s :: ss) (s.reports ++ (reports ++ more)) y

/-- The scans are taken one after the other, and then the token is met as in the last state, behind
what is left of the reports. -/
def Leads (x : State Mode Frame) (ss : List Scan) (next : Token) (reports : List Diagnostic)
    (y : State Mode Frame) : Prop :=
  ∃ z found more, Passes react x ss found z ∧
    z.meet react next = (y.meet react next).behind more ∧ reports = found ++ more

end

section

variable {Mode Frame Result : Type}
  {react : Mode → List Frame → Bool → Token → Turn Mode Frame Result}
  {x y z : State Mode Frame} {s : Scan} {ss ss' : List Scan} {next : Token}
  {r r' : List Diagnostic}

namespace Passes

theorem single {mode : Mode} {stack : List Frame}
    (h : x.meet react s.token = .consume mode stack) :
    Passes react x [s] s.reports ⟨mode, stack, false⟩ := by
  simpa using cons (s := s) h nil

theorem append (h : Passes react x ss r y) (h' : Passes react y ss' r' z) :
    Passes react x (ss ++ ss') (r ++ r') z := by
  induction h with
  | nil => exact h'
  | cons h _ ih => simpa using cons h (ih h')

theorem append_inv (h : Passes react x (ss ++ ss') r z) :
    ∃ y r₁ r₂, Passes react x ss r₁ y ∧ Passes react y ss' r₂ z ∧ r = r₁ ++ r₂ := by
  induction ss generalizing x r with
  | nil => exact ⟨x, [], r, .nil, h, rfl⟩
  | cons s ss ih =>
    cases h with
    | cons hm hs =>
      obtain ⟨y, r₁, r₂, h₁, h₂, rfl⟩ := ih hs
      exact ⟨y, _, r₂, .cons hm h₁, h₂, by simp⟩

theorem reports_subset (h : Passes react x ss r y) : ∀ s ∈ ss, ∀ d ∈ s.reports, d ∈ r := by
  induction h with
  | nil => simp
  | @cons x y s ss reports more mode stack hm hs ih =>
    refine List.forall_mem_cons.2 ⟨fun d hd => by simp [hd], fun s' hs' d hd => ?_⟩
    simp [ih s' hs' d hd]

/-- A state that meets the first token in the same way passes the same scans. -/
theorem of_meet (h : Passes react y (s :: ss) r z)
    (hm : x.meet react s.token = (y.meet react s.token).behind r') (hs : s.reports = []) :
    Passes react x (s :: ss) (r' ++ r) z := by
  cases h with
  | cons h hss =>
    rw [h] at hm
    simpa [hs] using cons (s := s) hm hss

theorem of_meet_eq (h : Passes react y (s :: ss) r z)
    (hm : x.meet react s.token = y.meet react s.token) : Passes react x (s :: ss) r z := by
  cases h with
  | cons h hss =>
    rw [h] at hm
    exact cons hm hss

theorem leads (h : Passes react x ss r y) (next : Token) : Leads react x ss next r y :=
  ⟨y, r, [], h, rfl, by simp⟩

theorem unique (h : Passes react x ss r y) (h' : Passes react x ss r' z) : y = z := by
  induction h generalizing r' with
  | nil =>
    cases h'
    rfl
  | cons h _ ih =>
    cases h' with
    | cons h' hs' =>
      rw [h] at h'
      cases h'
      exact ih hs'

theorem of_consume {mode : Mode} {stack : List Frame}
    (h : (x.meet react s.token).move = .consume mode stack)
    (hs : Passes react ⟨mode, stack, false⟩ ss r y) : ∃ r', Passes react x (s :: ss) r' y := by
  have hm : x.meet react s.token = ⟨(x.meet react s.token).reports, .consume mode stack⟩ := by
    rw [← h]
  exact ⟨_, .cons hm hs⟩

theorem of_agree (h : Passes react y (s :: ss) r z) (hxy : x.Agree react y s.token) :
    ∃ r', Passes react x (s :: ss) r' z := by
  cases h with
  | cons h hs => exact of_consume (hxy.trans (congrArg Turn.move h)) hs

/-- An automaton that decides alike on each token of a run makes the same run. -/
theorem congr {react' : Mode → List Frame → Bool → Token → Turn Mode Frame Result}
    (h : Passes react x ss r y)
    (hmeet : ∀ pre s post r' z, ss = pre ++ s :: post → Passes react x pre r' z → r' <+: r →
      z.meet react s.token = z.meet react' s.token) : Passes react' x ss r y := by
  induction h with
  | nil => exact .nil
  | @cons x y s ss reports more mode stack hm hs ih =>
    have hfirst := hmeet [] s ss [] x rfl .nil List.nil_prefix
    refine .cons (hfirst.symm.trans hm) (ih fun pre s' post r' z heq hp hr => ?_)
    refine hmeet (s :: pre) s' post (s.reports ++ (reports ++ r')) z ?_ (.cons hm hp) ?_
    · rw [heq, List.cons_append]
    · simpa using hr

end Passes

namespace Leads

theorem of_meet (h : x.meet react next = (y.meet react next).behind r) :
    Leads react x [] next r y :=
  ⟨x, [], r, .nil, h, rfl⟩

theorem passes_append (h : Passes react x ss r y) (h' : Leads react y ss' next r' z) :
    Leads react x (ss ++ ss') next (r ++ r') z := by
  obtain ⟨w, found, more, hp, hm, rfl⟩ := h'
  exact ⟨w, r ++ found, more, h.append hp, hm, by simp⟩

theorem append_passes (h : Leads react x ss s.token r y) (hs : s.reports = [])
    (h' : Passes react y (s :: ss') r' z) : Passes react x (ss ++ s :: ss') (r ++ r') z := by
  obtain ⟨w, found, more, hp, hm, rfl⟩ := h
  have hw := h'.of_meet hm hs
  simpa using hp.append hw

theorem of_meet_eq (h : Leads react y (s :: ss) next r z)
    (hm : x.meet react s.token = y.meet react s.token) : Leads react x (s :: ss) next r z := by
  obtain ⟨w, found, more, hp, hw, hr⟩ := h
  exact ⟨w, found, more, hp.of_meet_eq hm, hw, hr⟩

/-- A state that meets the first token, or the one that follows, in the same way leads to the same
state. -/
theorem of_first (h : Leads react y ss next r z)
    (hm : ∀ t ∈ (ss.map Scan.token ++ [next]).head?, x.meet react t = y.meet react t) :
    Leads react x ss next r z := by
  cases ss with
  | cons s ss => exact h.of_meet_eq (hm _ rfl)
  | nil =>
    obtain ⟨w, found, more, hp, hw, rfl⟩ := h
    cases hp
    exact of_meet ((hm next rfl).trans hw)

theorem meet_trans (h : Leads react x ss next r y)
    (hm : y.meet react next = z.meet react next) : Leads react x ss next r z := by
  obtain ⟨w, found, more, hp, hw, hr⟩ := h
  exact ⟨w, found, more, hp, by rw [hw, hm], hr⟩

theorem trans (h : Leads react x ss s.token r y) (hs : s.reports = [])
    (h' : Leads react y (s :: ss') next r' z) :
    Leads react x (ss ++ s :: ss') next (r ++ r') z := by
  obtain ⟨w, found, more, hp, hm, rfl⟩ := h'
  exact ⟨w, r ++ found, more, h.append_passes hs hp, hm, by simp⟩

end Leads

theorem exists_passes (react : Mode → List Frame → Bool → Token → Turn Mode Frame Result)
    (x : State Mode Frame) (scans : List Scan) :
    (∃ r y, Passes react x scans r y) ∨
      ∃ ss s rest r y, scans = ss ++ s :: rest ∧ Passes react x ss r y ∧
        (y.meet react s.token).Finishes := by
  induction scans generalizing x with
  | nil => exact .inl ⟨[], x, .nil⟩
  | cons s scans ih =>
    rcases hm : x.meet react s.token with ⟨reports, move⟩
    cases move with
    | finish result complained =>
      exact .inr ⟨[], s, scans, [], x, rfl, .nil, result, complained, by rw [hm]⟩
    | consume mode stack =>
      rcases ih ⟨mode, stack, false⟩ with ⟨r, y, hp⟩ | ⟨ss, s', rest, r, y, rfl, hp, hf⟩
      · exact .inl ⟨_, y, .cons hm hp⟩
      · exact .inr ⟨s :: ss, s', rest, _, y, rfl, .cons hm hp, hf⟩

/-- What holds at the beginning and is kept by each token without a report holds behind a run
without a report. -/
theorem invariant_of_passes {P : Mode → List Frame → List Scan → Prop} {legal : Scan → Prop}
    (hstep : ∀ mode st ss s mode' st', P mode st ss → legal s →
      react mode st false s.token = ⟨[], .consume mode' st'⟩ → P mode' st' (ss ++ [s]))
    (h : Passes react x ss r y) (hr : r = []) (hx : x.complained = false)
    (hs : ∀ s ∈ ss, legal s) (before : List Scan) (hP : P x.mode x.stack before) :
    P y.mode y.stack (before ++ ss) ∧ y.complained = false := by
  induction h generalizing before with
  | nil => exact ⟨by simpa using hP, hx⟩
  | @cons x y s ss reports more mode stack hm hss ih =>
    obtain ⟨-, hr⟩ := List.append_eq_nil_iff.1 hr
    obtain ⟨rfl, hmore⟩ := List.append_eq_nil_iff.1 hr
    rw [State.meet, hx] at hm
    have hnext := hstep _ _ _ _ _ _ hP (hs s (by simp)) hm
    simpa using ih hmore rfl (fun s hs' => hs s (by simp [hs'])) _ hnext

theorem not_passes_of_finishes (h : ∀ x, (State.meet react x s.token).Finishes) :
    ¬ Passes react x (ss ++ [s]) r y := by
  intro hp
  obtain ⟨z, r₁, r₂, -, hp, -⟩ := hp.append_inv
  cases hp with
  | cons hm _ =>
    obtain ⟨result, complained, hf⟩ := h z
    rw [hm] at hf
    cases hf

variable [Inhabited Result]

theorem run_of_passes (h : Passes react x ss r y) (rest : List Scan) :
    run react x.mode x.stack x.complained [] (ss ++ rest) =
      (run react y.mode y.stack y.complained [] rest).behind r := by
  induction h with
  | nil => rfl
  | @cons x y s ss reports more mode stack h hs ih =>
    have hm : (react x.mode x.stack x.complained s.token).move = .consume mode stack :=
      congrArg Turn.move h
    have hr : (react x.mode x.stack x.complained s.token).reports = reports :=
      congrArg Turn.reports h
    rw [List.cons_append, run_consume hm, ih, hr]
    simp [Outcome.behind]

/-- If a run makes no report, neither does its beginning; and where the text ends there, only the
decision on the end is left. -/
theorem run_of_beginning (h : Passes react x (ss ++ ss') [] z) (hs : s.reports = [])
    (hstay : ∀ x, (State.meet react x s.token).Finishes) :
    ∃ y result complained, Passes react x ss [] y ∧
      (y.meet react s.token).move = .finish result complained ∧
      run react x.mode x.stack x.complained [] (ss ++ [s]) =
        ⟨result, (y.meet react s.token).reports, complained, [s]⟩ := by
  obtain ⟨y, r₁, r₂, hp, -, hr⟩ := h.append_inv
  obtain ⟨rfl, -⟩ := List.append_eq_nil_iff.1 hr.symm
  obtain ⟨result, complained, hm⟩ := hstay y
  have hm' : (react y.mode y.stack y.complained s.token).move = .finish result complained := hm
  refine ⟨y, result, complained, hp, hm, ?_⟩
  obtain ⟨reports, t⟩ := s
  subst hs
  rw [run_of_passes hp, run_finish hm']
  rfl

theorem run_of_leads {result : Result} {complained : Bool} (h : Leads react x ss s.token r y)
    (hs : s.reports = []) (hy : y.meet react s.token = .finish result complained)
    (rest : List Scan) :
    run react x.mode x.stack x.complained [] (ss ++ s :: rest) =
      ⟨result, r, complained, s :: rest⟩ := by
  obtain ⟨z, found, more, hp, hm, rfl⟩ := h
  rw [hy] at hm
  have hz : (react z.mode z.stack z.complained s.token).move = .finish result complained :=
    congrArg Turn.move hm
  have hr : (react z.mode z.stack z.complained s.token).reports = more := by
    have := congrArg Turn.reports hm
    simpa [Turn.finish, State.meet] using this
  obtain ⟨reports, t⟩ := s
  subst hs
  rw [run_of_passes hp, run_finish hz, hr]
  rfl

/-- A run up to a token that always stays takes some of the scans, and then one of them stays. -/
theorem exists_finish (h : ∀ x, (State.meet react x s.token).Finishes) (x : State Mode Frame)
    (ss : List Scan) :
    ∃ us z rest r y result complained, ss ++ [s] = us ++ z :: rest ∧ Passes react x us r y ∧
      (y.meet react z.token).move = .finish result complained ∧
      run react x.mode x.stack x.complained [] (ss ++ [s]) =
        ⟨result, r ++ (z.reports ++ (y.meet react z.token).reports), complained,
          { z with reports := [] } :: rest⟩ := by
  rcases exists_passes react x (ss ++ [s]) with
    ⟨r, y, hp⟩ | ⟨us, z, rest, r, y, heq, hp, result, complained, hf⟩
  · exact absurd hp (not_passes_of_finishes h)
  · refine ⟨us, z, rest, r, y, result, complained, heq, hp, hf, ?_⟩
    rw [heq, run_of_passes hp, run_finish hf]
    rfl

/-- What every decision keeps holds of the result, and of all reports, of a run up to a token that
always stays. The first token left is one of those given, or that token. -/
theorem run_invariant {I : Mode → List Frame → List Scan → Prop} {D : Diagnostic → Prop}
    {R : Result → Prop} (hstay : ∀ x, (State.meet react x s.token).Finishes)
    (hstep : ∀ mode stack complained t ts, I mode stack (t :: ts) →
      (∀ d ∈ t.reports, D d) ∧ (∀ d ∈ (react mode stack complained t.token).reports, D d) ∧
        (react mode stack complained t.token).Leaves (fun mode stack => I mode stack ts) R)
    {mode : Mode} {stack : List Frame} (complained : Bool) (ss : List Scan)
    (h : I mode stack (ss ++ [s])) :
    R (run react mode stack complained [] (ss ++ [s])).result ∧
      (∀ d ∈ (run react mode stack complained [] (ss ++ [s])).reports, D d) ∧
      ∃ t ∈ ss ++ [s], ∃ rest, (run react mode stack complained [] (ss ++ [s])).unread =
        { t with reports := [] } :: rest := by
  induction ss generalizing mode stack complained with
  | nil =>
    obtain ⟨hscan, hturn, hleaves⟩ := hstep mode stack complained s [] h
    obtain ⟨result, c, hm⟩ := hstay ⟨mode, stack, complained⟩
    have hm : (react mode stack complained s.token).move = .finish result c := hm
    rw [Turn.Leaves, hm] at hleaves
    rw [List.nil_append, run_finish hm]
    exact ⟨hleaves, by simpa [or_imp, forall_and] using ⟨hscan, hturn⟩, s, by simp, [], rfl⟩
  | cons t ts ih =>
    rw [List.cons_append] at h ⊢
    obtain ⟨hscan, hturn, hleaves⟩ := hstep mode stack complained t (ts ++ [s]) h
    cases hm : (react mode stack complained t.token).move with
    | consume mode' stack' =>
      rw [Turn.Leaves, hm] at hleaves
      obtain ⟨hresult, hreports, u, hu, rest, hunread⟩ := ih false hleaves
      rw [run_consume hm]
      refine ⟨hresult, ?_, u, List.mem_cons_of_mem _ hu, rest, hunread⟩
      simpa [or_imp, forall_and] using ⟨hscan, hturn, hreports⟩
    | finish result c =>
      rw [Turn.Leaves, hm] at hleaves
      rw [run_finish hm]
      exact ⟨hleaves, by simpa [or_imp, forall_and] using ⟨hscan, hturn⟩, t, by simp, _, rfl⟩

/-- Two automata that decide alike unless the first one makes a report of some kind run alike unless
it makes one. -/
theorem run_congr (react' : Mode → List Frame → Bool → Token → Turn Mode Frame Result)
    {D : Diagnostic → Prop}
    (h : ∀ mode stack complained t, (∀ d ∈ (react mode stack complained t).reports, D d) →
      react mode stack complained t = react' mode stack complained t)
    {mode : Mode} {stack : List Frame} {complained : Bool} {scans : List Scan}
    (hD : ∀ d ∈ (run react mode stack complained [] scans).reports, D d) :
    run react mode stack complained [] scans = run react' mode stack complained [] scans := by
  induction scans generalizing mode stack complained with
  | nil => rfl
  | cons s scans ih =>
    cases hm : (react mode stack complained s.token).move with
    | consume mode' stack' =>
      rw [run_consume hm] at hD ⊢
      have hturn : ∀ d ∈ (react mode stack complained s.token).reports, D d :=
        fun d hd => hD d (by simp [hd])
      have hrest : ∀ d ∈ (run react mode' stack' false [] scans).reports, D d :=
        fun d hd => hD d (by simp [hd])
      have heq := h mode stack complained s.token hturn
      rw [heq] at hm
      rw [run_consume hm, heq, ih hrest]
    | finish result c =>
      rw [run_finish hm] at hD ⊢
      have heq := h mode stack complained s.token fun d hd => hD d (by simp [hd])
      rw [heq] at hm
      rw [run_finish hm, heq]

end

end Automaton

end Resilient
