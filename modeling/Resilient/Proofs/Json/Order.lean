import Resilient.Proofs.Json.Depth

/-!
# The order of the reports

What the automaton reports, it reports in the order of the text. The reports on the characters of a
token are made when the token is fetched: before the decision on it, which may still be about the
token before, and those on escape sequences behind those on all other characters of a string.
`Overtakes` collects these cases, and `reports_inOrder` says that nothing else is out of order.
-/

namespace Resilient

namespace Json

/-- The report covers the last one of the tokens taken. -/
def OnLast (taken : List Scan) (d : Diagnostic) : Prop :=
  ∃ a ∈ taken.getLast?, d.span = a.token.span

/-- A report on the way to a token may be made before another one on the way to it, before one on
that token and before one on the token in front of it. -/
def Overtakes (scans : List Scan) (d d' : Diagnostic) : Prop :=
  ∃ taken s rest, scans = taken ++ s :: rest ∧ d ∈ s.reports ∧
    (d' ∈ s.reports ∨ d'.span = s.token.span ∨ OnLast taken d')

/-- The order in which two reports are made. -/
def InTurn (scans : List Scan) (d d' : Diagnostic) : Prop :=
  d.position.offset ≤ d'.position.offset ∨ Overtakes scans d d'

/-- Reports that are made in turn, behind the scans taken or on the last one of them. -/
structure Sequenced (scans taken : List Scan) (rs : List Diagnostic) : Prop where
  inTurn : rs.Pairwise (InTurn scans)
  behind : ∀ d ∈ rs, OnLast taken d ∨ ∀ a ∈ taken, a.token.span.stop.offset ≤ d.position.offset

variable {limits : Limits} {mode : Mode} {t : Token} {c : Bool} {turn : Turn}
  {d d' : Diagnostic} {s : Scan} {taken ss scans : List Scan}
  {early late more : List Diagnostic} {source : String} {dialect : Dialect}

/-! ### One token -/

theorem Local.span (h : Local t c turn) : ∀ d ∈ turn.reports, d.span = t.span := by
  intro d hd
  obtain ⟨wanted, rfl⟩ := h.reports d hd
  rfl

/-- A decision reports first on what the mode remembers and then on the token. -/
theorem exists_reports_react (limits : Limits) (mode : Mode) (st : List Frame) (c : Bool)
    (t : Token) :
    ∃ early late, (react limits mode st c t).reports = early ++ late ∧
      (∀ d ∈ early, mode.span? = some d.span) ∧ ∀ d ∈ late, d.span = t.span := by
  obtain ⟨early, turn, hearly, hlocal, heq⟩ := exists_local_react limits mode st c t
  refine ⟨early, turn.reports, by rw [heq]; rfl, ?_, hlocal.span⟩
  cases hearly with
  | nothing => simp
  | trailingComma g b | maxDepthExceeded g b _ => exact List.forall_mem_singleton.2 rfl

/-- What a mode remembers is the range of the last token taken. -/
theorem Behind.onLast (h : Behind taken mode) (hd : mode.span? = some d.span) :
    OnLast taken d := by
  unfold Behind at h
  split at h
  · rename_i a ha
    exact ⟨a, ha, h.span hd⟩
  · rw [h] at hd
    cases hd

/-! ### From one token to the next -/

/-- A token and the reports on the way to it stand behind the tokens before. -/
theorem behind_of_ofText (h : Scan.ofText dialect source = taken ++ s :: ss) :
    ∀ a ∈ taken, a.token.span.stop.offset ≤ s.token.span.start.offset ∧
      ∀ d ∈ s.reports, a.token.span.stop.offset ≤ d.position.offset := by
  have htokens := Scan.inOrder_ofText dialect source
  have hreports := Scan.reports_after_ofText dialect source
  rw [Scan.InOrder, h, List.pairwise_append] at htokens
  rw [h, List.pairwise_append] at hreports
  exact fun a ha => ⟨htokens.2.2 a ha s (by simp), hreports.2.2 a ha s (by simp)⟩

/-- The reports on the way to a token, on the token before and on the token itself, and then those
behind it. -/
theorem sequenced_cons (h : Scan.ofText dialect source = taken ++ s :: ss)
    (hearly : ∀ d ∈ early, OnLast taken d) (hlate : ∀ d ∈ late, d.span = s.token.span)
    (hmore : Sequenced (Scan.ofText dialect source) (taken ++ [s]) more) :
    Sequenced (Scan.ofText dialect source) taken (s.reports ++ (early ++ (late ++ more))) := by
  have hs : s ∈ Scan.ofText dialect source := by simp [h]
  have hspan := (Scan.isIn_of_mem hs).1.ordered
  have hbehind := behind_of_ofText h
  have hover : ∀ d ∈ s.reports, ∀ d', d' ∈ s.reports ∨ d'.span = s.token.span ∨ OnLast taken d' →
      InTurn (Scan.ofText dialect source) d d' :=
    fun d hd d' hd' => .inr ⟨taken, s, ss, h, hd, hd'⟩
  have hlater : ∀ d ∈ late ++ more, d.span = s.token.span ∨
      s.token.span.stop.offset ≤ d.position.offset := by
    intro d hd
    rcases List.mem_append.1 hd with hd | hd
    · exact .inl (hlate d hd)
    · rcases hmore.behind d hd with ⟨a, ha, hspan⟩ | hle
      · obtain rfl : s = a := by simpa using ha
        exact .inl hspan
      · exact .inr (hle s (by simp))
  have hfrom : ∀ d ∈ late ++ more, s.token.span.start.offset ≤ d.position.offset := by
    intro d hd
    rcases hlater d hd with hd | hd
    · exact Nat.le_of_eq (congrArg (·.start.offset) hd.symm)
    · exact Nat.le_trans hspan hd
  have hlast : ∀ d, OnLast taken d → d.position.offset ≤ s.token.span.start.offset := by
    rintro d ⟨a, ha, hd⟩
    have hmem : a ∈ taken := List.mem_of_getLast? ha
    have hin : a ∈ Scan.ofText dialect source := by simp [h, hmem]
    have horder := (Scan.isIn_of_mem hin).1.ordered
    have hle := (hbehind a hmem).1
    rw [Diagnostic.position, hd]
    omega
  constructor
  · refine List.pairwise_append.2 ⟨List.pairwise_iff_forall_sublist.2 ?_, ?_, ?_⟩
    · intro d d' hsub
      exact hover d (hsub.subset (by simp)) d' (.inl (hsub.subset (by simp)))
    · refine List.pairwise_append.2 ⟨List.pairwise_iff_forall_sublist.2 ?_, ?_, ?_⟩
      · intro d d' hsub
        obtain ⟨a, ha, hd⟩ := hearly d (hsub.subset (by simp))
        obtain ⟨a', ha', hd'⟩ := hearly d' (hsub.subset (by simp))
        obtain rfl : a = a' := Option.some.inj (ha.symm.trans ha')
        exact .inl (Nat.le_of_eq (congrArg (·.start.offset) (hd.trans hd'.symm)))
      · refine List.pairwise_append.2 ⟨List.pairwise_iff_forall_sublist.2 ?_, hmore.inTurn, ?_⟩
        · intro d d' hsub
          have hd := hlate d (hsub.subset (by simp))
          have hd' := hlate d' (hsub.subset (by simp))
          exact .inl (Nat.le_of_eq (congrArg (·.start.offset) (hd.trans hd'.symm)))
        · intro d hd d' hd'
          have hle := hfrom d' (by simp [hd'])
          refine .inl ?_
          rwa [Diagnostic.position, hlate d hd]
      · exact fun d hd d' hd' => .inl (Nat.le_trans (hlast d (hearly d hd)) (hfrom d' hd'))
    · intro d hd d' hd'
      rcases List.mem_append.1 hd' with hd' | hd'
      · exact hover d hd d' (.inr (.inr (hearly d' hd')))
      · rcases hlater d' hd' with hspan | hle
        · exact hover d hd d' (.inr (.inl hspan))
        · have hstop := Scan.stop_report_le_of_mem hs d hd
          have hd := ((Scan.isIn_of_mem hs).2 d hd).ordered
          refine .inl ?_
          rw [Diagnostic.position]
          omega
  · intro d hd
    rcases List.mem_append.1 hd with hd | hd
    · exact .inr fun a ha => (hbehind a ha).2 d hd
    · rcases List.mem_append.1 hd with hd | hd
      · exact .inl (hearly d hd)
      · exact .inr fun a ha => Nat.le_trans (hbehind a ha).1 (hfrom d hd)

/-! ### Whole texts -/

theorem sequenced_run (options : Options) (h : Scan.ofText dialect source = taken ++ ss)
    (hmode : Behind taken mode) (st : List Frame) (c : Bool) :
    Sequenced (Scan.ofText dialect source) taken
      (allReports options (Automaton.run (react limits) mode st c [] ss)) := by
  induction ss generalizing taken mode st c with
  | nil => exact ⟨.nil, by simp [allReports, Automaton.run, Reader.trailing, Reader.current]⟩
  | cons s ss ih =>
    obtain ⟨early, late, hreports, hearly, hlate⟩ :=
      exists_reports_react limits mode st c s.token
    have hearly : ∀ d ∈ early, OnLast taken d := fun d hd => hmode.onLast (hearly d hd)
    cases hm : (react limits mode st c s.token).move with
    | consume mode' st' =>
      have hscans : Scan.ofText dialect source = (taken ++ [s]) ++ ss := by simpa using h
      have hrest := ih hscans (behind_react hm taken) st' false
      have hall := sequenced_cons h hearly hlate hrest
      rw [Automaton.run_consume hm, hreports]
      simpa [allReports] using hall
    | finish v c' =>
      have hlast := trailing_cons options { s with reports := [] } ss
      have hstay : ∀ d ∈ late ++ Reader.trailing ⟨options, none, { s with reports := [] } :: ss,
          false⟩, d.span = s.token.span := by
        refine List.forall_mem_append.2 ⟨hlate, fun d hd => ?_⟩
        rw [hlast d hd]
        rfl
      have hnone : Sequenced (Scan.ofText dialect source) (taken ++ [s]) [] := ⟨.nil, by simp⟩
      have hall := sequenced_cons h hearly hstay hnone
      rw [Automaton.run_finish hm, hreports]
      simpa [allReports] using hall

/-- Of two reports on a text the earlier one is made first, unless the other one overtakes it.
Where all characters are in order none does, and the error of the strict reading is the earliest
report. -/
theorem reports_inOrder (source : String) (options : Options) :
    (parse source options).2.Pairwise (InTurn (Scan.ofText options.dialect source)) ∧
      ((tokenize source options.dialect).2 = [] →
        ((parse source options).2.Pairwise fun d d' => d.position.offset ≤ d'.position.offset) ∧
          ∀ d, parseStrict source options = .error d →
            ∀ d' ∈ (parse source options).2, d.position.offset ≤ d'.position.offset) := by
  have hturn : (parse source options).2.Pairwise
      (InTurn (Scan.ofText options.dialect source)) := by
    cases hsize : options.limits.exceededSize source with
    | some max =>
      rw [parse_of_exceededSize hsize]
      exact List.pairwise_singleton _ _
    | none =>
      rw [parse_of_fits hsize]
      have hstart : Behind [] .value := rfl
      exact (sequenced_run options (List.nil_append _).symm hstart [] false).inTurn
  refine ⟨hturn, fun hclean => ?_⟩
  have hsorted : (parse source options).2.Pairwise
      fun d d' => d.position.offset ≤ d'.position.offset := by
    refine hturn.imp fun h => h.resolve_right ?_
    rintro ⟨taken, s, rest, hs, hd, -⟩
    have hnone := List.flatMap_eq_nil_iff.1 hclean s (by simp [hs])
    rw [hnone] at hd
    cases hd
  refine ⟨hsorted, fun d hd => ?_⟩
  unfold parseStrict at hd
  split at hd
  · cases hd
  · rename_i v e more hparse
    cases hd
    rw [hparse] at hsorted ⊢
    exact List.forall_mem_cons.2 ⟨Nat.le_refl _, (List.pairwise_cons.1 hsorted).1⟩

theorem reports_inOrder_commas :
    (tokenize "[,1,]" Options.unlimited.dialect).2 = [] ∧
      (parse "[,1,]" .unlimited).2.length = 2 ∧
      (parse "[,1,]" .unlimited).2.Pairwise
        fun d d' => d.position.offset ≤ d'.position.offset := by
  have hclean : (tokenize "[,1,]" Options.unlimited.dialect).2 = [] := by decide +kernel
  exact ⟨hclean, by decide +kernel, ((reports_inOrder "[,1,]" .unlimited).2 hclean).1⟩

/-- A character that fits nowhere is reported before the comma in front of it. -/
theorem comma_reported_late :
    ¬ (parse "[1,#]" .unlimited).2.Pairwise
      fun d d' => d.position.offset ≤ d'.position.offset := by
  decide +kernel

end Json

end Resilient
