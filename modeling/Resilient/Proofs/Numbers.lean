import Resilient.Proofs.Expression.Accounts
import Resilient.Proofs.Fetching
import Resilient.Proofs.Json.Accounts
import Resilient.Proofs.Lexeme.Longest
import Resilient.Proofs.Lexeme.Solid

/-!
# Number tokens

Where a digit stands, or a minus sign in front of a digit, the longest spelling of a number is
fetched as a token. What is read as a number is always the spelling of one, so it is understood, and
no number is ever reported to be invalid (`numbers_longest_and_valid`).
-/

namespace Resilient

variable {d : Dialect} {source : String} {p : Position} {text rest : List Char} {l : Lexeme}

/-! ### What is read as a number -/

theorem Numeral.begins_of_begins {signed : Bool} (h : begins signed text = true) :
    begins true text = true := by
  cases text with
  | nil => cases h
  | cons c text =>
    simp only [begins, Bool.or_eq_true, Bool.and_eq_true, decide_eq_true_eq] at h ⊢
    exact h.imp_right fun hsigned => ⟨⟨trivial, hsigned.1.2⟩, hsigned.2⟩

namespace Lexeme

theorem eq_of_readTrivia (h : readTrivia d text = some (l, rest)) :
    (∃ run, l = .gap run) ∨ l = .newline := by
  have hgap : ∀ found, ofGap found = some (l, rest) → ∃ run, l = .gap run := by
    rintro ⟨run, tail⟩ h
    cases run with
    | nil => cases h
    | cons t ts =>
      cases h
      exact ⟨_, rfl⟩
  unfold readTrivia at h
  split at h
  · split at h
    · cases h
      exact .inr rfl
    · exact .inl (hgap _ h)
  · exact .inl (hgap _ h)

theorem begins_of_read_number {n : Numeral} (h : read d text = some (.number n, rest)) :
    Numeral.begins d.signedNumbers text = true ∧ (Numeral.read text).1 = n := by
  unfold read at h
  split at h
  · rename_i found hread
    cases h
    rcases eq_of_readTrivia hread with ⟨run, hl⟩ | hl <;> cases hl
  · rcases readSolid_cases h with ⟨n', hn, hb, hread⟩ | ⟨_, _, hl, -⟩ | ⟨_, _, hl, -⟩ |
      ⟨_, hl, -⟩ | ⟨_, hl, -⟩
    · cases hn
      exact ⟨hb, by rw [hread]⟩
    all_goals cases hl

theorem fault_ne_of_read (h : read d text = some (l, rest)) :
    ∀ r ∈ l.reports d p, r.fault ≠ .invalidNumber := by
  intro r hr
  cases l with
  | gap run => simp [fault_of_mem_gapReports r hr]
  | literal l => rcases Literal.fault_of_mem_reports r hr with hf | hf | hf | hf <;> simp [hf]
  | word w =>
    simp only [reports] at hr
    split at hr
    · cases hr
    · rw [List.mem_singleton.1 hr]
      intro hf
      cases hf
  | stray c =>
    rw [List.mem_singleton.1 hr]
    intro hf
    cases hf
  | newline | operator op => cases hr
  | number n =>
    obtain ⟨hbegins, hn⟩ := begins_of_read_number h
    have hspelled := Numeral.numberText_of_begins (Numeral.begins_of_begins hbegins)
    rw [hn] at hspelled
    rw [reports, Numeral.reports_of_numberText hspelled] at hr
    cases hr

end Lexeme

/-! ### Reports on a text -/

namespace Scan

/-- Each report met on the way to a token is on a lexeme of the text. -/
theorem exists_read_of_mem_fetch {found : List Diagnostic} {c : Cursor} :
    ∀ r ∈ (fetch d found c).1.reports, r ∈ found ∨
      ∃ text rest l p, Lexeme.read d text = some (l, rest) ∧ r ∈ l.reports d p := by
  intro r hr
  fun_induction fetch d found c with
  | case1 found c => exact .inl (List.mem_reverse.1 hr)
  | case2 found c l rest hread behind found' t ht =>
    rcases List.mem_append.1 (List.mem_reverse.1 hr) with hr | hr
    · exact .inr ⟨_, _, _, _, hread, List.mem_reverse.1 hr⟩
    · exact .inl hr
  | case3 found c l rest hread behind found' ht ih =>
    rcases ih hr with hr | hr
    · rcases List.mem_append.1 hr with hr | hr
      · exact .inr ⟨_, _, _, _, hread, List.mem_reverse.1 hr⟩
      · exact .inl hr
    · exact .inr hr

theorem exists_read_of_mem {s : Scan} (hs : s ∈ scansFrom d source p text) :
    ∀ r ∈ s.reports, ∃ text rest l p, Lexeme.read d text = some (l, rest) ∧ r ∈ l.reports d p := by
  obtain ⟨n, hn⟩ : ∃ n, text.length = n := ⟨_, rfl⟩
  induction n using Nat.strongRecOn generalizing p text with
  | ind n ih =>
    subst hn
    have hfirst : ∀ r ∈ (next d ⟨source, p, text⟩).1.reports, ∃ text rest l p,
        Lexeme.read d text = some (l, rest) ∧ r ∈ l.reports d p :=
      fun r hr => (exists_read_of_mem_fetch r hr).resolve_left (by simp)
    rw [scansFrom_eq] at hs
    split at hs
    · rwa [List.mem_singleton.1 hs]
    · rename_i hp
      rcases List.mem_cons.1 hs with rfl | hs
      · exact hfirst
      · exact ih _ (length_rest_lt fun he => hp (.inr he)) hs rfl

end Scan

namespace Automaton

variable {Mode Frame Result : Type} [Inhabited Result]
  {react : Mode → List Frame → Bool → Token → Turn Mode Frame Result} {D : Diagnostic → Prop}

/-- What holds of the reports met and of those on tokens holds of all reports of a run, and of those
that are left. -/
theorem forall_reports_run
    (hreact : ∀ mode stack c t, ∀ r ∈ (react mode stack c t).reports, D r) {scans : List Scan}
    (h : ∀ s ∈ scans, ∀ r ∈ s.reports, D r) (mode : Mode) (stack : List Frame) (c : Bool) :
    (∀ r ∈ (run react mode stack c [] scans).reports, D r) ∧
      ∀ s ∈ (run react mode stack c [] scans).unread, ∀ r ∈ s.reports, D r := by
  induction scans generalizing mode stack c with
  | nil => simp [run]
  | cons s scans ih =>
    obtain ⟨hs, hscans⟩ := List.forall_mem_cons.1 h
    have hmet := List.forall_mem_append.2 ⟨hs, hreact mode stack c s.token⟩
    cases hm : (react mode stack c s.token).move with
    | consume mode' stack' =>
      obtain ⟨hlater, hleft⟩ := ih hscans mode' stack' false
      rw [run_consume hm]
      exact ⟨List.forall_mem_append.2 ⟨hmet, hlater⟩, hleft⟩
    | finish result c' =>
      rw [run_finish hm]
      exact ⟨hmet, List.forall_mem_cons.2 ⟨by simp, hscans⟩⟩

end Automaton

theorem category_maxSizeExceeded (max : Nat) (p : Position) :
    (Diagnostic.atPoint (.maxSizeExceeded max) p).category ≠ .lexical := by
  intro h
  cases h

section

variable {D : Diagnostic → Prop} (hD : ∀ r : Diagnostic, r.category ≠ .lexical → D r)

include hD

theorem Json.forall_reports_documents {r : Json.Reader}
    (h : ∀ s ∈ r.unread, ∀ d ∈ s.reports, D d) (n : Nat) : ∀ d ∈ (r.documents n).2.1, D d := by
  induction n generalizing r with
  | zero => simp [Json.Reader.documents]
  | succ n ih =>
    suffices hfirst : (∀ d ∈ r.document.2.1, D d) ∧
        ∀ s ∈ r.document.2.2.unread, ∀ d ∈ s.reports, D d from
      List.forall_mem_append.2 ⟨hfirst.1, ih hfirst.2⟩
    cases hover : r.oversized with
    | some max =>
      have hdocument : r.document = (.null, [.atPoint (.maxSizeExceeded max) .start], r) := by
        rw [Json.Reader.document, hover]
      rw [hdocument]
      exact ⟨List.forall_mem_singleton.2 (hD _ (category_maxSizeExceeded max _)), h⟩
    | none =>
      have hreact : ∀ mode stack c t, ∀ d ∈ (Json.react r.options.limits mode stack c t).reports,
          D d := fun mode stack c t d hd => hD d (Json.onTokens_react _ mode stack c t d hd)
      obtain ⟨hmade, hleft⟩ :=
        Automaton.forall_reports_run hreact h Json.Mode.value [] r.complained
      rw [Json.Reader.document_of_fits hover]
      refine ⟨List.forall_mem_append.2 ⟨hmade, fun d hd => ?_⟩, hleft⟩
      exact hD d (Json.category_of_mem_trailing d hd)

theorem Expression.forall_reports_expressions {r : Expression.Reader}
    (h : ∀ s ∈ r.unread, ∀ d ∈ s.reports, D d) (n : Nat) : ∀ d ∈ (r.expressions n).2.1, D d := by
  induction n generalizing r with
  | zero => simp [Expression.Reader.expressions]
  | succ n ih =>
    suffices hfirst : (∀ d ∈ r.expression.2.1, D d) ∧
        ∀ s ∈ r.expression.2.2.unread, ∀ d ∈ s.reports, D d from
      List.forall_mem_append.2 ⟨hfirst.1, ih hfirst.2⟩
    cases hover : r.oversized with
    | some max =>
      have hexpression : r.expression =
          (.placeholder (.point .start), [.atPoint (.maxSizeExceeded max) .start], r) := by
        rw [Expression.Reader.expression, hover]
      rw [hexpression]
      exact ⟨List.forall_mem_singleton.2 (hD _ (category_maxSizeExceeded max _)), h⟩
    | none =>
      have hreact : ∀ mode stack c t,
          ∀ d ∈ (Expression.react r.options.limits mode stack c t).reports, D d :=
        fun mode stack c t d hd => hD d (Expression.onTokens_react _ mode stack c t d hd)
      obtain ⟨hmade, hleft⟩ :=
        Automaton.forall_reports_run hreact h Expression.Mode.signed [] r.complained
      rw [Expression.Reader.expression, hover]
      refine ⟨List.forall_mem_append.2 ⟨hmade, fun d hd => ?_⟩, hleft⟩
      exact hD d (Expression.category_of_mem_trailing d hd)

end

/-! ### Numbers are understood -/

theorem Scan.fault_ne_of_mem {s : Scan} (hs : s ∈ Scan.ofText d source) :
    ∀ r ∈ s.reports, r.fault ≠ .invalidNumber := by
  intro r hr
  obtain ⟨text, rest, l, p, hread, hr⟩ := Scan.exists_read_of_mem hs r hr
  exact Lexeme.fault_ne_of_read hread r hr

theorem fault_ne_of_category {r : Diagnostic} (h : r.category ≠ .lexical) :
    r.fault ≠ .invalidNumber := by
  intro hf
  rw [Diagnostic.category, hf] at h
  exact h rfl

theorem Json.fault_ne_of_mem (source : String) (o : Json.Options) (n : Nat) :
    ∀ r ∈ ((Json.Reader.ofText source o).documents n).2.1, r.fault ≠ .invalidNumber := by
  refine Json.forall_reports_documents (fun _ => fault_ne_of_category) ?_ n
  unfold Json.Reader.ofText
  split
  · exact List.forall_mem_singleton.2 (List.forall_mem_nil _)
  · exact fun s => Scan.fault_ne_of_mem

theorem Expression.fault_ne_of_mem (source : String) (o : Expression.Options) (n : Nat) :
    ∀ r ∈ (Expression.Reader.ofText source o).2 ++
      ((Expression.Reader.ofText source o).1.expressions n).2.1, r.fault ≠ .invalidNumber := by
  refine List.forall_mem_append.2 ⟨?_, ?_⟩
  · unfold Expression.Reader.ofText
    split
    · exact List.forall_mem_nil _
    · intro r hr
      obtain ⟨s, hs, hr⟩ := List.mem_flatMap.1 hr
      exact Scan.fault_ne_of_mem hs r hr
  · refine Expression.forall_reports_expressions (fun _ => fault_ne_of_category) ?_ n
    unfold Expression.Reader.ofText
    split
    · exact List.forall_mem_singleton.2 (List.forall_mem_nil _)
    · exact List.forall_mem_map.2 fun _ _ => List.forall_mem_nil _

/-- Where a text begins with a digit, or with a minus sign in front of a digit, a spelling of a
number is read, no longer one begins the text, and everything behind it is left. Unless it begins
with a minus sign in a dialect without signed numbers, it is fetched without a report, as the token
of the number that it spells. Neither among the tokens of a text, in whatever dialect, nor by a
reader of either language, however often it is asked, is a number reported to be invalid. -/
theorem numbers_longest_and_valid :
    (∀ (sign tail : List Char) (c : Char), sign ∈ [[], ['-']] → c.isDigit = true →
      ∃ t x rest, NumberText t x ∧ sign ++ c :: tail = t ++ rest ∧
        (∀ t' x', NumberText t' x' → t' <+: sign ++ c :: tail → t'.length ≤ t.length) ∧
        (Numeral.read (sign ++ c :: tail)).1.text = t ∧
        (Numeral.read (sign ++ c :: tail)).2 = rest ∧
        ∀ (d : Dialect) (source : String) (p : Position),
          (sign = ['-'] → d.signedNumbers = true) →
          Scan.next d ⟨source, p, sign ++ c :: tail⟩ =
            (⟨[], ⟨.number, ⟨p, p.after t⟩, some (.number x)⟩⟩, ⟨source, p.after t, rest⟩)) ∧
    ∀ source : String,
      (∀ d : Dialect, ∀ r ∈ (tokenize source d).2, r.fault ≠ .invalidNumber) ∧
      (∀ (o : Json.Options) (n : Nat),
        ∀ r ∈ ((Json.Reader.ofText source o).documents n).2.1, r.fault ≠ .invalidNumber) ∧
      ∀ (o : Expression.Options) (n : Nat),
        ∀ r ∈ (Expression.Reader.ofText source o).2 ++
          ((Expression.Reader.ofText source o).1.expressions n).2.1,
        r.fault ≠ .invalidNumber := by
  refine ⟨fun sign tail c hs hc => ?_, fun source => ⟨fun d r hr => ?_, Json.fault_ne_of_mem source,
    Expression.fault_ne_of_mem source⟩⟩
  · have hbegins : ∀ signed, (sign = ['-'] → signed = true) →
        Numeral.begins signed (sign ++ c :: tail) = true := by
      intro signed hsigned
      simp only [List.mem_cons, List.not_mem_nil, or_false] at hs
      rcases hs with rfl | rfl
      · simp [Numeral.begins, hc]
      · simp [Numeral.begins, hc, hsigned rfl]
    generalize sign ++ c :: tail = text at hbegins
    have hspelled := Numeral.numberText_of_begins (hbegins true fun _ => rfl)
    refine ⟨_, _, _, hspelled, (Numeral.read_eq text).symm,
      fun t x h hp => Numeral.length_le_of_isPrefix h hp, rfl, rfl, fun d source p hsigned => ?_⟩
    have hreports : Lexeme.reports d p (.number (Numeral.read text).1) = [] :=
      Numeral.reports_of_numberText hspelled p
    have hfetch := Scan.fetch_of_token (Lexeme.read_number (hbegins d.signedNumbers hsigned))
      (p := p) rfl source []
    rw [hreports] at hfetch
    exact hfetch
  · obtain ⟨s, hs, hr⟩ := List.mem_flatMap.1 hr
    exact Scan.fault_ne_of_mem hs r hr

/-- A mark without digits stays behind, and so does a digit behind a leading zero. -/
theorem numbers_longest_and_valid_mark :
    (∃ x, NumberText "-12.50".toList x ∧
      (∀ t x, NumberText t x → t <+: "-12.50e+]".toList → t.length ≤ 6) ∧
      Scan.next .json (.ofText "-12.50e+]") =
        (⟨[], ⟨.number, ⟨⟨0, 1, 1⟩, ⟨6, 1, 7⟩⟩, some (.number x)⟩⟩,
          ⟨"-12.50e+]", ⟨6, 1, 7⟩, "e+]".toList⟩)) ∧
    (∀ t x, NumberText t x → t <+: "01".toList → t.length ≤ 1) ∧
    ∀ r ∈ (tokenize "-12.50e+]" .json).2, r.fault ≠ .invalidNumber := by
  refine ⟨?_, ?_, (numbers_longest_and_valid.2 "-12.50e+]").1 .json⟩
  · obtain ⟨t, x, rest, hspelled, -, hlongest, ht, hrest, hnext⟩ :=
      numbers_longest_and_valid.1 ['-'] "2.50e+]".toList '1' (by simp) rfl
    obtain rfl : t = "-12.50".toList := by
      rw [← ht]
      decide +kernel
    obtain rfl : rest = "e+]".toList := by
      rw [← hrest]
      decide +kernel
    exact ⟨x, hspelled, hlongest, hnext .json "-12.50e+]" .start fun _ => rfl⟩
  · obtain ⟨t, x, rest, -, -, hlongest, ht, -⟩ :=
      numbers_longest_and_valid.1 [] "1".toList '0' (by simp) rfl
    obtain rfl : t = ['0'] := by
      rw [← ht]
      decide +kernel
    exact hlongest

end Resilient
