import Resilient.Proofs.Lexeme.Beginning
import Resilient.Proofs.Source.Tokens

/-!
# The tokens of the beginning of a text

If a text is scanned without a report and no token stands across some place of it, the text up to
there has the tokens that end there or before, and then the end (`Scan.ofText_beginning`).
-/

namespace Resilient

variable {d : Dialect} {source : String} {p : Position} {text rest : List Char}

namespace Lexeme

variable {l : Lexeme}

/-- In a dialect without comments, what makes no token is a stray character or begins with a
blank. -/
theorem stray_of_skip {c : Char} {span : Span} (hd : d.trivia = true ∨ d.comments = false)
    (hc : d.trivia = false → d.isBlank c = false) (h : read d (c :: text) = some (l, rest))
    (ht : l.token? d span = none) : ∃ x, l = .stray x := by
  cases l with
  | gap run =>
    have htrivia : d.trivia = false := by
      by_contra htrivia
      simp [token?, htrivia] at ht
    have hcomments := hd.resolve_left (by simp [htrivia])
    have hnone : readTrivia d (c :: text) = none := by
      unfold readTrivia
      rw [if_neg (by simp [htrivia]), readGap_solid (hc htrivia) (by simp [hcomments])]
      rfl
    rw [read, hnone] at h
    rcases readSolid_cases h with ⟨n, hl, -, -⟩ | ⟨lit, body, hl, -, -⟩ | ⟨c, body, hl, -, -, -⟩ |
      ⟨op, hl, -, -⟩ | ⟨c, hl, -, -⟩
    all_goals cases hl
  | newline | number n | literal l | operator op => cases ht
  | word w =>
    simp only [token?] at ht
    split at ht <;> cases ht
  | stray x => exact ⟨x, rfl⟩

end Lexeme

/-- Of two texts that begin the same text, the one that reaches no further begins the other. -/
theorem beginning_of_offset_le {s t : List Char} (hs : s <+: text) (ht : t <+: text)
    (h : (p.after s).offset ≤ (p.after t).offset) : s <+: t := by
  rcases List.prefix_or_prefix_of_prefix hs ht with hst | ⟨more, rfl⟩
  · exact hst
  · rw [Position.after_append] at h
    have hle := (p.after t).offset_le_after more
    obtain rfl := ((p.after t).offset_after_eq_iff more).1 (Nat.le_antisymm h hle)
    simp

namespace Scan

/-- Every token ends at a byte or before it, or begins there or behind it. -/
def Apart (n : Nat) (scans : List Scan) : Prop :=
  ∀ s ∈ scans, s.token.span.stop.offset ≤ n ∨ n ≤ s.token.span.start.offset

/-- The scans of a text that is cut where no token stands across. -/
theorem scansFrom_beginning (hp : d.Proper) (hd : d.trivia = true ∨ d.comments = false)
    (hsees : p.Sees source (text ++ rest))
    (hr : ∀ s ∈ scansFrom d source p (text ++ rest), s.reports = [])
    (ha : Apart (p.after text).offset (scansFrom d source p (text ++ rest))) (source' : String) :
    ∃ ss ts, scansFrom d source p (text ++ rest) = ss ++ ts ∧
      scansFrom d source' p text = ss ++ [⟨[], .atEnd (p.after text)⟩] ∧
      (∀ s ∈ ss, s.token.span.stop.offset ≤ (p.after text).offset) ∧
      ∀ s ∈ ts, (p.after text).offset ≤ s.token.span.start.offset := by
  obtain ⟨n, hn⟩ : ∃ n, text.length = n := ⟨_, rfl⟩
  induction n using Nat.strongRecOn generalizing p text with
  | ind n ih =>
    subst hn
    cases text with
    | nil =>
      refine ⟨[], _, rfl, scansFrom_end (Lexeme.read_nil d) source' p, by simp, fun s hs => ?_⟩
      obtain ⟨c, hc⟩ := (fetched_scansFrom hsees).1 s hs
      exact hc.start_le
    | cons c text =>
      by_cases hblank : d.trivia = false ∧ d.isBlank c = true
      · -- A blank leaves no trace, before a cut or behind it.
        obtain ⟨htrivia, hblank⟩ := hblank
        have hstep : ∀ source text, scansFrom d source p (c :: text) =
            scansFrom d source (p.next c) text := fun source text =>
          scansFrom_congr (fetch_blank htrivia hblank source p [] text) (moves_of_proper hp _)
            (moves_of_proper hp _)
        rw [List.cons_append] at hsees
        rw [List.cons_append, hstep] at hr ha ⊢
        rw [hstep]
        exact ih _ (Nat.lt_succ_self _) hsees.cons hr ha rfl
      · cases hread : Lexeme.read d (c :: text ++ rest) with
        | none => cases Lexeme.eq_nil_of_read hread
        | some found =>
          obtain ⟨l, tail⟩ := found
          have heq := Lexeme.read_eq hread
          have hl := Lexeme.text_ne_nil_of_read hp hread
          cases ht : l.token? d ⟨p, p.after l.text⟩ with
          | none =>
            have hsolid : d.trivia = false → d.isBlank c = false := by
              simpa [Bool.not_eq_true] using hblank
            obtain ⟨x, rfl⟩ := Lexeme.stray_of_skip hd hsolid hread ht
            cases reports_of_skip hread ht hr
          | some t =>
            have hcons := scansFrom_cons hread ht (Lexeme.kind_ne_eof_of_read hp hread ht) hl source
            rw [hcons] at hr ha ⊢
            obtain ⟨hreports, hr⟩ := List.forall_mem_cons.1 hr
            obtain ⟨hstop, ha⟩ := List.forall_mem_cons.1 ha
            rw [Lexeme.span_of_token? ht] at hstop
            have hstart : p.offset < (p.after (c :: text)).offset :=
              Nat.lt_of_lt_of_le (p.offset_lt_next c) ((p.next c).offset_le_after text)
            have hstop := hstop.resolve_right (Nat.not_le.2 hstart)
            obtain ⟨more, hmore⟩ := beginning_of_offset_le ⟨tail, heq⟩
              (List.prefix_append (c :: text) rest) hstop
            have htail : tail = more ++ rest := by
              rw [← hmore, List.append_assoc] at heq
              exact List.append_cancel_left heq
            have hread' := Lexeme.read_beginning hread hl (htail ▸ List.prefix_append more rest)
            rw [← heq] at hsees
            rw [htail] at hsees hr ha hcons ⊢
            have hlt : more.length < (c :: text).length := by
              have hlength := congrArg List.length hmore
              have hpos := List.length_pos_iff.2 hl
              rw [List.length_append] at hlength
              omega
            rw [← hmore, Position.after_append] at ha hstop ⊢
            obtain ⟨ss, ts, hss, hend, hbefore, hbehind⟩ := ih _ hlt hsees.append hr ha rfl
            refine ⟨⟨l.reports d p, t⟩ :: ss, ts, by rw [hss]; rfl, ?_,
              List.forall_mem_cons.2 ⟨?_, hbefore⟩, hbehind⟩
            · rw [scansFrom_cons hread' ht (Lexeme.kind_ne_eof_of_read hp hread ht) hl, hend]
              rfl
            · rwa [Lexeme.span_of_token? ht]

end Scan

/-- A byte of a text that no token of it stands across. -/
def Boundary (d : Dialect) (source : String) (n : Nat) : Prop :=
  ∀ t ∈ (tokenize source d).1, t.span.stop.offset ≤ n ∨ n ≤ t.span.start.offset

/-- A text without reports that is cut at a boundary has the tokens in front of the cut, and then
the end, without a report. -/
theorem Scan.ofText_beginning {cut rest : String} (hp : d.Proper)
    (hd : d.trivia = true ∨ d.comments = false) (hr : (tokenize (cut ++ rest) d).2 = [])
    (hb : Boundary d (cut ++ rest) cut.utf8ByteSize) :
    ∃ ss ts e, ofText d (cut ++ rest) = ss ++ ts ++ [e] ∧ e.token.kind = .eof ∧
      ofText d cut = ss ++ [⟨[], .atEnd (Position.start.after cut.toList)⟩] ∧
      (∀ s ∈ ss, s.reports = [] ∧ s.token.span.stop.offset ≤ cut.utf8ByteSize) ∧
      ∀ s ∈ ts, cut.utf8ByteSize < s.token.span.stop.offset := by
  have hsize := (Position.after_start cut.toList).1
  rw [String.ofList_toList] at hsize
  have hsees := Position.Sees.of_source (cut ++ rest)
  have hr := List.flatMap_eq_nil_iff.1 hr
  have ha : Apart (Position.start.after cut.toList).offset (ofText d (cut ++ rest)) :=
    fun s hs => hsize ▸ hb _ (List.mem_map_of_mem hs)
  rw [String.toList_append] at hsees
  rw [ofText_eq_scansFrom, String.toList_append] at hr ha
  obtain ⟨ss, ts, hscans, hcut, hbefore, hbehind⟩ := scansFrom_beginning hp hd hsees hr ha cut
  rw [hsize] at hbefore hbehind
  obtain ⟨full, found, hfull, hk⟩ :=
    scansFrom_eq_append hp (cut ++ rest) .start (cut ++ rest).toList
  obtain ⟨us, found', hcut', hk'⟩ := scansFrom_eq_append hp cut .start cut.toList
  obtain ⟨rfl, -⟩ := List.append_singleton_inj.1 (hcut.symm.trans hcut')
  rw [String.toList_append, hscans] at hfull
  -- The end is not one of the tokens in front of the cut.
  rcases ts.eq_nil_or_concat with rfl | ⟨ts, e, rfl⟩
  · have hend := List.mem_append_right full (List.mem_singleton_self
      (⟨found, .atEnd (Position.start.after (cut.toList ++ rest.toList))⟩ : Scan))
    rw [← hfull, List.append_nil] at hend
    exact absurd rfl (hk' _ hend)
  · rw [List.concat_eq_append, ← List.append_assoc] at hfull hscans
    obtain ⟨rfl, he⟩ := List.append_singleton_inj.1 hfull
    have hclean : ∀ s ∈ ss, s.reports = [] := fun s hs => hr s (by rw [hscans]; simp [hs])
    refine ⟨ss, ts, e, ?_, by rw [he]; rfl, hcut, fun s hs => ⟨hclean s hs, hbefore s hs⟩,
      fun s hs => ?_⟩
    · rw [ofText_eq_scansFrom, String.toList_append, hscans]
    · have hmem : s ∈ ofText d (cut ++ rest) := by
        rw [ofText_eq_scansFrom, String.toList_append, hscans]
        simp [hs]
      exact Nat.lt_of_le_of_lt (hbehind s (by simp [hs]))
        (start_lt_stop_of_mem hmem hp (hk s (by simp [hs])))

end Resilient
