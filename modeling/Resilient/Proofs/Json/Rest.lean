import Resilient.Proofs.Json.Reports
import Resilient.Proofs.Json.Spelling

/-!
# What stands behind the value

Where only the first value of a text is wanted, what follows it is not read, but for one token: the
automaton must see it to know that the value is complete. The token itself does not matter, but
what is wrong with the characters on the way to it is reported (`value_before_rest`).
-/

namespace Resilient

namespace Json

variable {source : String} {doc rest : List Char} {v : Value} {p : Position}

theorem ends_of_blank (h : ∀ c ∈ rest.head?, isJsonBlank c = true) : Ends rest := by
  cases rest with
  | nil => simp [Ends]
  | cons c rest =>
    have hc : isJsonBlank c = true := h c rfl
    simp only [isJsonBlank, Bool.or_eq_true, decide_eq_true_eq] at hc
    rcases hc with ((rfl | rfl) | rfl) | rfl <;> exact ends_cons_iff.2 (by decide)

/-- In front of a blank or the end, a document is always scanned alike. -/
theorem exists_scans_of_document (h : Document false doc v) (source : String) (p : Position) :
    ∃ ss, Sentence Terminals.scan ss (.value v) ∧ (∀ s ∈ ss, s.reports = []) ∧
      ∀ rest, (∀ c ∈ rest.head?, isJsonBlank c = true) →
        Scan.scansFrom (dialect false) source p (doc ++ rest) =
          ss ++ Scan.scansFrom (dialect false) source (p.after doc) rest := by
  obtain ⟨before, core, behind, last, rfl, hbefore, hcore, hbehind, hlast⟩ := h
  cases hlast with
  | lineComment allowed _ => cases allowed
  | nil =>
    obtain ⟨ss, hss, hclean, hcut⟩ := clean_sentence hcore source (p.after before)
    refine ⟨ss, hss, hclean, fun rest hr => ?_⟩
    have hends := ends_gap hbehind (ends_of_blank hr)
    have hassoc : before ++ (core ++ (behind ++ [])) ++ rest =
        before ++ (core ++ (behind ++ rest)) := by simp
    rw [hassoc, scansFrom_gap hbefore, hcut _ hends, scansFrom_gap hbehind]
    simp [Position.after_append]

theorem scansFrom_document_append (h : Document false doc v)
    (hr : ∀ c ∈ rest.head?, isJsonBlank c = true) (source : String) (p : Position) :
    ∃ ss, Scan.scansFrom (dialect false) source p (doc ++ rest) =
        ss ++ Scan.scansFrom (dialect false) source (p.after doc) rest ∧
      Sentence Terminals.scan ss (.value v) ∧ ∀ s ∈ ss, s.reports = [] := by
  obtain ⟨ss, hss, hclean, hcut⟩ := exists_scans_of_document h source p
  exact ⟨ss, hcut rest hr, hss, hclean⟩

/-- In front of a blank or the end, a document is read as the value that it denotes, whatever
follows; what is reported is wrong with the characters up to the next token. -/
theorem value_before_rest {doc rest : String} {v : Value} (h : Document false doc.toList v)
    (hr : ∀ c ∈ rest.toList.head?, isJsonBlank c = true) :
    parse (doc ++ rest) (Options.unlimited.withWhole false) =
        (v, (Scan.next Dialect.json
          ⟨doc ++ rest, Position.start.after doc.toList, rest.toList⟩).1.reports) ∧
      ∀ d ∈ (Scan.next Dialect.json
          ⟨doc ++ rest, Position.start.after doc.toList, rest.toList⟩).1.reports,
        d.category = .lexical ∧ doc.utf8ByteSize ≤ d.position.offset := by
  have hsees : (Position.start.after doc.toList).Sees (doc ++ rest) rest.toList :=
    ⟨doc.toList, String.toList_append, rfl⟩
  constructor
  · obtain ⟨ss, hscans, hss, hclean⟩ := scansFrom_document_append h hr (doc ++ rest) .start
    obtain ⟨more, hrest⟩ := Scan.scansFrom_eq_cons (dialect false) (doc ++ rest)
      (Position.start.after doc.toList) rest.toList
    have hpasses := passed_of_sentence (rfl : Limits.unlimited.depth = none) hss []
    have hfound : found ss = [] := List.flatMap_eq_nil_iff.2 hclean
    have hfits : (Options.unlimited.withWhole false).limits.exceededSize (doc ++ rest) = none := rfl
    have hlimits : (Options.unlimited.withWhole false).limits = .unlimited := rfl
    have hdialect : (Options.unlimited.withWhole false).dialect = dialect false := rfl
    rw [parse_of_fits hfits, hlimits, hdialect, Scan.ofText_eq_scansFrom, String.toList_append,
      hscans, hrest, Automaton.run_of_passes hpasses, hfound]
    -- The token behind the value stays, and it is not reported to be out of place.
    have hstay : ∀ t, (react .unlimited (.ended v) [] false t).move = .finish v false :=
      fun t => rfl
    rw [Automaton.run_finish (hstay _)]
    simp [Outcome.behind, Reader.trailing, Reader.current, Options.withWhole, react, settle,
      Turn.finish]
    rfl
  · have hnone : ∀ r ∈ ([] : List Diagnostic), r.OnText (doc ++ rest)
        (Position.start.after doc.toList).offset (Position.start.after doc.toList).offset := by simp
    have hfetched := Scan.fetched_fetch (d := Dialect.json)
      (c := ⟨doc ++ rest, Position.start.after doc.toList, rest.toList⟩) hsees (Nat.le_refl _) hnone
    have hsize := (Position.after_start doc.toList).1
    rw [String.ofList_toList] at hsize
    intro d hd
    have hreport := hfetched.onText d hd
    exact ⟨hreport.lexical, hsize ▸ hreport.start_le⟩

theorem document_null : Document false "null".toList .null := by
  have hnull : Sentence (Terminals.text false) "null".toList (.value .null) :=
    .null ScalarText.null
  exact ⟨[], "null".toList, [], [], rfl, .nil, hnull, .nil, .nil⟩

theorem isJsonBlank_of_mem_head? {c : Char} {text : List Char} (h : c ∈ (' ' :: text).head?) :
    isJsonBlank c = true := by
  cases h
  rfl

theorem value_before_bracket :
    parse ("null" ++ " ]") (Options.unlimited.withWhole false) = (.null, []) := by
  have hquiet : (Scan.next Dialect.json
      ⟨"null" ++ " ]", Position.start.after "null".toList, " ]".toList⟩).1.reports = [] := by
    decide +kernel
  rw [(value_before_rest document_null fun _ => isJsonBlank_of_mem_head?).1, hquiet]

/-- A character that fits nowhere is reported although it stands behind the value. -/
theorem rest_not_ignored :
    ∃ doc rest v, Document false doc.toList v ∧ (∀ c ∈ rest.toList.head?, isJsonBlank c = true) ∧
      parse (doc ++ rest) (Options.unlimited.withWhole false) ≠ (v, []) := by
  refine ⟨"null", " #", .null, document_null, fun _ => isJsonBlank_of_mem_head?, fun h => ?_⟩
  have hreports : (parse ("null" ++ " #") (Options.unlimited.withWhole false)).2.length = 1 := by
    decide +kernel
  rw [h] at hreports
  cases hreports

end Json

end Resilient
