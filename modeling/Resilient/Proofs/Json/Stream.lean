import Resilient.Proofs.Json.Levels
import Resilient.Proofs.Json.Rest
import Resilient.Proofs.Source.Lexemes

/-!
# Documents one after the other

One reader may read several values from one text. When a document is complete, the token behind it
stays, nothing waits on the stack, and no token is held to be out of place; so the next document is
read as the first one was (`document_of_sentence`). Documents with blanks between them are read in
order without a report, up to the end (`documents_of_stream`).
-/

namespace Resilient

namespace Json

/-- The next documents of a text: their values, the reports, and the reader behind them. -/
def Reader.documents : Nat → Reader → List Value × List Diagnostic × Reader
  | 0, r => ([], [], r)
  | n + 1, r =>
    let (v, reports, r) := r.document
    let (vs, more, r) := documents n r
    (v :: vs, reports ++ more, r)

/-- The greatest number of brackets that are open at a time in a text. -/
def nesting (source : String) : Nat := deepest 0 (tokenize source .json).1

/-- Documents with the values that they denote, and their texts with blanks between them. -/
inductive Stream : List (String × Value) → String → Prop where
  | nil : Stream [] ""
  | last {doc : String} {v : Value} (h : Document false doc.toList v) : Stream [(doc, v)] doc
  | cons {doc gap rest : String} {v : Value} {d : String × Value} {ds : List (String × Value)}
      (h : Document false doc.toList v) (hne : gap ≠ "")
      (hgap : ∀ c ∈ gap.toList, isJsonBlank c = true) (hs : Stream (d :: ds) rest) :
      Stream ((doc, v) :: d :: ds) (doc ++ gap ++ rest)

variable {o : Options} {v : Value} {ss : List Scan} {s : Scan}

/-! ### One document -/

/-- A document is read up to the token behind it, and that token is met by the next one as the first
token of the text would be. -/
theorem document_of_sentence (hw : o.whole = false) (h : Sentence Terminals.scan ss (.value v))
    (hclean : ∀ s ∈ ss, s.reports = []) (hs : s.reports = [])
    (hdepth : ∀ max ∈ o.limits.depth, deepest 0 (ss.map Scan.token) ≤ max) (rest : List Scan) :
    (Reader.mk o none (ss ++ s :: rest) false).document =
      (v, [], ⟨o, none, s :: rest, false⟩) := by
  have hpasses := passes_of_deepest h hclean hdepth
  have hrun := Automaton.run_of_passes hpasses (s :: rest)
  have hstay : (react o.limits (.ended v) [] false s.token).move = .finish v false := rfl
  obtain ⟨reports, t⟩ := s
  subst hs
  rw [Automaton.run_finish hstay] at hrun
  simp only [Reader.document, Reader.value, hrun]
  simp [Outcome.behind, Reader.trailing, Reader.current, hw, react, settle, Turn.finish]

/-- The brackets of a text are the same wherever it begins. -/
theorem nesting_eq (source doc : String) (p : Position) :
    nesting doc =
      deepest 0 ((Scan.scansFrom (dialect false) source p doc.toList).map Scan.token) := by
  have hkinds := Scan.kinds_scansFrom (proper_dialect false) doc source .start p doc.toList
  have htokens : (tokenize doc .json).1 =
      (Scan.scansFrom (dialect false) doc .start doc.toList).map Scan.token := rfl
  rw [nesting, htokens]
  refine deepest_congr ?_ 0
  rw [List.map_map, List.map_map]
  exact hkinds

/-- A document in front of a blank or the end is read, and what follows it is left. -/
theorem document_before_rest {doc source : String} {p : Position} {rest : List Char}
    (hw : o.whole = false) (h : Document false doc.toList v)
    (hdepth : ∀ max ∈ o.limits.depth, nesting doc ≤ max)
    (hr : ∀ c ∈ rest.head?, isJsonBlank c = true)
    (hclean : ∀ s ∈ Scan.scansFrom (dialect false) source (p.after doc.toList) rest,
      s.reports = []) :
    (∀ s ∈ Scan.scansFrom (dialect false) source p (doc.toList ++ rest), s.reports = []) ∧
      (Reader.mk o none (Scan.scansFrom (dialect false) source p (doc.toList ++ rest))
          false).document =
        (v, [], ⟨o, none, Scan.scansFrom (dialect false) source (p.after doc.toList) rest,
          false⟩) := by
  obtain ⟨ss, hss, hreports, hcut⟩ := exists_scans_of_document h source p
  have halone := hcut [] (by simp)
  rw [List.append_nil] at halone
  have hdeep : deepest 0 (ss.map Scan.token) ≤ nesting doc := by
    rw [nesting_eq source doc p, halone, List.map_append]
    exact deepest_le_append 0 _ _
  obtain ⟨more, hrest⟩ := Scan.scansFrom_eq_cons (dialect false) source (p.after doc.toList) rest
  rw [hcut rest hr]
  refine ⟨List.forall_mem_append.2 ⟨hreports, hclean⟩, ?_⟩
  rw [hrest] at hclean ⊢
  exact document_of_sentence hw hss hreports (hclean _ List.mem_cons_self)
    (fun max hmax => Nat.le_trans hdeep (hdepth max hmax)) more

/-! ### All documents -/

variable {ds : List (String × Value)} {source : String}

theorem documents_of_document {r r' : Reader} {vs : List Value} {n : Nat}
    (h : r.document = (v, [], r')) {last : Reader} (hs : r'.documents n = (vs, [], last)) :
    r.documents (n + 1) = (v :: vs, [], last) := by
  rw [Reader.documents, h]
  simp only [hs, List.append_nil]

theorem documents_from {text : String} (h : Stream ds text) (hw : o.whole = false)
    (hdepth : ∀ max ∈ o.limits.depth, ∀ e ∈ ds, nesting e.1 ≤ max) (source : String)
    (p : Position) :
    (∀ s ∈ Scan.scansFrom (dialect false) source p text.toList, s.reports = []) ∧
      ∃ q, (Reader.mk o none (Scan.scansFrom (dialect false) source p text.toList)
          false).documents ds.length =
        (ds.map Prod.snd, [], ⟨o, none, [⟨[], .atEnd q⟩], false⟩) := by
  have hend : ∀ q, Scan.scansFrom (dialect false) source q [] = [⟨[], .atEnd q⟩] := fun q =>
    Scan.scansFrom_end (Lexeme.read_nil _) source q
  induction h generalizing p with
  | nil =>
    have hnil := hend p
    exact ⟨by simp [hnil], p, by simp [hnil, Reader.documents]⟩
  | @last doc v h =>
    have hnest : ∀ max ∈ o.limits.depth, nesting doc ≤ max := fun max hmax =>
      hdepth max hmax (doc, v) List.mem_cons_self
    have hquiet : ∀ s ∈ Scan.scansFrom (dialect false) source (p.after doc.toList) [],
        s.reports = [] := by simp [hend]
    obtain ⟨hclean, hdoc⟩ := document_before_rest hw h hnest (by simp) hquiet
    rw [List.append_nil] at hclean hdoc
    rw [hend] at hdoc
    exact ⟨hclean, _, documents_of_document hdoc rfl⟩
  | @cons doc gap rest v d ds h hne hgap hs ih =>
    have hnest : ∀ max ∈ o.limits.depth, nesting doc ≤ max := fun max hmax =>
      hdepth max hmax (doc, v) List.mem_cons_self
    have hlater : ∀ max ∈ o.limits.depth, ∀ e ∈ d :: ds, nesting e.1 ≤ max := fun max hmax e he =>
      hdepth max hmax e (List.mem_cons_of_mem _ he)
    obtain ⟨hclean, q, hds⟩ := ih hlater ((p.after doc.toList).after gap.toList)
    rw [← scansFrom_gap (GapText.blanks hgap)] at hclean hds
    have hhead : ∀ c ∈ (gap.toList ++ rest.toList).head?, isJsonBlank c = true := by
      cases hg : gap.toList with
      | nil => exact absurd (String.toList_injective hg) hne
      | cons c cs =>
        rintro _ ⟨⟩
        exact hgap c (by simp [hg])
    have htext : (doc ++ gap ++ rest).toList = doc.toList ++ (gap.toList ++ rest.toList) := by simp
    obtain ⟨hall, hdoc⟩ := document_before_rest hw h hnest hhead hclean
    rw [htext]
    exact ⟨hall, q, documents_of_document hdoc hds⟩

/-- Documents with blanks between them are read one after the other from one reader, each as the
value that it denotes, if the bound on depth allows as many containers inside each other as brackets
are open at a time in any of them. Nothing is reported, and the end of the text is left. -/
theorem documents_of_stream (h : Stream ds source) (hw : o.whole = false) (hc : o.comments = false)
    (hsize : o.limits.size = none)
    (hdepth : ∀ max ∈ o.limits.depth, ∀ e ∈ ds, nesting e.1 ≤ max) :
    ∃ r, (Reader.ofText source o).documents ds.length = (ds.map Prod.snd, [], r) ∧
      r.current.map Token.kind = some .eof := by
  have hfits : o.limits.exceededSize source = none := by simp [Limits.exceededSize, hsize]
  have hdialect : o.dialect = dialect false := by rw [Options.dialect, hc]
  obtain ⟨-, q, hds⟩ := documents_from h hw hdepth source .start
  have hreader : Reader.ofText source o =
      ⟨o, none, Scan.scansFrom (dialect false) source .start source.toList, false⟩ := by
    rw [Reader.ofText, hfits, hdialect, Scan.ofText_eq_scansFrom]
  rw [hreader]
  exact ⟨_, hds, rfl⟩

theorem documents_of_stream_brackets :
    ∃ r, (Reader.ofText ("[[true]]" ++ "\n" ++ "null") ⟨false, false, ⟨some 2, none⟩⟩).documents 2 =
        ([.array [.array [.bool true]], .null], [], r) ∧
      r.current.map Token.kind = some .eof := by
  have hvalue : (parse "[[true]]" (Options.unlimited.withComments false)).1 =
      .array [.array [.bool true]] := by with_unfolding_all rfl
  have hbrackets : Document false "[[true]]".toList (.array [.array [.bool true]]) :=
    hvalue ▸ document_of_reports (by decide +kernel)
  have hblank : ∀ c ∈ "\n".toList, isJsonBlank c = true := by simp [isJsonBlank]
  have hstream := Stream.cons hbrackets (by decide) hblank (.last document_null)
  exact documents_of_stream hstream rfl rfl rfl (by decide +kernel)

end Json

end Resilient
