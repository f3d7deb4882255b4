import Resilient.Proofs.Json.Grammar
import Resilient.Proofs.Lexeme.Solid

/-!
# JSON texts and their scans

`Cuts` says how a text is cut into scans, whatever follows it. A sentence over characters is cut
into a sentence over scans, without a report (`clean_sentence`).
-/

namespace Resilient

namespace Json

/-- How a JSON text is cut into tokens. -/
abbrev dialect (comments : Bool) : Dialect := Dialect.json.withComments comments

variable {comments : Bool} {source : String} {p : Position} {text rest w : List Char} {c : Char}

theorem proper_dialect (comments : Bool) : (dialect comments).Proper := by
  intro op hop
  change op ∈ Operator.json at hop
  simp only [Operator.json, List.mem_cons, List.not_mem_nil, or_false] at hop
  rcases hop with rfl | rfl | rfl | rfl | rfl | rfl <;> exact ⟨by decide, by decide⟩

/-! ### What may follow a number or a word -/

theorem ends_cons_iff : Ends (c :: rest) ↔ isWordChar c = false ∧ c ≠ '.' := by
  simp [Ends]

theorem ends_gap (hw : GapText comments w) (hr : Ends rest) : Ends (w ++ rest) := by
  cases hw with
  | nil => exact hr
  | blank hc _ =>
    simp only [List.mem_cons, List.not_mem_nil, or_false] at hc
    rcases hc with rfl | rfl | rfl | rfl <;> exact ends_cons_iff.2 (by decide)
  | lineComment _ _ _ => exact ends_cons_iff.2 (by decide)
  | blockComment _ _ _ => exact ends_cons_iff.2 (by decide)

theorem ends_punctuation {kind : Kind} (h : (kind, c) ∈ punctuation) : Ends (c :: rest) := by
  have key : ∀ e ∈ punctuation, isWordChar e.2 = false ∧ e.2 ≠ '.' := by decide
  exact ends_cons_iff.2 (key _ h)

theorem ends_mark {kind : Kind} (h : (Terminals.text comments).mark kind text) :
    Ends (text ++ rest) := by
  obtain ⟨a, c, b, hc, ha, hb, rfl⟩ := h
  rw [List.append_assoc]
  exact ends_gap ha (ends_punctuation hc)

theorem ends_last (h : LastComment comments text) : Ends text := by
  cases h with
  | nil => simp [Ends]
  | lineComment _ _ => exact ends_cons_iff.2 (by decide)

/-! ### One token -/

theorem scansFrom_punctuation {kind : Kind} (h : (kind, c) ∈ punctuation) :
    Scan.scansFrom (dialect comments) source p (c :: rest) =
      ⟨[], .bare kind ⟨p, p.next c⟩⟩ ::
        Scan.scansFrom (dialect comments) source (p.next c) rest := by
  have key : ∃ op, Lexeme.read (dialect comments) (c :: rest) = some (.operator op, rest) ∧
      op.kind = kind ∧ op.spelling.toList = [c] := by
    simp only [punctuation, List.mem_cons, List.not_mem_nil, or_false, Prod.mk.injEq] at h
    rcases h with ⟨rfl, rfl⟩ | ⟨rfl, rfl⟩ | ⟨rfl, rfl⟩ | ⟨rfl, rfl⟩ | ⟨rfl, rfl⟩ | ⟨rfl, rfl⟩
    all_goals
      rw [Lexeme.read_eq_readSolid rfl (by decide)]
      exact ⟨_, rfl, rfl, rfl⟩
  obtain ⟨op, hr, hk, hs⟩ := key
  have ht : Lexeme.text (.operator op) = [c] := hs
  have hne : kind ≠ .eof := by
    rintro rfl
    simp [punctuation] at h
  rw [Scan.scansFrom_cons hr rfl (by rwa [hk]) (by simp [ht]), ht]
  simp [Lexeme.reports, hk]

theorem scansFrom_number {x : Binary64} (h : NumberText text x) (hr : Ends rest) :
    Scan.scansFrom (dialect comments) source p (text ++ rest) =
      ⟨[], ⟨.number, ⟨p, p.after text⟩, some (.number x)⟩⟩ ::
        Scan.scansFrom (dialect comments) source (p.after text) rest := by
  obtain ⟨n, hn, hnt, hnv⟩ := Numeral.read_of_numberText h hr
  have hb := Numeral.begins_of_numberText h rest
  have hread : Lexeme.read (dialect comments) (text ++ rest) = some (.number n, rest) := by
    rw [Lexeme.read_number hb, hn]
  have htext : Lexeme.text (.number n) = text := hnt
  have hne : text ≠ [] := by
    rw [← hnt]
    have := Numeral.text_ne_nil_of_begins hb
    rwa [hn] at this
  have hreports := Numeral.reports_of_numberText (hnt ▸ h) p
  rw [Scan.scansFrom_cons hread rfl (by simp) (by rwa [htext]), htext]
  simp [Lexeme.reports, hreports, hnv]

theorem scansFrom_string {s : String} (h : StringText text s) :
    Scan.scansFrom (dialect comments) source p (text ++ rest) =
      ⟨[], ⟨.string, ⟨p, p.after text⟩, some (.string s)⟩⟩ ::
        Scan.scansFrom (dialect comments) source (p.after text) rest := by
  cases h with
  | @intro t cs h =>
    obtain ⟨l, hl, hlt, hlv, hlr⟩ := Literal.read_of_charsText h rest
    have hread : Lexeme.read (dialect comments) ('"' :: (t ++ '"' :: rest)) =
        some (.literal l, rest) := by
      rw [Lexeme.read_quote, hl]
    have htext : Lexeme.text (.literal l) = '"' :: (t ++ ['"']) := hlt
    have hassoc : '"' :: (t ++ ['"']) ++ rest = '"' :: (t ++ '"' :: rest) := by simp
    rw [hassoc, Scan.scansFrom_cons hread rfl (by simp) (by simp [htext]), htext]
    simp [Lexeme.reports, hlr, hlv]

theorem isWordStart_of_isDigit (h : c.isDigit = true) : isWordStart c = false := by
  have key : ∀ n : Fin 10, isWordStart (Char.ofNat (48 + n)) = false := by decide
  simp only [Char.isDigit, Bool.and_eq_true, decide_eq_true_eq, UInt32.le_iff_toNat_le] at h
  have h₁ : 48 ≤ c.toNat := h.1
  have h₂ : c.toNat ≤ 57 := h.2
  have hk := key ⟨c.toNat - 48, by omega⟩
  have hn : 48 + (c.toNat - 48) = c.toNat := by omega
  simpa only [hn, Char.ofNat_toNat] using hk

/-- A word: it begins with a letter or an underscore, and numerals may follow. -/
inductive WordText : List Char → Prop where
  | intro {c : Char} {cs : List Char} (hc : isWordStart c = true)
      (hcs : ∀ x ∈ cs, isWordChar x = true) : WordText (c :: cs)

theorem read_word (h : WordText w) (hr : Ends rest) :
    Lexeme.read (dialect comments) (w ++ rest) = some (.word w, rest) := by
  cases h with
  | @intro c cs hc hcs =>
    have hall : ∀ x ∈ c :: cs, isWordChar x = true := by
      simpa using ⟨isWordChar_of_isWordStart hc, hcs⟩
    have htake : (c :: cs ++ rest).takeWhile isWordChar = c :: cs := by
      rw [List.takeWhile_append_of_pos hall]
      cases rest with
      | nil => simp
      | cons x rest => simp [(ends_cons_iff.1 hr).1]
    have hdrop : (c :: cs ++ rest).dropWhile isWordChar = rest := by
      rw [List.dropWhile_append_of_pos hall]
      cases rest with
      | nil => rfl
      | cons x rest => simp [(ends_cons_iff.1 hr).1]
    have hneq : ∀ x, isWordStart x = false → c ≠ x := by
      rintro x hx rfl
      rw [hc] at hx
      cases hx
    have hblank : (dialect comments).isBlank c = false := by
      change isJsonBlank c = false
      simp only [isJsonBlank, Bool.or_eq_false_iff, decide_eq_false_iff_not]
      exact ⟨⟨⟨hneq _ (by decide), hneq _ (by decide)⟩, hneq _ (by decide)⟩, hneq _ (by decide)⟩
    have hdigit : c.isDigit = false := by
      by_contra hd
      rw [isWordStart_of_isDigit (by simpa using hd)] at hc
      cases hc
    rw [List.cons_append, Lexeme.read_eq_readSolid hblank (hneq _ (by decide)), ← List.cons_append,
      List.cons_append, Lexeme.readSolid, ← List.cons_append, htake, hdrop]
    simp [Numeral.begins, hdigit, hc, hneq '"' (by decide), hneq '-' (by decide)]

theorem scansFrom_literalWord {kind : Kind} {v : Scalar} (h : WordText text)
    (hk : Lexeme.keyword? text = some (kind, v)) (he : kind ≠ .eof) (hr : Ends rest) :
    Scan.scansFrom (dialect comments) source p (text ++ rest) =
      ⟨[], ⟨kind, ⟨p, p.after text⟩, some v⟩⟩ ::
        Scan.scansFrom (dialect comments) source (p.after text) rest := by
  have hw : Lexeme.literalWord? (dialect comments) text = some (kind, v) := hk
  have ht : Lexeme.token? (dialect comments) ⟨p, p.after text⟩ (.word text) =
      some ⟨kind, ⟨p, p.after text⟩, some v⟩ := by
    rw [Lexeme.token?, hw]
  have hne : Lexeme.text (.word text) ≠ [] := by
    cases h
    simp [Lexeme.text]
  rw [Scan.scansFrom_cons (read_word h hr) ht he hne]
  simp [Lexeme.reports, hw, Lexeme.text]

/-- A word that is no literal is a token all the same, and it is reported. -/
theorem scansFrom_word (h : WordText text) (hk : Lexeme.keyword? text = none) (hr : Ends rest) :
    Scan.scansFrom (dialect comments) source p (text ++ rest) =
      ⟨[.of .identifierNotPermitted ⟨p, p.after text⟩],
          ⟨.identifier, ⟨p, p.after text⟩, some (.string (String.ofList text))⟩⟩ ::
        Scan.scansFrom (dialect comments) source (p.after text) rest := by
  have hw : Lexeme.literalWord? (dialect comments) text = none := hk
  have hi : (dialect comments).identifiers = false := rfl
  have ht : Lexeme.token? (dialect comments) ⟨p, p.after text⟩ (.word text) =
      some ⟨.identifier, ⟨p, p.after text⟩, some (.string (String.ofList text))⟩ := by
    rw [Lexeme.token?, hw]
  have hne : Lexeme.text (.word text) ≠ [] := by
    cases h
    simp [Lexeme.text]
  rw [Scan.scansFrom_cons (read_word h hr) ht (by simp) hne]
  simp [Lexeme.reports, hw, hi, Lexeme.text]

theorem scansFrom_scalar {v : Scalar} (h : ScalarText v text) (hr : Ends rest) :
    Scan.scansFrom (dialect comments) source p (text ++ rest) =
      ⟨[], ⟨v.kind, ⟨p, p.after text⟩, some v⟩⟩ ::
        Scan.scansFrom (dialect comments) source (p.after text) rest := by
  cases h with
  | null => exact scansFrom_literalWord (.intro rfl (List.all_eq_true.1 rfl)) rfl (by decide) hr
  | true => exact scansFrom_literalWord (.intro rfl (List.all_eq_true.1 rfl)) rfl (by decide) hr
  | false => exact scansFrom_literalWord (.intro rfl (List.all_eq_true.1 rfl)) rfl (by decide) hr
  | number h => exact scansFrom_number h hr
  | string h => exact scansFrom_string h

theorem scansFrom_gap (hw : GapText comments w) :
    Scan.scansFrom (dialect comments) source p (w ++ text) =
      Scan.scansFrom (dialect comments) source (p.after w) text :=
  Scan.scansFrom_gap rfl rfl (proper_dialect comments) hw source p text

/-! ### Sentences -/

/-- The scans of a text, whatever ends it. -/
def Cuts (comments : Bool) (source : String) (p : Position) (text : List Char) (ss : List Scan) :
    Prop :=
  ∀ rest, Ends rest → Scan.scansFrom (dialect comments) source p (text ++ rest) =
    ss ++ Scan.scansFrom (dialect comments) source (p.after text) rest

namespace Cuts

variable {s t : List Char} {ss ts : List Scan} {kind : Kind}

theorem nil : Cuts comments source p [] [] := fun _ _ => rfl

theorem gap (hw : GapText comments w) (h : Cuts comments source (p.after w) t ts) :
    Cuts comments source p (w ++ t) ts := by
  intro rest hr
  rw [List.append_assoc, scansFrom_gap hw, h rest hr, Position.after_append]

theorem punctuation (hc : (kind, c) ∈ Json.punctuation) (h : Cuts comments source (p.next c) t ts) :
    Cuts comments source p (c :: t) (⟨[], .bare kind ⟨p, p.next c⟩⟩ :: ts) := by
  intro rest hr
  rw [List.cons_append, scansFrom_punctuation hc, h rest hr]
  rfl

theorem mark (source : String) (p : Position) (hm : (Terminals.text comments).mark kind s) :
    ∃ x : Scan, x.token.kind = kind ∧ x.reports = [] ∧
      ∀ t ts, Cuts comments source (p.after s) t ts →
        Cuts comments source p (s ++ t) (x :: ts) := by
  obtain ⟨a, c, b, hc, ha, hb, rfl⟩ := hm
  refine ⟨⟨[], .bare kind ⟨p.after a, (p.after a).next c⟩⟩, rfl, rfl, fun t ts h => ?_⟩
  rw [Position.after_append] at h
  rw [List.append_assoc]
  exact gap ha (punctuation hc (gap hb h))

/-- What is scanned up to a mark is scanned by itself. -/
theorem append_mark (h : Cuts comments source p s ss) (hm : (Terminals.text comments).mark kind w)
    (ht : Cuts comments source (p.after s) (w ++ t) ts) :
    Cuts comments source p (s ++ (w ++ t)) (ss ++ ts) := by
  intro rest hr
  have he : Ends (w ++ t ++ rest) := by
    rw [List.append_assoc]
    exact ends_mark hm
  rw [List.append_assoc, h _ he, ht rest hr, Position.after_append p, List.append_assoc]

end Cuts

/-- Wherever it begins, the text is scanned without a report, and its scans are as described. -/
def Clean (comments : Bool) (source : String) (text : List Char) (described : List Scan → Prop) :
    Prop :=
  ∀ p, ∃ ss, described ss ∧ (∀ s ∈ ss, s.reports = []) ∧ Cuts comments source p text ss

namespace Clean

variable {s t : List Char} {S T : List Scan → Prop} {k k' : Kind} {a b : List Char}

theorem enclosed (ha : (Terminals.text comments).mark k a) (h : Clean comments source t T)
    (hb : (Terminals.text comments).mark k' b) :
    Clean comments source (a ++ (t ++ b)) fun us =>
      ∃ x ts y, us = x ++ (ts ++ y) ∧ Terminals.scan.mark k x ∧ T ts ∧
        Terminals.scan.mark k' y := by
  intro p
  obtain ⟨x, hx, hxr, hxc⟩ := Cuts.mark source p ha
  obtain ⟨ts, hts, htr, htc⟩ := h (p.after a)
  obtain ⟨y, hy, hyr, hyc⟩ := Cuts.mark source ((p.after a).after t) hb
  have hcut := hxc _ _ (htc.append_mark hb (hyc [] [] .nil))
  rw [List.append_nil] at hcut
  refine ⟨x :: (ts ++ [y]), ⟨[x], ts, [y], rfl, ⟨x, rfl, hx⟩, hts, y, rfl, hy⟩, ?_, hcut⟩
  simpa [hxr, hyr, or_imp, forall_and] using htr

theorem joined (hs : Clean comments source s S) (ha : (Terminals.text comments).mark k a)
    (ht : Clean comments source t T) :
    Clean comments source (s ++ (a ++ t)) fun us =>
      ∃ ss x ts, us = ss ++ (x ++ ts) ∧ S ss ∧ Terminals.scan.mark k x ∧ T ts := by
  intro p
  obtain ⟨ss, hss, hsr, hsc⟩ := hs p
  obtain ⟨x, hx, hxr, hxc⟩ := Cuts.mark source (p.after s) ha
  obtain ⟨ts, hts, htr, htc⟩ := ht ((p.after s).after a)
  have hcut := hsc.append_mark ha (hxc _ _ htc)
  refine ⟨ss ++ x :: ts, ⟨ss, [x], ts, rfl, hss, ⟨x, rfl, hx⟩, hts⟩, ?_, hcut⟩
  simpa [hxr, or_imp, forall_and] using ⟨hsr, htr⟩

end Clean

theorem clean_scalar {v : Scalar} (source : String) (h : ScalarText v text) :
    Clean comments source text (Terminals.scan.scalar v) := fun _ =>
  ⟨_, ⟨_, rfl, rfl, rfl⟩, by simp, fun _ hr => scansFrom_scalar h hr⟩

theorem clean_nil (source : String) : Clean comments source [] (· = []) := fun _ =>
  ⟨[], rfl, by simp, .nil⟩

/-- A sentence over characters is scanned without a report, as a sentence over scans. -/
theorem clean_sentence {part : Part} (h : Sentence (Terminals.text comments) text part)
    (source : String) : Clean comments source text fun ss => Sentence Terminals.scan ss part := by
  induction h with
  | null h | bool h | number h | string h =>
    intro p
    obtain ⟨ss, hss, hc⟩ := clean_scalar source h p
    exact ⟨ss, .scalar hss, hc⟩
  | emptyArray ha hb =>
    intro p
    obtain ⟨_, ⟨x, _, y, rfl, hx, rfl, hy⟩, hc⟩ := (clean_nil source).enclosed ha hb p
    exact ⟨_, .emptyArray hx hy, hc⟩
  | array ha h hb ih =>
    intro p
    obtain ⟨_, ⟨x, ts, y, rfl, hx, hts, hy⟩, hc⟩ := ih.enclosed ha hb p
    exact ⟨_, .array hx hts hy, hc⟩
  | emptyObject ha hb =>
    intro p
    obtain ⟨_, ⟨x, _, y, rfl, hx, rfl, hy⟩, hc⟩ := (clean_nil source).enclosed ha hb p
    exact ⟨_, .emptyObject hx hy, hc⟩
  | object ha h hb ih =>
    intro p
    obtain ⟨_, ⟨x, ts, y, rfl, hx, hts, hy⟩, hc⟩ := ih.enclosed ha hb p
    exact ⟨_, .object hx hts hy, hc⟩
  | oneItem h ih =>
    intro p
    obtain ⟨ss, hss, hc⟩ := ih p
    exact ⟨ss, .oneItem hss, hc⟩
  | moreItems hs hc h ihs ih =>
    intro p
    obtain ⟨_, ⟨ss, x, ts, rfl, hss, hx, hts⟩, hcut⟩ := ihs.joined hc ih p
    exact ⟨_, .moreItems hss hx hts, hcut⟩
  | member hk hc h ih =>
    intro p
    obtain ⟨_, ⟨ss, x, ts, rfl, hss, hx, hts⟩, hcut⟩ := (clean_scalar source hk).joined hc ih p
    exact ⟨_, .member hss hx hts, hcut⟩
  | oneMember h ih =>
    intro p
    obtain ⟨ss, hss, hc⟩ := ih p
    exact ⟨ss, .oneMember hss, hc⟩
  | moreMembers hs hc h ihs ih =>
    intro p
    obtain ⟨_, ⟨ss, x, ts, rfl, hss, hx, hts⟩, hcut⟩ := ihs.joined hc ih p
    exact ⟨_, .moreMembers hss hx hts, hcut⟩

theorem scansFrom_document {v : Value} (h : Document comments text v) (source : String)
    (p : Position) :
    ∃ ss q, Scan.scansFrom (dialect comments) source p text = ss ++ [⟨[], .atEnd q⟩] ∧
      Sentence Terminals.scan ss (.value v) ∧ ∀ s ∈ ss, s.reports = [] := by
  obtain ⟨before, core, behind, last, rfl, hbefore, hcore, hbehind, hlast⟩ := h
  obtain ⟨ss, hss, hr, hcut⟩ := clean_sentence hcore source (p.after before)
  refine ⟨ss, (((p.after before).after core).after behind).after last, ?_, hss, hr⟩
  rw [scansFrom_gap hbefore, hcut _ (ends_gap hbehind (ends_last hlast)), scansFrom_gap hbehind,
    Scan.scansFrom_lastComment rfl rfl (proper_dialect comments) hlast]

end Json

end Resilient
