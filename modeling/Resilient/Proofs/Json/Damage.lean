import Resilient.Proofs.Json.Scanning

/-!
# Damaged documents

`Damaged` says which texts come from the text of a part by damage at any number of places, and what
the part then denotes: a comma behind the last part of a container, a word in the place of a value
or a key, a value that is deleted in front of a delimiter, and a colon that is deleted. It lists the
damages in the order of the text.
-/

namespace Resilient

namespace Json

variable {comments : Bool} {p : Position} {kind : Kind} {text original : List Char} {t next : Token}

/-- A damage, and the place where it shows. -/
inductive Damage where
  /-- A comma behind the last part of a container. -/
  | comma (span : Span)
  /-- A word in the place of a value or a key. -/
  | word (span : Span)
  /-- No value in front of a token. -/
  | value (next : Token)
  /-- No colon in front of a token. -/
  | colon (next : Token)

/-- The report of a damage. -/
def Damage.report : Damage → Diagnostic
  | comma span => .of .trailingComma span
  | word span => .of .identifierNotPermitted span
  | value next => .of (.expected "a value" next.kind.name) next.span
  | colon next => .of (.expected "':'" next.kind.name) next.span

/-- A word that is no literal. -/
def BareWord (w : List Char) : Prop :=
  WordText w ∧ w ∉ ["null".toList, "true".toList, "false".toList]

theorem BareWord.keyword?_eq_none {w : List Char} (h : BareWord w) : Lexeme.keyword? w = none := by
  obtain ⟨-, hw⟩ := h
  unfold Lexeme.keyword?
  split
  · exact absurd (by simp) hw
  · exact absurd (by simp) hw
  · exact absurd (by simp) hw
  · rfl

/-- The token of punctuation, with what separates it from its neighbours. -/
inductive MarkAt (comments : Bool) (p : Position) (kind : Kind) : List Char → Token → Prop where
  | intro {a b : List Char} {c : Char} (hc : (kind, c) ∈ punctuation) (ha : GapText comments a)
      (hb : GapText comments b) :
      MarkAt comments p kind (a ++ c :: b) (.bare kind ⟨p.after a, (p.after a).next c⟩)

/-- The first token of a value. -/
inductive Heads (comments : Bool) (p : Position) : List Char → Token → Prop where
  | scalar {s : Scalar} {t : List Char} (h : ScalarText s t) :
      Heads comments p t ⟨s.kind, ⟨p, p.after t⟩, some s⟩
  | bracket {kind : Kind} {a t : List Char} {c : Char} (hc : (kind, c) ∈ punctuation)
      (ha : GapText comments a) :
      Heads comments p (a ++ c :: t) (.bare kind ⟨p.after a, (p.after a).next c⟩)

/-- A key, or a word in its place. -/
inductive DamagedKey (p : Position) :
    List Char → List Char → List Damage → String → Prop where
  | intact {k : List Char} {key : String} (h : StringText k key) : DamagedKey p k k [] key
  | word {k w : List Char} {key : String} (h : StringText k key) (hw : BareWord w) :
      DamagedKey p k w [.word ⟨p, p.after w⟩] ""

/-- The end of a container that is not empty, with or without a comma more, and its first token. -/
inductive DamagedEnd (comments : Bool) (p : Position) (kind : Kind) :
    List Char → List Char → List Damage → Token → Prop where
  | intact {b : List Char} {t : Token} (h : MarkAt comments p kind b t) :
      DamagedEnd comments p kind b b [] t
  | comma {a b c : List Char} (ha : GapText comments a) (hb : GapText comments b)
      (h : (Terminals.text comments).mark kind c) :
      DamagedEnd comments p kind (a ++ (b ++ c)) (a ++ (',' :: (b ++ c)))
        [.comma ⟨p.after a, (p.after a).next ','⟩]
        (.bare .comma ⟨p.after a, (p.after a).next ','⟩)

/-- A part of a damaged text, and what it denotes; a member without a colon denotes nothing. -/
inductive Piece where
  | value (v : Value)
  | item (v : Value)
  | items (vs : List Value)
  | member (m : Option (String × Value))
  | members (ms : List (String × Value))

/-- The text of a part, damaged at any number of places. It begins at `p`, and `next` follows. -/
inductive Damaged (comments : Bool) : Position → Token → List Char → List Char → List Damage →
    Piece → Prop where
  | intact {p : Position} {next : Token} {t : List Char} {v : Value}
      (h : Sentence (Terminals.text comments) t (.value v)) :
      Damaged comments p next t t [] (.value v)
  | word {p : Position} {next : Token} {t w : List Char} {v : Value}
      (h : Sentence (Terminals.text comments) t (.value v)) (hw : BareWord w) :
      Damaged comments p next t w [.word ⟨p, p.after w⟩] (.value .null)
  | array {p : Position} {next u : Token} {a t t' b b' : List Char} {ds es : List Damage}
      {vs : List Value} (ha : (Terminals.text comments).mark .leftBracket a)
      (h : Damaged comments (p.after a) u t t' ds (.items vs))
      (hb : DamagedEnd comments ((p.after a).after t') .rightBracket b b' es u) :
      Damaged comments p next (a ++ (t ++ b)) (a ++ (t' ++ b')) (ds ++ es) (.value (.array vs))
  | object {p : Position} {next u : Token} {a t t' b b' : List Char} {ds es : List Damage}
      {ms : List (String × Value)} (ha : (Terminals.text comments).mark .leftBrace a)
      (h : Damaged comments (p.after a) u t t' ds (.members ms))
      (hb : DamagedEnd comments ((p.after a).after t') .rightBrace b b' es u) :
      Damaged comments p next (a ++ (t ++ b)) (a ++ (t' ++ b')) (ds ++ es)
        (.value (.object (Entries.lastWritten ms)))
  | item {p : Position} {next : Token} {t t' : List Char} {ds : List Damage} {v : Value}
      (h : Damaged comments p next t t' ds (.value v)) : Damaged comments p next t t' ds (.item v)
  | noItem {p : Position} {next : Token} {t : List Char} {v : Value}
      (h : Sentence (Terminals.text comments) t (.value v)) (hn : next.kind = .comma) :
      Damaged comments p next t [] [.value next] (.item .null)
  | oneItem {p : Position} {next : Token} {t t' : List Char} {ds : List Damage} {v : Value}
      (h : Damaged comments p next t t' ds (.item v)) : Damaged comments p next t t' ds (.items [v])
  | moreItems {p : Position} {next u : Token} {s s' c t t' : List Char} {ds es : List Damage}
      {vs : List Value} {v : Value} (hs : Damaged comments p u s s' ds (.items vs))
      (hc : MarkAt comments (p.after s') .comma c u)
      (h : Damaged comments ((p.after s').after c) next t t' es (.item v)) :
      Damaged comments p next (s ++ (c ++ t)) (s' ++ (c ++ t')) (ds ++ es) (.items (vs ++ [v]))
  | member {p : Position} {next : Token} {k k' c t t' : List Char} {ds es : List Damage}
      {key : String} {v : Value} (hk : DamagedKey p k k' ds key)
      (hc : (Terminals.text comments).mark .colon c)
      (h : Damaged comments ((p.after k').after c) next t t' es (.value v)) :
      Damaged comments p next (k ++ (c ++ t)) (k' ++ (c ++ t')) (ds ++ es)
        (.member (some (key, v)))
  | noValue {p : Position} {next : Token} {k k' c t : List Char} {ds : List Damage}
      {key : String} {v : Value} (hk : DamagedKey p k k' ds key)
      (hc : (Terminals.text comments).mark .colon c)
      (h : Sentence (Terminals.text comments) t (.value v)) :
      Damaged comments p next (k ++ (c ++ t)) (k' ++ c) (ds ++ [.value next])
        (.member (some (key, .null)))
  | noColon {p : Position} {next u : Token} {k a b t : List Char} {key : String} {v : Value}
      (hk : StringText k key) (ha : GapText comments a) (hb : GapText comments b)
      (h : Sentence (Terminals.text comments) t (.value v))
      (hu : Heads comments ((p.after k).after (a ++ b)) t u) :
      Damaged comments p next (k ++ ((a ++ ':' :: b) ++ t)) (k ++ ((a ++ b) ++ t)) [.colon u]
        (.member none)
  | oneMember {p : Position} {next : Token} {t t' : List Char} {ds : List Damage}
      {m : Option (String × Value)} (h : Damaged comments p next t t' ds (.member m)) :
      Damaged comments p next t t' ds (.members m.toList)
  | moreMembers {p : Position} {next u : Token} {s s' c t t' : List Char} {ds es : List Damage}
      {ms : List (String × Value)} {m : Option (String × Value)}
      (hs : Damaged comments p u s s' ds (.members ms))
      (hc : MarkAt comments (p.after s') .comma c u)
      (h : Damaged comments ((p.after s').after c) next t t' es (.member m)) :
      Damaged comments p next (s ++ (c ++ t)) (s' ++ (c ++ t')) (ds ++ es)
        (.members (ms ++ m.toList))

/-- A document that is damaged, and what it then denotes. -/
inductive DamagedDocument (comments : Bool) : List Char → List Char → List Damage → Value → Prop
    where
  | intro {before core core' behind last : List Char} {next : Token} {ds : List Damage} {v : Value}
      (hbefore : GapText comments before)
      (h : Damaged comments (Position.start.after before) next core core' ds (.value v))
      (hbehind : GapText comments behind) (hlast : LastComment comments last) :
      DamagedDocument comments (before ++ (core ++ (behind ++ last)))
        (before ++ (core' ++ (behind ++ last))) ds v

/-! ### What is damaged is a document -/

theorem MarkAt.mark (h : MarkAt comments p kind text t) :
    (Terminals.text comments).mark kind text := by
  cases h with
  | intro hc ha hb => exact ⟨_, _, _, hc, ha, hb, rfl⟩

theorem DamagedKey.exists_key {k k' : List Char} {ds : List Damage} {key : String}
    (h : DamagedKey p k k' ds key) : ∃ key, StringText k key := by
  cases h with
  | intact h => exact ⟨_, h⟩
  | word h _ => exact ⟨_, h⟩

theorem DamagedEnd.mark {b b' : List Char} {ds : List Damage}
    (h : DamagedEnd comments p kind b b' ds t) : (Terminals.text comments).mark kind b := by
  cases h with
  | intact h => exact h.mark
  | comma ha hb h =>
    obtain ⟨a', c, b', hc, ha', hb', rfl⟩ := h
    exact ⟨_, c, b', hc, ha.append (hb.append ha'), hb', by simp⟩

/-- What a piece stands for in the text before the damage. -/
def Piece.Written (comments : Bool) (text : List Char) : Piece → Prop
  | value _ | item _ => ∃ v, Sentence (Terminals.text comments) text (.value v)
  | items _ => ∃ vs, Sentence (Terminals.text comments) text (.items vs)
  | member _ => ∃ key v, Sentence (Terminals.text comments) text (.member key v)
  | members _ => ∃ ms, Sentence (Terminals.text comments) text (.members ms)

theorem written_of_damaged {ds : List Damage} {piece : Piece}
    (h : Damaged comments p next original text ds piece) : piece.Written comments original := by
  induction h with
  | intact h => exact ⟨_, h⟩
  | word h _ => exact ⟨_, h⟩
  | array ha _ hb ih =>
    obtain ⟨vs, hvs⟩ := ih
    exact ⟨_, .array ha hvs hb.mark⟩
  | object ha _ hb ih =>
    obtain ⟨ms, hms⟩ := ih
    exact ⟨_, .object ha hms hb.mark⟩
  | item _ ih => exact ih
  | noItem h _ => exact ⟨_, h⟩
  | oneItem _ ih =>
    obtain ⟨v, hv⟩ := ih
    exact ⟨_, .oneItem hv⟩
  | moreItems _ hc _ ihs ih =>
    obtain ⟨vs, hvs⟩ := ihs
    obtain ⟨v, hv⟩ := ih
    exact ⟨_, .moreItems hvs hc.mark hv⟩
  | member hk hc _ ih =>
    obtain ⟨key, hkey⟩ := hk.exists_key
    obtain ⟨v, hv⟩ := ih
    exact ⟨_, _, .member (.string hkey) hc hv⟩
  | noValue hk hc h =>
    obtain ⟨key, hkey⟩ := hk.exists_key
    exact ⟨_, _, .member (.string hkey) hc h⟩
  | noColon hk ha hb h _ =>
    have hcolon : (Kind.colon, ':') ∈ punctuation := by decide
    exact ⟨_, _, .member (.string hk) ⟨_, _, _, hcolon, ha, hb, rfl⟩ h⟩
  | oneMember _ ih =>
    obtain ⟨key, v, hv⟩ := ih
    exact ⟨_, .oneMember hv⟩
  | moreMembers _ hc _ ihs ih =>
    obtain ⟨ms, hms⟩ := ihs
    obtain ⟨key, v, hv⟩ := ih
    exact ⟨_, .moreMembers hms hc.mark hv⟩

theorem document_of_damaged {ds : List Damage} {v : Value}
    (h : DamagedDocument comments original text ds v) : ∃ w, Document comments original w := by
  cases h with
  | intro hbefore h hbehind hlast =>
    obtain ⟨w, hw⟩ := written_of_damaged h
    exact ⟨w, _, _, _, _, rfl, hbefore, hw, hbehind, hlast⟩

/-- A document without a damage is itself. -/
theorem damagedDocument_of_document {v : Value} (h : Document comments text v) :
    DamagedDocument comments text text [] v := by
  obtain ⟨before, core, behind, last, rfl, hbefore, hcore, hbehind, hlast⟩ := h
  have hd : Damaged comments (Position.start.after before) (.atEnd .start) core core []
      (.value v) := .intact hcore
  exact .intro hbefore hd hbehind hlast

/-! ### Damages are listed in the order of the text -/

/-- Where a damage is reported. -/
def Damage.offset (d : Damage) : Nat := d.report.position.offset

/-- The damages are in order, and reported between two offsets. -/
def Ordered (lo hi : Nat) (ds : List Damage) : Prop :=
  ds.Pairwise (fun d e => d.offset ≤ e.offset) ∧ ∀ d ∈ ds, lo ≤ d.offset ∧ d.offset ≤ hi

namespace Ordered

variable {lo mid hi lo' hi' : Nat} {d : Damage} {ds es : List Damage}

theorem nil : Ordered lo hi [] := ⟨.nil, by simp⟩

theorem single (hl : lo ≤ d.offset) (hh : d.offset ≤ hi) : Ordered lo hi [d] :=
  ⟨List.pairwise_singleton _ _, by simp [hl, hh]⟩

theorem mono (h : Ordered lo hi ds) (hl : lo' ≤ lo) (hh : hi ≤ hi') : Ordered lo' hi' ds := by
  refine ⟨h.1, fun d hd => ?_⟩
  have := h.2 d hd
  omega

theorem append (h : Ordered lo mid ds) (h' : Ordered mid hi es) (hl : lo ≤ mid) (hh : mid ≤ hi) :
    Ordered lo hi (ds ++ es) := by
  refine ⟨List.pairwise_append.2 ⟨h.1, h'.1, fun d hd e he => ?_⟩, fun d hd => ?_⟩
  · have := h.2 d hd
    have := h'.2 e he
    omega
  · rcases List.mem_append.1 hd with hd | hd
    · have := h.2 d hd
      omega
    · have := h'.2 d hd
      omega

end Ordered

theorem MarkAt.offset_le (h : MarkAt comments p kind text t) :
    p.offset ≤ t.span.start.offset ∧ t.span.start.offset ≤ (p.after text).offset := by
  cases h with
  | @intro a b c =>
    rw [Position.after_append]
    exact ⟨Position.offset_le_after p a, Position.offset_le_after _ (c :: b)⟩

theorem Heads.offset_le (h : Heads comments p text t) :
    p.offset ≤ t.span.start.offset ∧ t.span.start.offset ≤ (p.after text).offset := by
  cases h with
  | scalar _ => exact ⟨Nat.le_refl _, Position.offset_le_after p _⟩
  | @bracket k a t c =>
    rw [Position.after_append]
    exact ⟨Position.offset_le_after p a, Position.offset_le_after _ (c :: t)⟩

theorem DamagedKey.ordered {k k' : List Char} {ds : List Damage} {key : String}
    (h : DamagedKey p k k' ds key) : Ordered p.offset (p.after k').offset ds := by
  cases h with
  | intact _ => exact .nil
  | word _ _ => exact .single (Nat.le_refl _) (Position.offset_le_after p _)

theorem DamagedEnd.ordered {b b' : List Char} {ds : List Damage}
    (h : DamagedEnd comments p kind b b' ds t) :
    p.offset ≤ t.span.start.offset ∧ t.span.start.offset ≤ (p.after b').offset ∧
      Ordered t.span.start.offset (p.after b').offset ds := by
  cases h with
  | intact h => exact ⟨h.offset_le.1, h.offset_le.2, .nil⟩
  | @comma a b c =>
    have hle := Position.offset_le_after (p.after a) (',' :: (b ++ c))
    rw [Position.after_append]
    exact ⟨Position.offset_le_after p a, hle, .single (Nat.le_refl _) hle⟩

/-- The damages of a piece are reported from its beginning up to the token that follows. -/
def Piece.Ordered (p : Position) (text : List Char) (next : Token) (ds : List Damage) :
    Piece → Prop
  | value _ => Json.Ordered p.offset (p.after text).offset ds
  | _ => (p.after text).offset ≤ next.span.start.offset →
      Json.Ordered p.offset next.span.start.offset ds

theorem ordered_of_damaged {ds : List Damage} {piece : Piece}
    (h : Damaged comments p next original text ds piece) : piece.Ordered p text next ds := by
  induction h with
  | intact _ => exact .nil
  | word _ _ => exact .single (Nat.le_refl _) (Position.offset_le_after _ _)
  | @array p next u a t t' b b' ds es vs _ _ hb ih
  | @object p next u a t t' b b' ds es vs _ _ hb ih =>
    obtain ⟨hlo, hhi, he⟩ := hb.ordered
    have ha := Position.offset_le_after p a
    have ht := Position.offset_le_after (p.after a) t'
    simp only [Piece.Ordered, Position.after_append]
    exact ((ih hlo).mono ha (Nat.le_refl _)).append he (by omega) hhi
  | item _ ih => exact fun hn => ih.mono (Nat.le_refl _) hn
  | noItem _ _ => exact fun hn => .single hn (Nat.le_refl _)
  | oneItem _ ih | oneMember _ ih => exact ih
  | @moreItems p next u s s' c t t' ds es vs v _ hc _ ihs ih
  | @moreMembers p next u s s' c t t' ds es ms m _ hc _ ihs ih =>
    intro hn
    simp only [Position.after_append] at hn
    obtain ⟨hlo, hhi⟩ := hc.offset_le
    have hs := Position.offset_le_after p s'
    have ht := Position.offset_le_after ((p.after s').after c) t'
    exact (ihs hlo).append ((ih hn).mono hhi (Nat.le_refl _)) (by omega) (by omega)
  | @member p next k k' c t t' ds es key v hk _ _ ih =>
    intro hn
    simp only [Position.after_append] at hn
    have hk' := Position.offset_le_after p k'
    have hc := Position.offset_le_after (p.after k') c
    have ht := Position.offset_le_after ((p.after k').after c) t'
    exact hk.ordered.append (ih.mono hc hn) hk' (by omega)
  | @noValue p next k k' c t ds key v hk _ _ =>
    intro hn
    simp only [Position.after_append] at hn
    have hk' := Position.offset_le_after p k'
    have hc := Position.offset_le_after (p.after k') c
    have hnext : (Damage.value next).offset = next.span.start.offset := rfl
    exact hk.ordered.append (.single (by omega) (by omega)) hk' (by omega)
  | @noColon p next u k a b t key v _ _ _ _ hu =>
    intro hn
    rw [Position.after_append, Position.after_append] at hn
    have hk := Position.offset_le_after p k
    have hgap := Position.offset_le_after (p.after k) (a ++ b)
    have hcolon : (Damage.colon u).offset = u.span.start.offset := rfl
    obtain ⟨hlo, hhi⟩ := hu.offset_le
    exact .single (by omega) (by omega)

theorem pairwise_of_damaged {ds : List Damage} {v : Value}
    (h : DamagedDocument comments original text ds v) :
    (ds.map Damage.report).Pairwise fun d e => d.position.offset ≤ e.position.offset := by
  cases h with
  | intro _ h _ _ => exact List.pairwise_map.2 (ordered_of_damaged h).1

end Json

end Resilient
