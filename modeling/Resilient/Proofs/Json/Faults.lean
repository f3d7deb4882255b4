import Resilient.Proofs.Json.Damage
import Resilient.Proofs.Json.Search

/-!
# Each damage is reported once

The scans of a damaged text are taken as if nothing was wrong with the parts that are intact, and
each damage adds its own report (`parse_of_damaged`). Reading a container goes on at the delimiter
behind a damage, in the state in which an intact part would have left it.
-/

namespace Resilient

namespace Json

/-- The automaton takes these scans up to a token. -/
abbrev Leads (limits : Limits) (x : State) (ss : List Scan) (next : Token)
    (reports : List Diagnostic) (y : State) : Prop :=
  Automaton.Leads (react limits) x ss next reports y

variable {limits : Limits} {comments : Bool} {source : String} {p : Position} {kind : Kind}
  {text w : List Char} {x y : State} {s : Scan} {ss ts : List Scan} {st : List Frame}
  {g g' : Group} {f : Frame} {v : Value} {t next : Token} {r r' : List Diagnostic}

/-! ### Scans -/

theorem MarkAt.cuts (h : MarkAt comments p kind text t) (source : String)
    (hw : Cuts comments source (p.after text) w ss) :
    Cuts comments source p (text ++ w) (⟨[], t⟩ :: ss) := by
  cases h with
  | @intro a b c hc ha hb =>
    rw [Position.after_append] at hw
    rw [List.append_assoc]
    exact .gap ha (.punctuation hc (.gap hb hw))

theorem MarkAt.kind_eq (h : MarkAt comments p kind text t) : t.kind = kind := by
  cases h
  rfl

theorem Cuts.string {key : String} (h : StringText text key)
    (hw : Cuts comments source (p.after text) w ss) :
    Cuts comments source p (text ++ w)
      (⟨[], .string, ⟨p, p.after text⟩, some (.string key)⟩ :: ss) := by
  intro rest hr
  rw [List.append_assoc, scansFrom_string h, hw rest hr, Position.after_append]
  rfl

/-- Texts are scanned one after the other where whatever follows ends the first. -/
theorem Cuts.append (h : Cuts comments source p text ss) (he : ∀ rest, Ends (w ++ rest))
    (hw : Cuts comments source (p.after text) w ts) :
    Cuts comments source p (text ++ w) (ss ++ ts) := by
  intro rest hr
  rw [List.append_assoc, h _ (he rest), hw rest hr, Position.after_append, List.append_assoc]

/-- Texts are scanned one after the other where punctuation stands between them. -/
theorem MarkAt.cuts_between {s : List Char} (hm : MarkAt comments (p.after s) kind w t)
    (hs : Cuts comments source p s ss)
    (ht : Cuts comments source ((p.after s).after w) text ts) :
    Cuts comments source p (s ++ (w ++ text)) (ss ++ ⟨[], t⟩ :: ts) :=
  hs.append_mark hm.mark (hm.cuts source ht)

theorem Heads.token_eq (h : Heads comments p text t) (hc : Cuts comments source p text (s :: ss)) :
    s.token = t := by
  have hend : Ends ([] : List Char) := by simp [Ends]
  have hs := hc [] hend
  cases h with
  | scalar h =>
    rw [scansFrom_scalar h hend] at hs
    exact (congrArg Scan.token (List.cons.inj hs).1).symm
  | bracket hk ha =>
    rw [List.append_assoc, scansFrom_gap ha, List.cons_append, scansFrom_punctuation hk] at hs
    exact (congrArg Scan.token (List.cons.inj hs).1).symm

/-! ### Delimiters of a container -/

/-- A token that may stand behind a part of the container. -/
def Group.Delimits (g : Group) (t : Token) : Prop := t.kind = .comma ∨ t.kind = g.closer

theorem Group.Delimits.stops (h : g.Delimits t) : stops t 0 = true := by
  rcases h with h | h
  · simp [Json.stops, h]
  · simp [Json.stops, h, closes_closer]

/-- A delimiter is never out of place, so it does not matter whether it was reported. -/
theorem Group.Delimits.separate_eq (h : g.Delimits t) (c c' : Bool) (st : List Frame) :
    separate t c g st = separate t c' g st := by
  rcases h with h | h
  · rw [separate_comma h, separate_comma h]
  · rw [separate_closer h, separate_closer h]

/-- The state behind a part of the container. -/
abbrev Group.behind (g : Group) (st : List Frame) : State := ⟨.seekSeparator 0 g, st, false⟩

theorem Group.Delimits.meet_behind (h : g.Delimits t) (limits : Limits) (c : Bool)
    (st : List Frame) :
    (g.behind st).meet (react limits) t = separate t c g st := by
  have hm : (g.behind st).meet (react limits) t = seekSeparator t false 0 g st := rfl
  rw [hm, seekSeparator, if_pos h.stops]
  exact h.separate_eq false c st

theorem passes_comma_behind (limits : Limits) (h : s.token.kind = .comma) (g : Group)
    (st : List Frame) :
    Passes limits (g.behind st) [s] (found [s]) ⟨.separated g s.token.span, st, false⟩ := by
  have hd : g.Delimits s.token := .inl h
  apply passes_of_react
  exact (hd.meet_behind limits false st).trans (separate_comma h false g st)

theorem passes_closer_behind (limits : Limits) (h : s.token.kind = g.closer) (st : List Frame) :
    Passes limits (g.behind st) [s] (found [s]) ⟨.ended g.value, st, false⟩ := by
  have hd : g.Delimits s.token := .inr h
  apply passes_of_react
  exact (hd.meet_behind limits false st).trans (separate_closer h false st)

/-! ### Parts of a container -/

/-- The scans turn the container into another one, up to a delimiter. -/
def Grown (limits : Limits) (ss : List Scan) (next : Token) (r : List Diagnostic) (g g' : Group) :
    Prop :=
  ∀ st x, Starts g st x → g'.Delimits next → Leads limits x ss next r (g'.behind st)

theorem grown_of_leads (hl : limits.depth = none) (hs : ∀ s ∈ ss.head?, s.token.kind ≠ g.closer)
    (hn : ss = [] → next.kind ≠ g.closer)
    (h : ∀ st, g'.Delimits next → Leads limits (g.part st) ss next r (g'.behind st)) :
    Grown limits ss next r g g' := by
  intro st x hx hd
  cases ss with
  | nil =>
    obtain ⟨z, found, more, hp, hm, rfl⟩ := h st hd
    cases hp
    exact .of_meet ((hx.meet hl (hn rfl)).trans hm)
  | cons s ss => exact (h st hd).of_meet_eq (hx.meet hl (hs s rfl))

theorem leads_of_passes (h : Passes limits x ss r ⟨.ended v, f :: st, false⟩)
    (hd : (f.fill v).Delimits next) : Leads limits x ss next r ((f.fill v).behind st) :=
  (h.leads next).meet_trans (hd.meet_behind limits false st).symm

theorem grown_of_passes (hl : limits.depth = none)
    (hs : ∃ s rest, ss = s :: rest ∧ s.token.kind.closes = false)
    (h : ∀ st, Passes limits (g.part st) ss r ⟨.ended v, f :: st, false⟩) :
    Grown limits ss next r g (f.fill v) := by
  obtain ⟨s, rest, rfl, hs⟩ := hs
  refine grown_of_leads hl ?_ (by simp) fun st hd => leads_of_passes (h st) hd
  rintro _ ⟨⟩
  exact ne_closer hs g

namespace Grown

theorem passes_comma (h : Grown limits ss s.token r g g') (hs : s.token.kind = .comma)
    (hr : s.reports = []) (hx : Starts g st x) :
    Passes limits x (ss ++ [s]) r ⟨.separated g' s.token.span, st, false⟩ := by
  have hp := (h st x hx (.inl hs)).append_passes hr (passes_comma_behind limits hs g' st)
  simpa [hr] using hp

theorem passes_closer (h : Grown limits ss s.token r g g') (hs : s.token.kind = g'.closer)
    (hr : s.reports = []) (hx : Starts g st x) :
    Passes limits x (ss ++ [s]) r ⟨.ended g'.value, st, false⟩ := by
  have hp := (h st x hx (.inr hs)).append_passes hr (passes_closer_behind limits hs st)
  simpa [hr] using hp

theorem join {g₁ g₂ : Group} (h : Grown limits ss t r g g₁) (hc : MarkAt comments p .comma w t)
    (h' : Grown limits ts next r' g₁ g₂) :
    Grown limits (ss ++ ⟨[], t⟩ :: ts) next (r ++ r') g g₂ := by
  intro st x hx hd
  have hcomma := passes_comma (s := ⟨[], t⟩) h hc.kind_eq rfl hx
  have hj := Automaton.Leads.passes_append hcomma (h' st _ (.separated t.span) hd)
  simpa using hj

theorem passes_end {b b' : List Char} {ds : List Damage} (source : String)
    (h : Grown limits ss t r g g') (hend : DamagedEnd comments p g'.closer b b' ds t) :
    (∀ rest, Ends (b' ++ rest)) ∧ ∃ us, Cuts comments source p b' us ∧ ∀ st x, Starts g st x →
      Passes limits x (ss ++ us) (r ++ ds.map Damage.report) ⟨.ended g'.value, st, false⟩ := by
  cases hend with
  | intact hb =>
    refine ⟨fun rest => ends_mark hb.mark, [⟨[], t⟩], ?_, fun st x hx => ?_⟩
    · simpa using hb.cuts source .nil
    · simpa using passes_closer (s := ⟨[], t⟩) h hb.kind_eq rfl hx
  | @comma a b c ha hb hc =>
    have hcomma : (Kind.comma, ',') ∈ punctuation := by decide
    obtain ⟨z, hz, hzr, hzc⟩ := Cuts.mark source (((p.after a).next ',').after b) hc
    refine ⟨fun rest => ?_, [⟨[], .bare .comma ⟨p.after a, (p.after a).next ','⟩⟩, z], ?_,
      fun st x hx => ?_⟩
    · rw [List.append_assoc]
      exact ends_gap ha (ends_punctuation hcomma)
    · have hcut := Cuts.gap ha (Cuts.punctuation hcomma (Cuts.gap hb (hzc [] [] .nil)))
      simpa using hcut
    · have hp :=
        passes_comma (s := ⟨[], .bare .comma ⟨p.after a, (p.after a).next ','⟩⟩) h rfl rfl hx
      have hclose : Automaton.State.meet (react limits)
          ⟨.separated g' ⟨p.after a, (p.after a).next ','⟩, st, false⟩ z.token =
          (Turn.consume (.ended g'.value) st).behind
            [.of .trailingComma ⟨p.after a, (p.after a).next ','⟩] := by
        simp only [Automaton.State.meet, react]
        rw [if_pos hz]
      have hlast := Automaton.Passes.cons (s := z) hclose .nil
      have happ := hp.append hlast
      simpa [hzr, Damage.report] using happ

end Grown

/-! ### Damages -/

theorem meet_noValue (limits : Limits) (hd : (f.fill .null).Delimits t) (st : List Frame) :
    Automaton.State.meet (react limits) ⟨.value, f :: st, false⟩ t =
      (((f.fill .null).behind st).meet (react limits) t).behind [(Damage.value t).report] := by
  have hm : valueAt t false (f :: st) =
      (seekValue t true 0 (f :: st)).behind [(Damage.value t).report] := by
    have hk : beginsValue t.kind = false := by
      rcases hd with h | h
      · rw [h]
        rfl
      · rw [h]
        cases f <;> rfl
    revert hk
    unfold valueAt beginsValue
    split <;> simp [Token.expected, Damage.report]
  rw [hd.meet_behind limits true st]
  have hs : seekValue t true 0 (f :: st) = separate t true (f.fill .null) st := by
    rw [seekValue, if_pos hd.stops]
    rfl
  rw [← hs]
  exact hm

theorem meet_noColon (hb : beginsValue t.kind = true) (done : Entries Value) (key : String)
    (st : List Frame) :
    Automaton.State.meet (react limits) ⟨.colon done (some key), st, false⟩ t =
      (Automaton.State.meet (react limits) ⟨.seekSeparator 0 (.object done), st, true⟩ t).behind
        [(Damage.colon t).report] := by
  have hk : t.kind ≠ .colon := by
    intro h
    rw [h] at hb
    cases hb
  have hs : (some key).isSome = true := rfl
  simp only [Automaton.State.meet, react, colonAt]
  rw [if_neg hk, if_pos hs]
  rfl

theorem read_container {a w b b' : List Char} {es : List Damage} (hg : g.Empty)
    (ha : (Terminals.text comments).mark g.opener a) (hcut : Cuts comments source (p.after a) w ss)
    (h : Grown limits ss t r g g')
    (hb : DamagedEnd comments ((p.after a).after w) g'.closer b b' es t) :
    ∃ us, Cuts comments source p (a ++ (w ++ b')) us ∧
      (∃ s rest, us = s :: rest ∧ s.token.kind.closes = false) ∧
      ∀ st, Passes limits ⟨.value, st, false⟩ us (r ++ es.map Damage.report)
        ⟨.ended g'.value, st, false⟩ := by
  obtain ⟨hends, us, hus, hend⟩ := h.passes_end source hb
  obtain ⟨o, ho, hor, hoc⟩ := Cuts.mark source p ha
  have hopener : g.opener.closes = false := by cases g <;> rfl
  refine ⟨o :: (ss ++ us), hoc _ _ (hcut.append hends hus), ⟨o, _, rfl, by rw [ho, hopener]⟩,
    fun st => ?_⟩
  obtain ⟨span, hopen⟩ := passes_opener limits hg ⟨o, rfl, ho⟩ st
  have hp := hopen.append (hend st _ (.opened span))
  simpa [hor] using hp

theorem exists_key (limits : Limits) {k k' : List Char} {ds : List Damage} {key : String}
    (h : DamagedKey p k k' ds key) (source : String) :
    ∃ s, Cuts comments source p k' [s] ∧ s.token.kind.closes = false ∧
      ∃ key?, key?.getD "" = key ∧ ∀ done st, Passes limits ⟨.key done, st, false⟩ [s]
        (ds.map Damage.report) ⟨.colon done key?, st, false⟩ := by
  cases h with
  | intact h =>
    have hk : Terminals.scan.scalar (.string key)
        [⟨[], .string, ⟨p, p.after k⟩, some (.string key)⟩] := ⟨_, rfl, rfl, rfl⟩
    exact ⟨_, fun _ hr => scansFrom_scalar (.string h) hr, rfl, some key, rfl,
      fun done st => passes_key limits hk done st⟩
  | word h hw =>
    exact ⟨_, fun _ hr => scansFrom_word hw.1 hw.keyword?_eq_none hr, rfl, none, rfl,
      fun done st => passes_of_react rfl⟩

/-- Without a colon, the value of a member is skipped and the member is dropped. -/
theorem leads_noColon (h : Sentence Terminals.scan (s :: ss) (.value v))
    (hr : ∀ u ∈ s :: ss, u.reports = []) (done : Entries Value) (key : String)
    (hd : (Group.object done).Delimits next) (st : List Frame) :
    Leads limits ⟨.colon done (some key), st, false⟩ (s :: ss) next
      [(Damage.colon s.token).report] ((Group.object done).behind st) := by
  obtain ⟨_, _, heq, hb⟩ := exists_cons_of_sentence h
  obtain ⟨rfl, rfl⟩ := List.cons.inj heq
  -- The value is one slot, so the search that begins at its first token takes all of it.
  obtain ⟨c, hp⟩ := (search_separator limits (.object done) st).passes (n := 0)
    (slot_of_sentence h) (fun _ k hk => ⟨hk, trivial⟩) true
  have hfound : found (s :: ss) = [] := List.flatMap_eq_nil_iff.2 hr
  rw [hfound] at hp
  have hstart := hp.of_meet (meet_noColon hb done key st) (hr s (by simp))
  refine (hstart.leads next).meet_trans ?_
  have hm : Automaton.State.meet (react limits) ⟨.seekSeparator 0 (.object done), st, c⟩ next =
      seekSeparator next c 0 (.object done) st := rfl
  rw [hd.meet_behind limits c st, hm, seekSeparator, if_pos hd.stops]

/-- What the automaton makes of the scans of a piece. -/
def Piece.Read (limits : Limits) (ss : List Scan) (next : Token) (r : List Diagnostic) :
    Piece → Prop
  | value v => (∃ s rest, ss = s :: rest ∧ s.token.kind.closes = false) ∧
      ∀ st, Passes limits ⟨.value, st, false⟩ ss r ⟨.ended v, st, false⟩
  | item v => ∀ done, Grown limits ss next r (.array done) (.array (v :: done))
  | items vs => ∀ done, Grown limits ss next r (.array done) (.array (vs.reverse ++ done))
  | member m => ∀ done, Grown limits ss next r (.object done) (.object (writeAll done m.toList))
  | members ms => ∀ done, Grown limits ss next r (.object done) (.object (writeAll done ms))

/-- A damaged part is taken from its first to its last token, and each damage adds its report. -/
theorem read_of_damaged (hl : limits.depth = none) {original : List Char} {ds : List Damage}
    {piece : Piece} (h : Damaged comments p next original text ds piece) (source : String) :
    ∃ ss, Cuts comments source p text ss ∧
      piece.Read limits ss next (ds.map Damage.report) := by
  induction h with
  | @intact p next t v h =>
    obtain ⟨ss, hss, hr, hcut⟩ := clean_sentence h source p
    have hfound : found ss = [] := List.flatMap_eq_nil_iff.2 hr
    have hp : ∀ st, Passes limits ⟨.value, st, false⟩ ss (found ss) ⟨.ended v, st, false⟩ :=
      passed_of_sentence hl hss
    rw [hfound] at hp
    obtain ⟨s, rest, rfl, hb⟩ := exists_cons_of_sentence hss
    exact ⟨_, hcut, ⟨s, rest, rfl, closes_of_beginsValue hb⟩, hp⟩
  | word h hw =>
    exact ⟨[_], fun _ hr => scansFrom_word hw.1 hw.keyword?_eq_none hr, ⟨_, _, rfl, rfl⟩,
      fun st => passes_of_react rfl⟩
  | @array p next u a t t' b b' ds es vs ha h hb ih =>
    obtain ⟨ss, hcut, hread⟩ := ih
    obtain ⟨us, hus, hhead, hp⟩ := read_container (.inl rfl) ha hcut (hread []) hb
    refine ⟨us, hus, hhead, fun st => ?_⟩
    simpa [Group.value] using hp st
  | @object p next u a t t' b b' ds es ms ha h hb ih =>
    obtain ⟨ss, hcut, hread⟩ := ih
    obtain ⟨us, hus, hhead, hp⟩ := read_container (.inr rfl) ha hcut (hread []) hb
    have hw : writeAll [] ms = Entries.lastWritten ms := Entries.ofPairs_eq_lastWritten ms
    refine ⟨us, hus, hhead, fun st => ?_⟩
    simpa [Group.value, hw] using hp st
  | @item p next t t' ds v h ih =>
    obtain ⟨ss, hcut, hhead, hp⟩ := ih
    refine ⟨ss, hcut, fun done => ?_⟩
    exact grown_of_passes (g := .array done) (f := .item done) hl hhead fun st =>
      hp (.item done :: st)
  | @noItem p next t v h hn =>
    have hc : next.kind.closes = false := by rw [hn]; rfl
    refine ⟨[], .nil, fun done => grown_of_leads hl (by simp) (fun _ => ne_closer hc _) ?_⟩
    exact fun st hd => .of_meet (meet_noValue limits (f := .item done) hd st)
  | oneItem h ih => exact ih
  | @moreItems p next u s s' c t t' ds es vs v hs hc h ihs ih =>
    obtain ⟨ss, hcut, hread⟩ := ihs
    obtain ⟨ts, hcut', hread'⟩ := ih
    refine ⟨_, hc.cuts_between hcut hcut', fun done => ?_⟩
    have hj := (hread done).join hc (hread' (vs.reverse ++ done))
    simpa using hj
  | @member p next k k' c t t' ds es key v hk hc h ih =>
    obtain ⟨ss, hcut, -, hp⟩ := ih
    obtain ⟨z, hz, hzr, hzc⟩ := Cuts.mark source (p.after k') hc
    obtain ⟨x, hx, hxc, key?, rfl, hkey⟩ := exists_key limits hk source
    refine ⟨_, hx.append_mark hc (hzc _ _ hcut), fun done => ?_⟩
    refine grown_of_passes (g := .object done) (f := .member done (key?.getD "")) hl
      ⟨x, _, rfl, hxc⟩ fun st => ?_
    have hcolon := passes_colon limits ⟨z, rfl, hz⟩ done key? st
    have hmember := (hkey done st).append (hcolon.append (hp (.member done (key?.getD "") :: st)))
    simpa [hzr] using hmember
  | @noValue p next k k' c t ds key v hk hc h =>
    obtain ⟨z, hz, hzr, hzc⟩ := Cuts.mark source (p.after k') hc
    obtain ⟨x, hx, hxc, key?, rfl, hkey⟩ := exists_key limits hk source
    have hcut := hzc [] [] .nil
    rw [List.append_nil] at hcut
    refine ⟨[x] ++ [z], hx.append (fun rest => ends_mark hc) hcut, fun done => ?_⟩
    refine grown_of_leads hl ?_ (by simp) fun st hd => ?_
    · rintro _ ⟨⟩
      exact ne_closer hxc _
    · have hcolon := passes_colon limits ⟨z, rfl, hz⟩ done key? st
      have hmember := (hkey done st).append hcolon
      have hnone := Automaton.Leads.of_meet
        (meet_noValue limits (f := .member done (key?.getD "")) hd st)
      have hlast := Automaton.Leads.passes_append hmember hnone
      simpa [hzr, Frame.fill, writeAll] using hlast
  | @noColon p next u k a b t key v hk ha hb h hu =>
    obtain ⟨ss, hss, hr, hcut⟩ := clean_sentence h source ((p.after k).after (a ++ b))
    obtain ⟨s, rest, rfl, -⟩ := exists_cons_of_sentence hss
    have hu := hu.token_eq hcut
    subst hu
    refine ⟨_, Cuts.string hk (Cuts.gap (ha.append hb) hcut), fun done => ?_⟩
    refine grown_of_leads hl ?_ (by simp) fun st hd => ?_
    · rintro _ ⟨⟩
      exact ne_closer rfl _
    · have hkey := passes_key limits
        ⟨⟨[], .string, ⟨p, p.after k⟩, some (.string key)⟩, rfl, rfl, rfl⟩ done st
      exact Automaton.Leads.passes_append hkey (leads_noColon hss hr done key hd st)
  | oneMember h ih => exact ih
  | @moreMembers p next u s s' c t t' ds es ms m hs hc h ihs ih =>
    obtain ⟨ss, hcut, hread⟩ := ihs
    obtain ⟨ts, hcut', hread'⟩ := ih
    refine ⟨_, hc.cuts_between hcut hcut', fun done => ?_⟩
    have hj := (hread done).join hc (hread' (writeAll done ms))
    simpa [writeAll] using hj

/-! ### Documents -/

theorem parse_of_damaged {original : List Char} {ds : List Damage}
    (h : DamagedDocument comments original source.toList ds v) :
    parse source (Options.unlimited.withComments comments) = (v, ds.map Damage.report) := by
  generalize htext : source.toList = text at h
  cases h with
  | @intro before core core' behind last next ds v hbefore h hbehind hlast =>
    obtain ⟨ss, hcut, -, hp⟩ := read_of_damaged (rfl : Limits.unlimited.depth = none) h source
    obtain ⟨q, hscan⟩ : ∃ q, Scan.ofText (dialect comments) source = ss ++ [⟨[], .atEnd q⟩] := by
      refine ⟨(((Position.start.after before).after core').after behind).after last, ?_⟩
      rw [Scan.ofText_eq_scansFrom, htext, scansFrom_gap hbefore,
        hcut _ (ends_gap hbehind (ends_last hlast)), scansFrom_gap hbehind,
        Scan.scansFrom_lastComment rfl rfl (proper_dialect comments) hlast]
    exact parse_of_passes hscan (hp [])

/-- Each damage to a document is reported once, in the order of the text, and the value is the one
that the damaged document denotes. -/
theorem reports_each_damage {original : List Char} {ds : List Damage}
    (h : DamagedDocument comments original source.toList ds v) :
    (∃ w, Document comments original w) ∧
      parse source (Options.unlimited.withComments comments) = (v, ds.map Damage.report) ∧
      (ds.map Damage.report).Pairwise fun d e => d.position.offset ≤ e.position.offset :=
  ⟨document_of_damaged h, parse_of_damaged h, pairwise_of_damaged h⟩

/-- Among items that are kept, one is deleted and one replaced, and a comma is added. -/
theorem reports_each_damage_items :
    ∃ ds, DamagedDocument false "[\"a\",null,[],true]".toList "[\"a\",,x,true,]".toList ds
        (.array [.string "a", .null, .null, .bool true]) ∧
      parse "[\"a\",,x,true,]" .unlimited = (.array [.string "a", .null, .null, .bool true],
        [.of (.expected "a value" "','") ⟨⟨5, 1, 6⟩, ⟨6, 1, 7⟩⟩,
          .of .identifierNotPermitted ⟨⟨6, 1, 7⟩, ⟨7, 1, 8⟩⟩,
          .of .trailingComma ⟨⟨12, 1, 13⟩, ⟨13, 1, 14⟩⟩]) := by
  have hopen : (Terminals.text false).mark .leftBracket ['['] :=
    ⟨[], '[', [], by decide, .nil, .nil, rfl⟩
  have hclose : (Terminals.text false).mark .rightBracket [']'] :=
    ⟨[], ']', [], by decide, .nil, .nil, rfl⟩
  have hcomma : ∀ p, MarkAt false p .comma [','] (.bare .comma ⟨p, p.next ','⟩) := fun p =>
    MarkAt.intro (a := []) (b := []) (c := ',') (by decide) .nil .nil
  have hstring : Sentence (Terminals.text false) "\"a\"".toList (.value (.string "a")) :=
    .string (.string (.intro (.cons (.plain (by decide) (by decide) (by decide)) .nil)))
  have htrue : Sentence (Terminals.text false) "true".toList (.value (.bool true)) :=
    .bool ScalarText.true
  have hnull : Sentence (Terminals.text false) "null".toList (.value .null) :=
    .null ScalarText.null
  have hempty := Sentence.emptyArray hopen hclose
  have hword : BareWord ['x'] := ⟨.intro (by decide) (by simp), by simp⟩
  have hitems : ∀ next, Damaged false (Position.start.after ['[']) next
      ((("\"a\"".toList ++ ([','] ++ "null".toList)) ++ ([','] ++ "[]".toList)) ++
        ([','] ++ "true".toList))
      ((("\"a\"".toList ++ ([','] ++ [])) ++ ([','] ++ ['x'])) ++ ([','] ++ "true".toList))
      [.value (.bare .comma ⟨⟨5, 1, 6⟩, ⟨6, 1, 7⟩⟩), .word ⟨⟨6, 1, 7⟩, ⟨7, 1, 8⟩⟩]
      (.items [.string "a", .null, .null, .bool true]) := fun next =>
    .moreItems (.moreItems (.moreItems (.oneItem (.item (.intact hstring))) (hcomma _)
      (.noItem hnull rfl)) (hcomma _) (.item (.word hempty hword))) (hcomma _)
      (.item (.intact htrue))
  have hvalue := @Damaged.array false .start (.atEnd .start) _ _ _ _ _ _ _ _ _ hopen (hitems _)
    (.comma .nil .nil hclose)
  have hdoc : DamagedDocument false "[\"a\",null,[],true]".toList "[\"a\",,x,true,]".toList _ _ :=
    .intro .nil hvalue .nil .nil
  exact ⟨_, hdoc, (reports_each_damage hdoc).2.1⟩

end Json

end Resilient
