import Resilient.Proofs.Json.Framing
import Resilient.Proofs.Json.Recovery
import Resilient.Proofs.Json.Reports
import Resilient.Proofs.Json.Truncation

/-!
# The bound on depth

`entered` lists the containers that reading enters inside a number of others. A bound on depth cuts
off just these: on a text with properly nested brackets the value is the one of free reading cut off
at the bound, each of these containers is reported once, and what else is reported is what free
reading reports, but for the syntax inside them (`bound_only_truncates`).
-/

namespace Resilient

/-- Is it the report of a container that stands too deep? -/
def Diagnostic.isDepth (d : Diagnostic) : Bool :=
  match d.fault with
  | .maxDepthExceeded _ => true
  | _ => false

namespace Json

/-- The same options with another bound on depth. -/
def Options.withDepth (o : Options) (depth : Option Nat) : Options :=
  { o with limits := { o.limits with depth := depth } }

/-! ### Containers that are entered -/

/-- A container of a text, by its brackets. -/
structure Container where
  opener : Span
  closer : Span

namespace Container

/-- Does a place lie behind the opening bracket and not behind the closing one? -/
def holds (k : Container) (p : Position) : Bool :=
  k.opener.stop.offset ≤ p.offset && p.offset < k.closer.stop.offset

/-- The report that the container stands too deep. -/
def report (max : Nat) (k : Container) : Diagnostic := .of (.maxDepthExceeded max) k.opener

theorem not_holds {k : Container} {p : Position}
    (h : p.offset < k.opener.stop.offset ∨ k.closer.stop.offset ≤ p.offset) :
    k.holds p = false := by
  simp only [holds, Bool.and_eq_false_iff, decide_eq_false_iff_not]
  omega

end Container

/-- The bracket that closes the outermost of `nesting` open ones. -/
def closing (nesting : Nat) : List Scan → Option Span
  | [] => none
  | s :: ss =>
    if nest s.token nesting = 0 then some s.token.span else closing (nest s.token nesting) ss

/-- The container that was entered last, if it stands inside `depth` others, with its closing
bracket among the scans left. -/
def Mode.entered? (depth : Nat) (st : List Frame) (scans : List Scan) : Mode → Option Container
  | .opened _ b => if st.length = depth then (closing 1 scans).map (Container.mk b) else none
  | _ => none

/-- The containers inside `depth` others that the automaton without a bound enters on its way. -/
def enteredFrom (depth : Nat) (mode : Mode) (st : List Frame) : List Scan → List Container
  | [] => []
  | s :: ss =>
    (mode.entered? depth st (s :: ss)).toList ++
      match (react .unlimited mode st false s.token).move with
      | .consume mode st => enteredFrom depth mode st ss
      | .finish _ _ => []

/-- The containers that reading a text without a bound on depth enters inside `depth` others. -/
def entered (source : String) (o : Options) (depth : Nat) : List Container :=
  match o.limits.exceededSize source with
  | some _ => []
  | none => enteredFrom depth .value [] (Scan.ofText o.dialect source)

/-- A report on the syntax inside one of the containers. -/
def hidden (ks : List Container) (d : Diagnostic) : Bool :=
  d.category = .syntactic && ks.any (·.holds d.position)

variable {limits : Limits} {max lo : Nat} {mode : Mode} {st : List Frame} {s e a b : Scan}
  {ss us body rest : List Scan} {ks ks' : List Container} {r r' f f' : List Diagnostic}
  {d : Diagnostic} {P : Kind → Prop} {x y : State} {g : Group} {o : Options}

/-! ### Reports of both readings -/

/-- What the bounded automaton reports, compared with what the free one does: each container once,
and all other reports but for those on the syntax inside the containers. -/
structure Cut (max : Nat) (ks : List Container) (free bounded : List Diagnostic) : Prop where
  depth : bounded.filter (·.isDepth) = ks.map (·.report max)
  others : bounded.filter (!·.isDepth) = free.filter (!hidden ks ·)

theorem isDepth_of_category (h : d.category ≠ .limit) : d.isDepth = false := by
  unfold Diagnostic.isDepth
  split
  · rename_i hf
    simp [Diagnostic.category, hf, Fault.category] at h
  · rfl

theorem hidden_of_forall (h : d.category = .syntactic → ∀ k ∈ ks, k.holds d.position = false) :
    hidden ks d = false := by
  by_cases hd : d.category = .syntactic
  · simpa [hidden, hd] using h hd
  · simp [hidden, hd]

theorem hidden_append (ks ks' : List Container) (d : Diagnostic) :
    hidden (ks ++ ks') d = (hidden ks d || hidden ks' d) := by
  simp only [hidden, List.any_append]
  cases decide (d.category = .syntactic) <;> rfl

theorem filter_hidden_of_forall (h : ∀ d ∈ f, hidden ks' d = false) :
    f.filter (!hidden (ks ++ ks') ·) = f.filter (!hidden ks ·) := by
  refine List.filter_congr fun d hd => ?_
  rw [hidden_append, h d hd, Bool.or_false]

/-- Reports one after the other, if no container of the one part hides a report of the other. -/
theorem Cut.append (h : Cut max ks f r) (h' : Cut max ks' f' r')
    (hf : ∀ d ∈ f, hidden ks' d = false) (hf' : ∀ d ∈ f', hidden ks d = false) :
    Cut max (ks ++ ks') (f ++ f') (r ++ r') where
  depth := by rw [List.filter_append, h.depth, h'.depth, List.map_append]
  others := by
    rw [List.filter_append, List.filter_append, h.others, h'.others, filter_hidden_of_forall hf]
    congr 1
    refine List.filter_congr fun d hd => ?_
    rw [hidden_append, hf' d hd, Bool.false_or]

theorem filter_isDepth (h : ∀ d ∈ f, d.category ≠ .limit) :
    f.filter (·.isDepth) = [] ∧ f.filter (!·.isDepth) = f := by
  have hd : ∀ d ∈ f, d.isDepth = false := fun d hd => isDepth_of_category (h d hd)
  exact ⟨List.filter_eq_nil_iff.2 fun d hf => by simp [hd d hf],
    List.filter_eq_self.2 fun d hf => by simp [hd d hf]⟩

/-- Without containers and without a bound the reports are the same. -/
theorem cut_self (h : ∀ d ∈ f, d.category ≠ .limit) : Cut max [] f f where
  depth := (filter_isDepth h).1
  others := by
    rw [(filter_isDepth h).2]
    exact (List.filter_eq_self.2 fun d _ => by simp [hidden]).symm

/-! ### Skipping a container -/

/-- Nested scans inside a container that stands too deep are skipped. -/
theorem passes_skip (limits : Limits) (h : Nested P ss) (k : Nat) (st : List Frame) (c : Bool) :
    ∃ c', Passes limits ⟨.skip (k + 1), st, c⟩ ss (found ss) ⟨.skip (k + 1), st, c'⟩ := by
  have hstep : ∀ (t : Token) (k : Nat) (c : Bool), t.kind ≠ .eof → nest t (k + 1) ≠ 0 →
      react limits (.skip (k + 1)) st c t = .consume (.skip (nest t (k + 1))) st := by
    intro t k c he hn
    simp [react, skipAt, he, hn]
  induction h generalizing k c with
  | nil => exact ⟨c, .nil⟩
  | @plain P s ss ho hc he hp h ih =>
    have hn := nest_of_plain ho hc (k + 1)
    have hs := hstep s.token k c he (by omega)
    rw [hn] at hs
    obtain ⟨c', hss⟩ := ih k false
    exact ⟨c', by simpa using (passes_of_react hs).append hss⟩
  | @group P a b body ss hab hbody h ihbody ih =>
    obtain ⟨ha, hbo, hbc⟩ := opens_closes_of_mem hab
    have hna := nest_of_opener ha (k + 1)
    have hnb := nest_of_closer hbo hbc (k + 1)
    have hopen := hstep a.token k c (plain_of_opens ha).2.1 (by omega)
    rw [hna] at hopen
    obtain ⟨c₁, hin⟩ := ihbody (k + 1) false
    have hclose := hstep b.token (k + 1) c₁ (ne_eof_of_closes hbc) (by omega)
    rw [hnb] at hclose
    obtain ⟨c₂, hss⟩ := ih k false
    have hp := (passes_of_react hopen).append (hin.append ((passes_of_react hclose).append hss))
    exact ⟨c₂, by simpa using hp⟩

/-- A container beyond the bound is reported behind the reports on the first scan in it, and read as
null. -/
theorem passes_beyond (hl : limits.depth = some max) (hst : max ≤ st.length)
    (h : Nested (fun _ => True) body) (hbo : b.token.kind.opens = false)
    (hbc : b.token.kind.closes = true) (g : Group) (span : Span) :
    ∃ before behind, found (body ++ [b]) = before ++ behind ∧
      Passes limits ⟨.opened g span, st, false⟩ (body ++ [b])
        (before ++ .of (.maxDepthExceeded max) span :: behind) ⟨.ended .null, st, false⟩ := by
  have hskip : ∃ c, Passes limits ⟨.skip 1, st, false⟩ body (found body) ⟨.skip 1, st, c⟩ :=
    passes_skip limits h 0 st false
  obtain ⟨c, hbody⟩ := hskip
  have hclose : react limits (.skip 1) st c b.token = .consume (.ended .null) st := by
    have hn := nest_of_closer hbo hbc 0
    simp only [Nat.zero_add] at hn
    simp [react, skipAt, ne_eof_of_closes hbc, hn]
  obtain ⟨reports, hreports, hp⟩ : ∃ r, found (body ++ [b]) = r ∧
      Passes limits ⟨.skip 1, st, false⟩ (body ++ [b]) r ⟨.ended .null, st, false⟩ :=
    ⟨_, List.flatMap_append, hbody.append (passes_of_react hclose)⟩
  rw [hreports]
  obtain ⟨s, us, hs⟩ := List.exists_cons_of_ne_nil (show body ++ [b] ≠ [] by simp)
  rw [hs] at hp ⊢
  cases hp with
  | @cons _ _ _ _ reports more mode stack hm hus =>
    have hr : (limits.reachedDepth fun _ => st.length) = some max := by
      simp [Limits.reachedDepth, hl, hst]
    have hfirst : Automaton.State.meet (react limits) ⟨.opened g span, st, false⟩ s.token =
        ⟨.of (.maxDepthExceeded max) span :: reports, .consume mode stack⟩ := by
      simp only [Automaton.State.meet, react, hr]
      exact congrArg (Turn.behind [.of (.maxDepthExceeded max) span]) hm
    exact ⟨s.reports, reports ++ more, rfl, .cons hfirst hus⟩

/-! ### Containers that are entered, along a run -/

theorem closing_append (h : Nested P ss) (n : Nat) (rest : List Scan) :
    closing (n + 1) (ss ++ rest) = closing (n + 1) rest := by
  induction h generalizing n rest with
  | nil => rfl
  | @plain P s ss ho hc he hp h ih =>
    rw [List.cons_append, closing, nest_of_plain ho hc, if_neg n.succ_ne_zero, ih]
  | @group P a b body ss hab hbody h ihbody ih =>
    obtain ⟨ha, hbo, hbc⟩ := opens_closes_of_mem hab
    have hassoc : a :: (body ++ b :: ss) ++ rest = a :: (body ++ b :: (ss ++ rest)) := by simp
    rw [hassoc, closing, nest_of_opener ha, if_neg (by omega), ihbody, closing,
      nest_of_closer hbo hbc, if_neg n.succ_ne_zero, ih]

theorem closing_nested (h : Nested P body) (hbo : b.token.kind.opens = false)
    (hbc : b.token.kind.closes = true) (rest : List Scan) :
    closing 1 (body ++ b :: rest) = some b.token.span := by
  have hn := nest_of_closer hbo hbc 0
  rw [closing_append h 0, closing]
  exact if_pos hn

theorem enteredFrom_of_ne {depth : Nat} (h : ∀ g b, mode = .opened g b → st.length ≠ depth)
    (s : Scan) (ss : List Scan) :
    enteredFrom depth mode st (s :: ss) =
      match (react .unlimited mode st false s.token).move with
      | .consume mode st => enteredFrom depth mode st ss
      | .finish _ _ => [] := by
  have hnone : mode.entered? depth st (s :: ss) = none := by
    cases mode with
    | opened g b => exact if_neg (h g b rfl)
    | _ => rfl
  rw [enteredFrom, hnone]
  rfl

/-- Inside a container no other one is entered that stands in as many. -/
theorem enteredFrom_framed (h : Passes .unlimited x ss r y) (hx : x.mode.Inner x.stack)
    (hc : x.complained = false) (below : List Frame) (rest : List Scan) :
    enteredFrom below.length x.mode (x.stack ++ below) (ss ++ rest) =
      enteredFrom below.length y.mode (y.stack ++ below) rest := by
  induction h with
  | nil => rfl
  | @cons x y s ss reports more mode stack hm _ ih =>
    have hm : react .unlimited x.mode x.stack false s.token = ⟨reports, .consume mode stack⟩ :=
      hc ▸ hm
    have hvalue : x.mode = .value → x.stack ≠ [] := by
      intro hmode
      rwa [hmode] at hx
    obtain ⟨hin, hframed⟩ := frames_react (rfl : Limits.unlimited.depth = none) false s.token hvalue
      below mode stack (congrArg Turn.move hm)
    have hdepth : ∀ g b, x.mode = .opened g b → (x.stack ++ below).length ≠ below.length := by
      intro g b hmode
      rw [hmode] at hx
      have := List.length_pos_iff.2 hx
      rw [List.length_append]
      omega
    rw [List.cons_append, enteredFrom_of_ne hdepth, hframed]
    exact ih hin rfl

/-- Behind an opening bracket, the free automaton takes the container as a whole, wherever it
stands, and enters no other one that stands in as many. -/
theorem exists_passes_container (h : Nested (fun _ => True) body)
    (hbo : b.token.kind.opens = false) (hb : b.token.kind = g.closer) (span : Span)
    (st : List Frame) :
    ∃ (r : List Diagnostic) (g' : Group),
      Passes .unlimited ⟨.opened g span, st, false⟩ (body ++ [b]) r ⟨.ended g'.value, st, false⟩ ∧
      ∀ rest, enteredFrom st.length (.opened g span) st (body ++ b :: rest) =
        ⟨span, b.token.span⟩ :: enteredFrom st.length (.ended g'.value) st rest := by
  have hbc : b.token.kind.closes = true := by rw [hb, closes_closer]
  obtain ⟨r, g', hp, -⟩ := closes_of_nested (rfl : Limits.unlimited.depth = none) body h g [] _ b
    (.opened span) hb
  refine ⟨r, g', passes_framed hp rfl (by simp) st, fun rest => ?_⟩
  have hclosing := closing_nested h hbo hbc rest
  obtain ⟨s, us, hs⟩ := List.exists_cons_of_ne_nil (show body ++ [b] ≠ [] by simp)
  have hrest : body ++ b :: rest = s :: (us ++ rest) := by
    rw [← List.cons_append, ← hs, List.append_assoc, List.singleton_append]
  rw [hs] at hp
  rw [hrest] at hclosing ⊢
  rw [enteredFrom, Mode.entered?, if_pos rfl, hclosing]
  cases hp with
  | @cons _ _ _ _ reports more mode stack hm hus =>
    have hvalue : Mode.opened g span = .value → ([] : List Frame) ≠ [] := by simp
    obtain ⟨hin, hframed⟩ := frames_react (rfl : Limits.unlimited.depth = none) false s.token hvalue
      st mode stack (congrArg Turn.move hm)
    rw [List.nil_append] at hframed
    rw [hframed]
    exact congrArg _ (enteredFrom_framed hus hin rfl st rest)

/-! ### Where the reports stand -/

/-- Scans in order whose own reports are lexical. Only the end may take no place. -/
structure Neat (scans : List Scan) : Prop where
  inOrder : Scan.InOrder scans
  lexical : ∀ s ∈ scans, ∀ d ∈ s.reports, d.category = .lexical
  ordered : ∀ s ∈ scans, s.token.span.start.offset ≤ s.token.span.stop.offset
  wide : ∀ s ∈ scans, s.token.kind ≠ .eof →
    s.token.span.start.offset < s.token.span.stop.offset

theorem neat_ofText (comments : Bool) (source : String) :
    Neat (Scan.ofText (dialect comments) source) where
  inOrder := Scan.inOrder_ofText _ source
  lexical _ hs := Scan.lexical_of_mem hs
  ordered _ hs := (Scan.isIn_of_mem hs).1.ordered
  wide _ hs he := Scan.start_lt_stop_of_mem hs (proper_dialect comments) he

theorem Neat.suffix {pre : List Scan} (h : Neat (pre ++ us)) : Neat us where
  inOrder := (List.pairwise_append.1 h.inOrder).2.1
  lexical s hs := h.lexical s (List.mem_append_right _ hs)
  ordered s hs := h.ordered s (List.mem_append_right _ hs)
  wide s hs := h.wide s (List.mem_append_right _ hs)

/-- The tokens of a container begin before its closing bracket ends. -/
theorem Neat.start_lt_stop (h : Neat (body ++ b :: rest)) (hb : b.token.kind ≠ .eof) :
    ∀ s ∈ body ++ [b], s.token.span.start.offset < b.token.span.stop.offset := by
  have hwide := h.wide b (by simp) hb
  intro s hs
  rcases List.mem_append.1 hs with hs | hs
  · have hsb := (List.pairwise_append.1 h.inOrder).2.2 s hs b (by simp)
    have hss := h.ordered s (by simp [hs])
    omega
  · rw [List.mem_singleton.1 hs]
    exact hwide

/-- Without a bound, reports on syntax stand at the token or at the comma before it. -/
theorem syntactic_react {Q : Nat → Prop} (hmode : ∀ g b, mode = .separated g b → Q b.start.offset)
    (hs : Q s.token.span.start.offset) (st : List Frame) (c : Bool) :
    ∀ d ∈ (react .unlimited mode st c s.token).reports,
      d.category = .syntactic ∧ Q d.position.offset := by
  intro d hd
  have htold := (told_react .unlimited mode st c s.token).1 d hd
  refine ⟨htold.syntactic rfl, ?_⟩
  cases htold with
  | expected wanted => exact hs
  | trailingComma g b => exact hmode g b rfl
  | maxDepthExceeded g b h => cases h

/-- The mode behind a token remembers no comma but that one. -/
theorem separated_of_react {mode' : Mode} {st' : List Frame} {c : Bool}
    (h : (react .unlimited mode st c s.token).move = .consume mode' st') {g : Group} {b : Span}
    (hmode : mode' = .separated g b) : b = s.token.span := by
  have hleaves := (told_react .unlimited mode st c s.token).2
  rw [Turn.Leaves, h] at hleaves
  exact hleaves.span (by rw [hmode]; rfl)

/-- The reports of a run of the free automaton: on syntax, at the tokens taken, and those on the
scans. -/
theorem reports_of_passes {Q : Nat → Prop} (h : Passes .unlimited x ss r y)
    (hx : ∀ g b, x.mode = .separated g b → Q b.start.offset)
    (hs : ∀ s ∈ ss, Q s.token.span.start.offset)
    (hlex : ∀ s ∈ ss, ∀ d ∈ s.reports, d.category = .lexical) :
    (∀ d ∈ r, d.category = .lexical ∨ d.category = .syntactic ∧ Q d.position.offset) ∧
      r.filter (fun d => !decide (d.category = .syntactic)) = found ss := by
  induction h with
  | nil => exact ⟨by simp, rfl⟩
  | @cons x y s ss reports more mode stack hm _ ih =>
    obtain ⟨hQ, hs⟩ := List.forall_mem_cons.1 hs
    obtain ⟨hreports, hlex⟩ := List.forall_mem_cons.1 hlex
    have hm : react .unlimited x.mode x.stack x.complained s.token =
        ⟨reports, .consume mode stack⟩ := hm
    have hturn := syntactic_react hx hQ x.stack x.complained
    rw [hm] at hturn
    obtain ⟨hmore, hfilter⟩ := ih (fun g b hmode => by
      rw [separated_of_react (congrArg Turn.move hm) hmode]
      exact hQ) hs hlex
    refine ⟨List.forall_mem_append.2 ⟨fun d hd => .inl (hreports d hd),
      List.forall_mem_append.2 ⟨fun d hd => .inr (hturn d hd), hmore⟩⟩, ?_⟩
    have hkept : s.reports.filter (fun d => !decide (d.category = .syntactic)) = s.reports :=
      List.filter_eq_self.2 fun d hd => by simp [hreports d hd]
    have hgone : reports.filter (fun d => !decide (d.category = .syntactic)) = [] :=
      List.filter_eq_nil_iff.2 fun d hd => by simp [(hturn d hd).1]
    rw [List.filter_append, List.filter_append, hkept, hgone, hfilter]
    rfl

/-- The reports of a run together with the one on a token behind the value. -/
def allReports (o : Options) (x : Outcome Value) : List Diagnostic :=
  x.reports ++ Reader.trailing ⟨o, none, x.unread, false⟩

theorem allReports_behind (o : Options) (x : Outcome Value) (r : List Diagnostic) :
    allReports o (x.behind r) = r ++ allReports o x := by
  simp [allReports, Outcome.behind]

theorem trailing_cons (o : Options) (s : Scan) (ss : List Scan) :
    ∀ d ∈ Reader.trailing ⟨o, none, s :: ss, false⟩, d = .of .trailingInput s.token.span := by
  simp only [Reader.trailing, Reader.current, List.head?_cons, Option.map_some]
  split <;> simp

/-- What a report on syntax can stand at does not stand before `lo`. -/
def From (lo : Nat) (mode : Mode) (_st : List Frame) (scans : List Scan) : Prop :=
  (∀ g b, mode = .separated g b → lo ≤ b.start.offset) ∧
    ∀ s ∈ scans, lo ≤ s.token.span.start.offset ∧ ∀ d ∈ s.reports, d.category = .lexical

theorem from_react (h : From lo mode st (s :: ss)) (c : Bool) :
    (∀ d ∈ s.reports, d.category = .syntactic → lo ≤ d.position.offset) ∧
      (∀ d ∈ (react .unlimited mode st c s.token).reports,
        d.category = .syntactic → lo ≤ d.position.offset) ∧
      (react .unlimited mode st c s.token).Leaves (fun mode st => From lo mode st ss)
        fun _ => True := by
  obtain ⟨hmode, hscans⟩ := h
  obtain ⟨⟨hlo, hlex⟩, hss⟩ := List.forall_mem_cons.1 hscans
  refine ⟨fun d hd h => ?_, fun d hd _ => (syntactic_react hmode hlo st c d hd).2, ?_⟩
  · rw [hlex d hd] at h
    cases h
  · unfold Turn.Leaves
    split
    · rename_i mode' st' hm
      refine ⟨fun g b hmode' => ?_, hss⟩
      rw [separated_of_react hm hmode']
      exact hlo
    · trivial

/-- No report on syntax in the rest of a text stands before the rest. -/
theorem le_of_mem_allReports (he : e.token.kind = .eof) (h : From lo mode st (ss ++ [e]))
    (hd : d ∈ allReports o (Automaton.run (react .unlimited) mode st false [] (ss ++ [e])))
    (hsyn : d.category = .syntactic) : lo ≤ d.position.offset := by
  have hstay : ∀ x : State, (x.meet (react .unlimited) e.token).Finishes :=
    fun x => react_eof he .unlimited x.mode x.stack x.complained
  obtain ⟨-, hreports, t, ht, rest, hrest⟩ := Automaton.run_invariant hstay
    (fun _ _ c _ _ h => from_react h c) false ss h
  rcases List.mem_append.1 hd with hd | hd
  · exact hreports d hd hsyn
  · rw [hrest] at hd
    rw [trailing_cons o _ _ d hd]
    exact (h.2 t ht).1

/-- No container that is still entered opens before the token at hand. -/
theorem le_of_mem_enteredFrom {k : Container} {depth : Nat}
    (hmode : ∀ b ∈ mode.span?, lo ≤ b.stop.offset)
    (hs : ∀ s ∈ ss, lo ≤ s.token.span.stop.offset) (hk : k ∈ enteredFrom depth mode st ss) :
    lo ≤ k.opener.stop.offset := by
  induction ss generalizing mode st with
  | nil => cases hk
  | cons s ss ih =>
    obtain ⟨hlo, hs⟩ := List.forall_mem_cons.1 hs
    rcases List.mem_append.1 hk with hk | hk
    · cases mode with
      | opened g b =>
        simp only [Mode.entered?, Option.mem_toList] at hk
        split_ifs at hk
        obtain ⟨e, -, rfl⟩ := Option.map_eq_some_iff.1 hk
        exact hmode b rfl
      | _ => cases hk
    · have hleaves := (told_react .unlimited mode st false s.token).2
      unfold Turn.Leaves at hleaves
      split at hk
      · rename_i mode' st' hm
        rw [hm] at hleaves
        refine ih (fun b hb => ?_) hs hk
        rw [hleaves.span hb]
        exact hlo
      · cases hk

/-! ### Both automata on one text -/

/-- The mode follows the last one of the scans taken. -/
def Behind (taken : List Scan) (mode : Mode) : Prop :=
  match taken.getLast? with
  | some a => mode.Follows a.token
  | none => mode = .value

theorem behind_append {pre : List Scan} : Behind (pre ++ [s]) mode ↔ mode.Follows s.token := by
  simp [Behind]

theorem Behind.exists_of_opened {b : Span} {pre : List Scan} (h : Behind pre (.opened g b)) :
    ∃ init a, pre = init ++ [a] ∧ a.token.kind = g.opener ∧ b = a.token.span := by
  rcases pre.eq_nil_or_concat with rfl | ⟨init, a, rfl⟩
  · cases h
  · rw [List.concat_eq_append, behind_append] at h
    exact ⟨init, a, List.concat_eq_append, h.2⟩

theorem Behind.exists_of_separated {b : Span} {pre : List Scan} (h : Behind pre (.separated g b)) :
    ∃ a ∈ pre, b = a.token.span := by
  rcases pre.eq_nil_or_concat with rfl | ⟨init, a, rfl⟩
  · cases h
  · rw [List.concat_eq_append, behind_append] at h
    exact ⟨a, by simp, h.2⟩

theorem behind_react {mode' : Mode} {st' : List Frame} {c : Bool}
    (h : (react limits mode st c s.token).move = .consume mode' st') (pre : List Scan) :
    Behind (pre ++ [s]) mode' := by
  have hleaves := (told_react limits mode st c s.token).2
  rw [Turn.Leaves, h] at hleaves
  exact behind_append.2 hleaves

/-- From here on the bound on depth cuts off the value and the containers beyond it, and does
nothing else. -/
def CutOff (o : Options) (max : Nat) (limits : Limits) (mode : Mode) (st : List Frame)
    (scans : List Scan) : Prop :=
  let free := Automaton.run (react .unlimited) mode st false [] scans
  let bounded := Automaton.run (react limits) (mode.truncate max st.length) (truncateStack max st)
    false [] scans
  bounded.result = free.result.truncate max ∧
    Cut max (enteredFrom max mode st scans) (allReports o free) (allReports o bounded)

theorem cutOff_cons (hl : limits.depth = some max) (hmode : mode.Within max st)
    (hopen : ∀ g b, mode = .opened g b → st.length < max)
    (hlex : ∀ d ∈ s.reports, d.category = .lexical)
    (hsep : ∀ g b, mode = .separated g b → b.start.offset ≤ s.token.span.start.offset)
    (hnext : ∀ mode' st', (react .unlimited mode st false s.token).move = .consume mode' st' →
      mode'.Within max st' → CutOff o max limits mode' st' ss ∧
        s.token.span.start.offset < s.token.span.stop.offset ∧
        ∀ u ∈ ss, s.token.span.stop.offset ≤ u.token.span.stop.offset) :
    CutOff o max limits mode st (s :: ss) := by
  obtain ⟨hreports, hmove, hwithin⟩ :=
    tracks_react (rfl : Limits.unlimited.depth = none) hl false s.token hmode hopen
  have hsyn := syntactic_react (Q := (· ≤ s.token.span.start.offset)) hsep (Nat.le_refl _) st false
  have hcategory : ∀ d ∈ s.reports ++ (react .unlimited mode st false s.token).reports,
      d.category ≠ .limit := by
    refine List.forall_mem_append.2 ⟨fun d hd => ?_, fun d hd => ?_⟩
    · simp [hlex d hd]
    · simp [(hsyn d hd).1]
  have hentered := enteredFrom_of_ne (fun g b h => Nat.ne_of_lt (hopen g b h)) s ss
  cases hm : (react .unlimited mode st false s.token).move with
  | finish v c =>
    rw [hm] at hmove hentered
    rw [CutOff, Automaton.run_finish hm, Automaton.run_finish hmove, hentered, hreports]
    refine ⟨rfl, cut_self (List.forall_mem_append.2 ⟨hcategory, fun d hd => ?_⟩)⟩
    rw [trailing_cons o _ _ d hd]
    simp [Diagnostic.of, Diagnostic.category, Fault.category]
  | consume mode' st' =>
    rw [Turn.Leaves, hm] at hwithin
    rw [hm] at hmove hentered
    obtain ⟨⟨hresult, hcut⟩, hwide, hlater⟩ := hnext mode' st' hm hwithin
    rw [CutOff, Automaton.run_consume hm, Automaton.run_consume hmove, hentered, hreports]
    refine ⟨hresult, ?_⟩
    have happend := (cut_self hcategory).append hcut (fun d hd => ?_) (fun d _ => by simp [hidden])
    · simpa [allReports] using happend
    · -- The containers that follow open at this token or behind it.
      refine hidden_of_forall fun hd' k hk => ?_
      have hleaves := (told_react .unlimited mode st false s.token).2
      rw [Turn.Leaves, hm] at hleaves
      have hopener := le_of_mem_enteredFrom (fun b hb => by rw [hleaves.span hb]) hlater hk
      rcases List.mem_append.1 hd with hd | hd
      · rw [hlex d hd] at hd'
        cases hd'
      · have hle := (hsyn d hd).2
        exact Container.not_holds (by omega)

/-- The reports on a container beyond the bound, in both readings. -/
theorem cut_container {before behind : List Diagnostic} {k : Container}
    (hfree : ∀ d ∈ f, d.category = .lexical ∨ d.category = .syntactic ∧ k.holds d.position = true)
    (hfilter : f.filter (fun d => !decide (d.category = .syntactic)) = before ++ behind) :
    Cut max [k] f (before ++ k.report max :: behind) := by
  have hlexical : ∀ d ∈ before ++ behind, d.category ≠ .limit := by
    intro d hd
    rw [← hfilter, List.mem_filter] at hd
    rcases hfree d hd.1 with h | ⟨h, -⟩
    · simp [h]
    · simp [h] at hd
  obtain ⟨hbefore, hbehind⟩ := List.forall_mem_append.1 hlexical
  obtain ⟨h₁, h₁'⟩ := filter_isDepth hbefore
  obtain ⟨h₂, h₂'⟩ := filter_isDepth hbehind
  constructor
  · rw [List.filter_append, List.filter_cons_of_pos (by rfl), h₁, h₂]
    rfl
  · have h₃ : (k.report max :: behind).filter (!·.isDepth) = behind.filter (!·.isDepth) :=
      List.filter_cons_of_neg (by simp [Container.report, Diagnostic.isDepth, Diagnostic.of])
    rw [List.filter_append, h₃, h₁', h₂', ← hfilter]
    refine List.filter_congr fun d hd => ?_
    rcases hfree d hd with h | ⟨h, hk⟩
    · simp [hidden, h]
    · simp [hidden, h, hk]

theorem cutOff_container {span : Span} (hl : limits.depth = some max) (he : e.token.kind = .eof)
    (hneat : Neat (body ++ b :: (rest ++ [e]))) (hbody : Nested (fun _ => True) body)
    (hbo : b.token.kind.opens = false) (hb : b.token.kind = g.closer)
    (hspan : ∀ s ∈ body ++ [b], span.stop.offset ≤ s.token.span.start.offset)
    (hst : st.length = max) (hnext : ∀ g' : Group, CutOff o max limits (.ended g'.value) st
      (rest ++ [e])) :
    CutOff o max limits (.opened g span) st (body ++ b :: (rest ++ [e])) := by
  have hbc : b.token.kind.closes = true := by rw [hb, closes_closer]
  have hwithin := hneat.start_lt_stop (ne_eof_of_closes hbc)
  obtain ⟨horder, hlex, hordered, -⟩ := hneat
  obtain ⟨r, g', hfree, hentered⟩ := exists_passes_container hbody hbo hb span st
  have hdeep : max ≤ (truncateStack max st).length := by simp [hst]
  obtain ⟨before, behind, hfound, hbounded⟩ :=
    passes_beyond hl hdeep hbody hbo hbc (g.truncate (max - (st.length + 1))) span
  have hsplit : body ++ b :: (rest ++ [e]) = (body ++ [b]) ++ (rest ++ [e]) := by simp
  rw [hsplit] at horder
  have hrest := (List.pairwise_append.1 horder).2.2 b (by simp)
  obtain ⟨hheld, hfilter⟩ := reports_of_passes
    (Q := fun n => span.stop.offset ≤ n ∧ n < b.token.span.stop.offset) hfree (by simp)
    (fun s hs => ⟨hspan s hs, hwithin s hs⟩)
    (fun s hs => hlex s (hsplit ▸ List.mem_append_left _ hs))
  have hcontainer : Cut max [⟨span, b.token.span⟩] r
      (before ++ .of (.maxDepthExceeded max) span :: behind) := by
    refine cut_container (fun d hd => ?_) (hfilter.trans hfound)
    simpa [Container.holds] using hheld d hd
  -- Behind the container the free automaton has a value that the bounded one takes for null.
  have hnull : (Mode.ended g'.value).truncate max st.length = .ended .null := by
    rw [Mode.truncate, hst, Nat.sub_self, truncate_value_zero]
  obtain ⟨hresult, hcut⟩ := hnext g'
  rw [hnull] at hresult hcut
  rw [CutOff, hsplit, Mode.truncate, Automaton.run_of_passes hfree,
    Automaton.run_of_passes hbounded, ← hsplit, ← hst, hentered, hst]
  refine ⟨hresult, ?_⟩
  rw [allReports_behind, allReports_behind]
  refine hcontainer.append hcut (fun d hd => ?_) (fun d hd => ?_)
  · refine hidden_of_forall fun hsyn k hk => ?_
    have hopener := le_of_mem_enteredFrom (by simp [Mode.span?])
      (fun u hu => Nat.le_trans (hrest u hu) (hordered u (hsplit ▸ List.mem_append_right _ hu))) hk
    have hle := (hheld d hd).resolve_left (by simp [hsyn])
    exact Container.not_holds (by omega)
  · refine hidden_of_forall fun hsyn k hk => ?_
    have hfrom : From b.token.span.stop.offset (.ended g'.value) st (rest ++ [e]) :=
      ⟨by simp, fun u hu => ⟨hrest u hu, hlex u (hsplit ▸ List.mem_append_right _ hu)⟩⟩
    have hle := le_of_mem_allReports he hfrom hd hsyn
    rw [List.mem_singleton.1 hk]
    exact Container.not_holds (.inr hle)

/-- On nested scans the bound cuts off the value and the containers beyond it. -/
theorem cutOff_nested (hl : limits.depth = some max) (he : e.token.kind = .eof)
    (hn : Nested (fun _ => True) ss) (hneat : Neat (ss ++ [e])) {pre : List Scan}
    (heq : ss = pre ++ us) (hmode : mode.Within max st) (hbehind : Behind pre mode) :
    CutOff o max limits mode st (us ++ [e]) := by
  -- A container beyond the bound is passed as a whole, all other tokens one by one.
  induction hlen : us.length using Nat.strongRecOn generalizing mode st pre us with
  | _ n ih =>
    subst hlen
    have hall : Neat (pre ++ (us ++ [e])) := by rwa [← List.append_assoc, ← heq]
    have hafter := (List.pairwise_append.1 hall.inOrder).2.2
    have hrest : Neat (us ++ [e]) := hall.suffix
    by_cases hcross : ∃ g b, mode = .opened g b ∧ ¬ st.length < max
    · obtain ⟨g, span, rfl, hlt⟩ := hcross
      have hst : st.length = max := Nat.le_antisymm hmode (Nat.le_of_not_lt hlt)
      obtain ⟨init, a, rfl, hopener, rfl⟩ := hbehind.exists_of_opened
      have hopens : a.token.kind.opens = true := by
        rw [hopener]
        cases g <;> rfl
      rw [List.append_assoc, List.singleton_append] at heq
      obtain ⟨body, b, rest, rfl, hbody, hab⟩ := hn.exists_closer heq hopens
      have hassoc : body ++ b :: rest ++ [e] = body ++ b :: (rest ++ [e]) := by simp
      have htaken : ss = (init ++ a :: body) ++ [b] ++ rest := by simp [heq]
      have hlt : rest.length < (body ++ b :: rest).length := by
        simp only [List.length_append, List.length_cons]
        omega
      rw [hassoc] at hafter hrest ⊢
      refine cutOff_container hl he hrest hbody (opens_closes_of_mem hab).2.1
        (closer_of_opener hopener hab) (fun s hs => hafter a (by simp) s ?_) hst fun g' =>
        ih _ hlt htaken (Nat.le_of_eq hst) (behind_append.2 trivial) rfl
      rw [← List.singleton_append, ← List.append_assoc]
      exact List.mem_append_left _ hs
    · have hopen : ∀ g b, mode = .opened g b → st.length < max :=
        fun g b h => Nat.lt_of_not_le fun hle => hcross ⟨g, b, h, Nat.not_lt.2 hle⟩
      obtain ⟨s, tail, hs⟩ := List.exists_cons_of_ne_nil (show us ++ [e] ≠ [] by simp)
      rw [hs] at hafter hrest ⊢
      refine cutOff_cons hl hmode hopen (hrest.lexical s (by simp)) (fun g b h => ?_)
        fun mode' st' hm hwithin => ?_
      · subst h
        obtain ⟨a, ha, rfl⟩ := hbehind.exists_of_separated
        exact Nat.le_trans (hall.ordered a (by simp [ha])) (hafter a ha s (by simp))
      · have hk : s.token.kind ≠ .eof := by
          intro hk
          obtain ⟨v, c, hf⟩ := react_eof hk .unlimited mode st false
          rw [hf] at hm
          cases hm
        cases us with
        | nil =>
          cases hs
          exact absurd he hk
        | cons s' us =>
          cases hs
          have htaken : ss = pre ++ [s] ++ us := by simp [heq]
          refine ⟨ih _ (by simp) htaken hwithin (behind_react hm pre) rfl, ?_, fun u hu => ?_⟩
          · exact hrest.wide s (by simp) hk
          · exact Nat.le_trans ((List.pairwise_cons.1 hrest.inOrder).1 u hu)
              (hrest.ordered u (List.mem_cons_of_mem _ hu))

/-! ### Whole texts -/

theorem react_eq_unlimited (hl : limits.depth = none) : react limits = react .unlimited := by
  funext mode st c t
  cases mode with
  | opened g b => rw [react_opened hl, react_opened (rfl : Limits.unlimited.depth = none)]
  | _ => rfl

/-- On a text whose brackets are properly nested, whatever else is malformed in it, a bound on depth
does nothing but this: the value is cut off at the bound, each container beyond it that free reading
enters is reported once, and the syntax inside these containers is not reported. -/
theorem bound_only_truncates {source : String} {o : Options} {ss : List Scan} {e : Scan} (max : Nat)
    (hscan : Scan.ofText o.dialect source = ss ++ [e]) (hnested : Nested (fun _ => True) ss) :
    (parse source (o.withDepth (some max))).1 =
        (parse source (o.withDepth none)).1.truncate max ∧
      (parse source (o.withDepth (some max))).2.filter (·.isDepth) =
        (entered source o max).map (·.report max) ∧
      (parse source (o.withDepth (some max))).2.filter (!·.isDepth) =
        (parse source (o.withDepth none)).2.filter (!hidden (entered source o max) ·) := by
  cases hsize : o.limits.exceededSize source with
  | some size =>
    have hparse : ∀ depth, parse source (o.withDepth depth) =
        (.null, [.atPoint (.maxSizeExceeded size) .start]) :=
      fun depth => parse_of_exceededSize hsize
    have hentered : entered source o max = [] := by simp [entered, hsize]
    rw [hparse, hparse, hentered]
    simp [Diagnostic.isDepth, Diagnostic.atPoint, Diagnostic.of, hidden]
  | none =>
    obtain ⟨ss', e', hscan', -, he, -⟩ := exists_scans .unlimited source o.comments
    obtain ⟨rfl, rfl⟩ := List.append_singleton_inj.1 (hscan.symm.trans hscan')
    have hneat := neat_ofText o.comments source
    rw [hscan'] at hneat
    have hcut : CutOff o max (o.withDepth (some max)).limits .value [] (ss ++ [e]) :=
      cutOff_nested rfl he hnested hneat (List.nil_append ss).symm (Nat.zero_le max) rfl
    have hentered : entered source o max = enteredFrom max .value [] (ss ++ [e]) := by
      simp [entered, hsize, hscan]
    have hparse : ∀ depth, parse source (o.withDepth depth) =
        ((Automaton.run (react (o.withDepth depth).limits) .value [] false [] (ss ++ [e])).result,
          allReports o
            (Automaton.run (react (o.withDepth depth).limits) .value [] false [] (ss ++ [e]))) := by
      intro depth
      have hdialect : Scan.ofText (o.withDepth depth).dialect source = ss ++ [e] := hscan
      have hfits : (o.withDepth depth).limits.exceededSize source = none := hsize
      rw [parse_of_fits hfits, hdialect]
      rfl
    have hfree : react (o.withDepth none).limits = react .unlimited := react_eq_unlimited rfl
    rw [hparse, hparse, hfree, hentered]
    exact ⟨hcut.1, hcut.2.depth, hcut.2.others⟩

/-- A container beyond the bound with a colon in the place of an item. -/
theorem bound_only_truncates_colon :
    ∃ ss e, Scan.ofText Options.unlimited.dialect "[[:]]" = ss ++ [e] ∧
      Nested (fun _ => True) ss ∧
      (parse "[[:]]" (Options.unlimited.withDepth (some 1))).1 =
        (parse "[[:]]" (Options.unlimited.withDepth none)).1.truncate 1 ∧
      (parse "[[:]]" (Options.unlimited.withDepth (some 1))).2.filter (·.isDepth) =
        (entered "[[:]]" .unlimited 1).map (·.report 1) ∧
      (parse "[[:]]" (Options.unlimited.withDepth (some 1))).2.filter (!·.isDepth) =
        (parse "[[:]]" (Options.unlimited.withDepth none)).2.filter
          (!hidden (entered "[[:]]" .unlimited 1) ·) := by
  have hopen : (Kind.leftBracket, '[') ∈ punctuation := by decide
  have hclose : (Kind.rightBracket, ']') ∈ punctuation := by decide
  have hcolon : (Kind.colon, ':') ∈ punctuation := by decide
  have hscan := Scan.ofText_eq_scansFrom (dialect false) "[[:]]"
  have hchars : "[[:]]".toList = ['[', '[', ':', ']', ']'] := rfl
  rw [hchars, scansFrom_punctuation hopen, scansFrom_punctuation hopen,
    scansFrom_punctuation hcolon, scansFrom_punctuation hclose, scansFrom_punctuation hclose,
    Scan.scansFrom_lastComment rfl rfl (proper_dialect false) .nil] at hscan
  have hpair : (Kind.leftBracket, Kind.rightBracket) ∈ bracketPairs := .head _
  obtain ⟨ss, e, hss, hnested⟩ : ∃ ss e,
      Scan.ofText Options.unlimited.dialect "[[:]]" = ss ++ [e] ∧ Nested (fun _ => True) ss := by
    refine ⟨[_, _, _, _, _], _, hscan, ?_⟩
    refine @Nested.group _ _ _ [_, _, _] [] hpair
      (@Nested.group _ _ _ [_] [] hpair (.plain rfl rfl ?_ trivial .nil) .nil) .nil
    simp [Token.bare]
  exact ⟨ss, e, hss, hnested, bound_only_truncates 1 hss hnested⟩

end Json

end Resilient
