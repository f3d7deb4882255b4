import Resilient.Proofs.Json.Search

/-!
# Bracket groups are read as a whole

Whatever stands between properly nested brackets, the automaton enters a group at its opening
bracket and leaves it at its closing one, with one part for each slot (`closes`). A slot that is a
sentence is read as what the sentence denotes.
-/

namespace Resilient

namespace Json

variable {limits : Limits} {P : Kind → Prop} {x y : State} {s a b e : Scan}
  {ss slot body : List Scan} {st : List Frame} {g g' : Group} {f : Frame} {t : Token}
  {r : List Diagnostic} {done : Entries Value}

/-! ### Slots -/

/-- Behind the scans a delimiter is met as behind a part of the container. -/
def Yields (limits : Limits) (x : State) (ss : List Scan) (g : Group) (st : List Frame) : Prop :=
  ∃ r z, Passes limits x ss r z ∧ ∀ t, stops t 0 = true →
    z.Agree (react limits) ⟨.seekSeparator 0 g, st, false⟩ t

theorem Yields.nil (h : ∀ t, stops t 0 = true →
    x.Agree (react limits) ⟨.seekSeparator 0 g, st, false⟩ t) : Yields limits x [] g st :=
  ⟨[], x, .nil, h⟩

theorem Yields.passes_append (hp : Passes limits x ss r y) (h : Yields limits y slot g st) :
    Yields limits x (ss ++ slot) g st := by
  obtain ⟨r', z, hz, ht⟩ := h
  exact ⟨r ++ r', z, hp.append hz, ht⟩

theorem Yields.of_agree (h : Yields limits y (s :: ss) g st)
    (hs : x.Agree (react limits) y s.token) : Yields limits x (s :: ss) g st := by
  obtain ⟨r, z, hz, ht⟩ := h
  obtain ⟨r', hx⟩ := hz.of_agree hs
  exact ⟨r', z, hx, ht⟩

theorem Yields.passes (h : Yields limits x slot g st) (hs : stops s.token 0 = true)
    {mode : Mode} {st' : List Frame}
    (hm : (separate s.token false g st).move = .consume mode st') :
    ∃ r, Passes limits x (slot ++ [s]) r ⟨mode, st', false⟩ := by
  obtain ⟨r, z, hz, ht⟩ := h
  have hmove : (z.meet (react limits) s.token).move = .consume mode st' :=
    (ht _ hs).trans ((move_seekSeparator s.token false false g st).symm.trans hm)
  obtain ⟨r', hend⟩ := Automaton.Passes.of_consume hmove .nil
  exact ⟨r ++ r', hz.append hend⟩

theorem Yields.passes_comma (h : Yields limits x slot g st) (hs : s.token.kind = .comma) :
    ∃ r, Passes limits x (slot ++ [s]) r ⟨.separated g s.token.span, st, false⟩ :=
  h.passes (by simp [stops, hs]) (congrArg Turn.move (separate_comma hs false g st))

theorem Yields.passes_closer (h : Yields limits x slot g st) (hs : s.token.kind = g.closer) :
    ∃ r, Passes limits x (slot ++ [s]) r ⟨.ended g.value, st, false⟩ :=
  h.passes (by simp [stops, hs, closes_closer]) (congrArg Turn.move (separate_closer hs false st))

theorem yields_of_seekSeparator (h : Slot slot) (g : Group) (st : List Frame) (c : Bool) :
    Yields limits ⟨.seekSeparator 0 g, st, c⟩ slot g st := by
  obtain ⟨c', hp⟩ := (search_separator limits g st).passes (n := 0) h
    (fun _ k hk => ⟨hk, trivial⟩) c
  refine ⟨_, _, hp, fun t ht => ?_⟩
  simp only [Automaton.State.Agree, Automaton.State.meet, react, seekSeparator, ht, if_true]
  exact move_separate t c' false g st

theorem yields_of_ended (h : Slot slot) (v : Value) (f : Frame) (st : List Frame) :
    Yields limits ⟨.ended v, f :: st, false⟩ slot (f.fill v) st := by
  cases slot with
  | nil => exact .nil fun t _ => agree_ended limits v f st false t
  | cons s ss =>
    exact (yields_of_seekSeparator h _ st false).of_agree (agree_ended limits v f st false s.token)

theorem yields_of_seekValue (h : Slot slot) (f : Frame) (st : List Frame) :
    Yields limits ⟨.seekValue 0, f :: st, false⟩ slot (f.fill .null) st := by
  obtain ⟨c', hp⟩ := (search_value limits (f :: st)).passes (n := 0) h
    (fun _ k hk => ⟨hk, trivial⟩) false
  exact ⟨_, _, hp, fun t ht => agree_seekValue limits ht f st c'⟩

/-! ### What a slot makes of a container -/

/-- The value is what the slot denotes, if it is a sentence. -/
def ValueOf (slot : List Scan) (v : Value) : Prop :=
  ∀ w, Sentence Terminals.scan slot (.value w) → v = w

/-- The string that the slot begins with. -/
def firstString : List Scan → Option String
  | [] => none
  | s :: _ => if s.token.kind = .string then s.token.text? else none

/-- The entries before and behind the slot: no key but the one at its beginning is written, and a
member is written if the slot is one. -/
def MemberOf (slot : List Scan) (done done' : Entries Value) : Prop :=
  (done' = done ∨ ∃ v, done' = done.insert ((firstString slot).getD "") v) ∧
    ∀ key w, Sentence Terminals.scan slot (.member key w) → done' = done.insert key w

/-- The container before and behind the slot. -/
def SlotOf (slot : List Scan) : Group → Group → Prop
  | .array done, g' => ∃ v, g' = .array (v :: done) ∧ ValueOf slot v
  | .object done, g' => ∃ done', g' = .object done' ∧ MemberOf slot done done'

/-- The container before and behind slots. -/
inductive Grows : Group → List (List Scan) → Group → Prop where
  | nil {g : Group} : Grows g [] g
  | cons {g g' h : Group} {slot : List Scan} {slots : List (List Scan)} (hs : SlotOf slot g g')
      (hr : Grows g' slots h) : Grows g (slot :: slots) h

/-- Behind the opening bracket or a comma, the scans and a closing bracket complete the container,
which has then a part for each slot. -/
def Closes (limits : Limits) (body : List Scan) : Prop :=
  ∀ g st x e, Starts g st x → e.token.kind = g.closer →
    ∃ r g', Passes limits x (body ++ [e]) r ⟨.ended g'.value, st, false⟩ ∧
      Grows g (filledSlots body) g'

theorem Nested.tail (h : Nested P (s :: ss)) (hs : s.token.kind.opens = false) : Nested P ss := by
  cases h with
  | plain _ _ _ _ h => exact h
  | group hab _ _ =>
    rw [(opens_closes_of_mem hab).1] at hs
    cases hs

theorem firstString_of_member {key : String} {w : Value}
    (h : Sentence Terminals.scan slot (.member key w)) : firstString slot = some key := by
  cases h with
  | member hk _ _ =>
    obtain ⟨s, rfl, hk, hp⟩ := hk
    simp [firstString, hk, Scalar.kind, Token.text?, hp, Scalar.text?]

theorem exists_group (h : (a.token.kind, b.token.kind) ∈ bracketPairs) :
    ∃ g : Group, g.Empty ∧ a.token.kind = g.opener ∧ b.token.kind = g.closer := by
  simp only [bracketPairs, List.mem_cons, Prod.mk.injEq, List.not_mem_nil, or_false] at h
  rcases h with ⟨ha, hb⟩ | ⟨ha, hb⟩
  · exact ⟨.array [], .inl rfl, ha, hb⟩
  · exact ⟨.object [], .inr rfl, ha, hb⟩

theorem closer_of_opener (h : a.token.kind = g.opener)
    (hab : (a.token.kind, b.token.kind) ∈ bracketPairs) : b.token.kind = g.closer := by
  obtain ⟨g', -, ha, hb⟩ := exists_group hab
  rw [hb]
  rw [ha] at h
  cases g <;> cases g' <;> simp [Group.opener, Group.closer] at h ⊢

section

variable (hc : ∀ body : List Scan, body.length < slot.length → Nested (fun _ => True) body →
  Closes limits body)

include hc

/-- A value slot is passed, whatever it holds. -/
theorem exists_yields_value (h : Slot slot) (f : Frame) (st : List Frame) :
    ∃ v, Yields limits ⟨.value, f :: st, false⟩ slot (f.fill v) st := by
  cases h with
  | nil =>
    refine ⟨.null, .nil fun t ht => ?_⟩
    have hb : beginsValue t.kind = false := by
      revert ht
      cases hk : t.kind <;> simp [stops, beginsValue, hk, Kind.closes]
    exact (agree_value limits hb f st false).trans (agree_seekValue limits ht f st false)
  | @plain _ s ss ho hcl he hp h =>
    by_cases hb : beginsValue s.token.kind = true
    · have hread : ∃ v, react limits .value (f :: st) false s.token =
          .consume (.ended v) (f :: st) := by
        revert hb ho
        simp only [react, valueAt, beginsValue]
        cases s.token.kind <;> simp [Kind.opens, Turn.consume]
      obtain ⟨v, hv⟩ := hread
      exact ⟨v, (yields_of_ended h v f st).passes_append (passes_of_react hv)⟩
    · have hs : Slot (s :: ss) := .plain ho hcl he hp h
      exact ⟨.null, (yields_of_seekValue hs f st).of_agree
        (agree_value limits (by simpa using hb) f st false)⟩
  | @group _ a b body ss hab hbody h =>
    obtain ⟨g, hg, ha, hb⟩ := exists_group hab
    obtain ⟨span, hopen⟩ := passes_opener limits hg ⟨a, rfl, ha⟩ (f :: st)
    have hlt : body.length < (a :: (body ++ b :: ss)).length := by
      simp only [List.length_cons, List.length_append]
      omega
    obtain ⟨r, g', hin, -⟩ := hc body hlt hbody g (f :: st) _ b (.opened span) hb
    have hp := (yields_of_ended h g'.value f st).passes_append (hopen.append hin)
    exact ⟨g'.value, by simpa using hp⟩

/-- Behind a key, a colon and a value slot write the key; anything else writes nothing. -/
theorem exists_yields_colon (h : Slot slot) (done : Entries Value) (key : Option String)
    (st : List Frame) :
    ∃ done', Yields limits ⟨.colon done key, st, false⟩ slot (.object done') st ∧
      (done' = done ∨ ∃ v, done' = done.insert (key.getD "") v) := by
  cases slot with
  | nil =>
    have hy : Yields limits ⟨.colon done key, st, false⟩ [] (.object done) st :=
      .nil fun t ht => agree_colon limits (ne_colon_of_stops ht) done key st false
    exact ⟨done, hy, .inl rfl⟩
  | cons s ss =>
    by_cases hs : s.token.kind = .colon
    · have hcolon : react limits (.colon done key) st false s.token =
          .consume .value (.member done (key.getD "") :: st) := by
        simp [react, colonAt, hs]
      have htail : Slot ss := h.tail (by rw [hs]; rfl)
      obtain ⟨v, hv⟩ := exists_yields_value (fun body hb => hc body (hb.trans (by simp))) htail
        (.member done (key.getD "")) st
      exact ⟨_, hv.passes_append (passes_of_react hcolon), .inr ⟨v, rfl⟩⟩
    · exact ⟨done, (yields_of_seekSeparator h _ st false).of_agree
        (agree_colon limits hs done key st false), .inl rfl⟩

/-- On the way to a colon: a colon and a value slot write the empty key. -/
theorem exists_yields_seekColon (h : Slot slot) (done : Entries Value) (st : List Frame) :
    ∃ done', Yields limits ⟨.seekColon 0 done, st, false⟩ slot (.object done') st ∧
      (done' = done ∨ ∃ v, done' = done.insert "" v) := by
  rcases h.cut .colon with h | ⟨pre, s, post, rfl, hpre, hs, hpost⟩
  · obtain ⟨c, hp⟩ := (search_colon limits done st).passes (n := 0) h (fun _ k hk => hk) false
    exact ⟨done, ⟨_, _, hp, fun t ht => agree_seekColon limits ht done st c⟩, .inl rfl⟩
  · obtain ⟨c, hp⟩ := (search_colon limits done st).passes (n := 0) hpre (fun _ k hk => hk) false
    have hcolon : react limits (.seekColon 0 done) st c s.token =
        .consume .value (.member done "" :: st) := by
      simp [react, seekColon, colonAt, hs]
    have hlt : post.length < (pre ++ s :: post).length := by
      simp only [List.length_append, List.length_cons]
      omega
    obtain ⟨v, hv⟩ := exists_yields_value (fun body hb => hc body (hb.trans hlt)) hpost
      (.member done "") st
    have hy := hv.passes_append (hp.append (passes_of_react hcolon))
    rw [List.append_assoc] at hy
    exact ⟨_, hy, .inr ⟨v, rfl⟩⟩

/-- A member slot is passed, whatever it holds; it writes no key but the one at its beginning. -/
theorem exists_yields_member (h : Slot slot) (done : Entries Value) (st : List Frame) :
    ∃ done', Yields limits ⟨.key done, st, false⟩ slot (.object done') st ∧
      (done' = done ∨ ∃ v, done' = done.insert ((firstString slot).getD "") v) := by
  cases slot with
  | nil =>
    refine ⟨done, .nil fun t ht => ?_, .inl rfl⟩
    have hk : t.kind ≠ .string ∧ t.kind ≠ .identifier := by
      constructor <;> intro hk <;> simp [stops, hk, Kind.closes] at ht
    exact (agree_key limits hk.1 hk.2 done st false).trans (agree_seekColon limits ht done st false)
  | cons s ss =>
    have hlater : ∀ body : List Scan, body.length < ss.length → Nested (fun _ => True) body →
        Closes limits body := fun body hb => hc body (hb.trans (by simp))
    by_cases hs : s.token.kind = .string
    · have hkey : react limits (.key done) st false s.token =
          .consume (.colon done s.token.text?) st := by
        simp [react, keyAt, hs]
      have htail : Slot ss := h.tail (by rw [hs]; rfl)
      obtain ⟨done', hy, hw⟩ := exists_yields_colon hlater htail done s.token.text? st
      exact ⟨done', hy.passes_append (passes_of_react hkey), by simpa [firstString, hs] using hw⟩
    · by_cases hi : s.token.kind = .identifier
      · have hkey : react limits (.key done) st false s.token = .consume (.colon done none) st := by
          simp [react, keyAt, hi]
        have htail : Slot ss := h.tail (by rw [hi]; rfl)
        obtain ⟨done', hy, hw⟩ := exists_yields_colon hlater htail done none st
        exact ⟨done', hy.passes_append (passes_of_react hkey), by simpa [firstString, hs] using hw⟩
      · obtain ⟨done', hy, hw⟩ := exists_yields_seekColon hc h done st
        exact ⟨done', hy.of_agree (agree_key limits hs hi done st false),
          by simpa [firstString, hs] using hw⟩

variable (hl : limits.depth = none)

include hl

theorem exists_value (h : Slot slot) (f : Frame) (st : List Frame) :
    ∃ v, Yields limits ⟨.value, f :: st, false⟩ slot (f.fill v) st ∧ ValueOf slot v := by
  by_cases hw : ∃ w, Sentence Terminals.scan slot (.value w)
  · obtain ⟨w, hw⟩ := hw
    have hp : Passes limits ⟨.value, f :: st, false⟩ slot (found slot) ⟨.ended w, f :: st, false⟩ :=
      passed_of_sentence hl hw (f :: st)
    refine ⟨w, ⟨_, _, hp, fun t _ => agree_ended limits w f st false t⟩, fun w' hw' => ?_⟩
    have hends := hp.unique (passed_of_sentence hl hw' (f :: st))
    cases hends
    rfl
  · obtain ⟨v, hv⟩ := exists_yields_value hc h f st
    exact ⟨v, hv, fun w h => absurd ⟨w, h⟩ hw⟩

theorem exists_member (h : Slot slot) (done : Entries Value) (st : List Frame) :
    ∃ done', Yields limits ⟨.key done, st, false⟩ slot (.object done') st ∧
      MemberOf slot done done' := by
  by_cases hw : ∃ key w, Sentence Terminals.scan slot (.member key w)
  · obtain ⟨key, w, hw⟩ := hw
    have hp : Passes limits ⟨.key done, st, false⟩ slot (found slot)
        ⟨.ended w, .member done key :: st, false⟩ := passed_of_sentence hl hw done st
    refine ⟨done.insert key w, ⟨_, _, hp, fun t _ => agree_ended limits w _ st false t⟩,
      .inr ⟨w, ?_⟩, fun key' w' hw' => ?_⟩
    · rw [firstString_of_member hw]
      rfl
    · have hends := hp.unique (passed_of_sentence hl hw' done st)
      cases hends
      rfl
  · obtain ⟨done', hy, hd⟩ := exists_yields_member hc h done st
    exact ⟨done', hy, hd, fun key w h => absurd ⟨key, w, h⟩ hw⟩

theorem exists_slotOf (h : Slot slot) (g : Group) (st : List Frame) :
    ∃ g', Yields limits (g.part st) slot g' st ∧ SlotOf slot g g' := by
  cases g with
  | array done =>
    obtain ⟨v, hy, hv⟩ := exists_value hc hl h (.item done) st
    exact ⟨_, hy, v, rfl, hv⟩
  | object done =>
    obtain ⟨done', hy, hd⟩ := exists_member hc hl h done st
    exact ⟨_, hy, done', rfl, hd⟩

end

theorem SlotOf.closer_eq (h : SlotOf slot g g') : g'.closer = g.closer := by
  cases g with
  | array done =>
    obtain ⟨v, rfl, -⟩ := h
    rfl
  | object done =>
    obtain ⟨done', rfl, -⟩ := h
    rfl

theorem Starts.passes_closer (hl : limits.depth = none) (hx : Starts g st x)
    (he : e.token.kind = g.closer) : ∃ r, Passes limits x [e] r ⟨.ended g.value, st, false⟩ := by
  refine Automaton.Passes.of_consume ?_ .nil
  cases hx with
  | opened b =>
    have h : react limits (.opened g b) st false e.token = .consume (.ended g.value) st :=
      (react_opened hl g b st false e.token).trans (if_pos he)
    exact congrArg Turn.move h
  | separated b =>
    simp only [Automaton.State.meet, react]
    rw [if_pos he]
    rfl

theorem Nested.starts_passes (hl : limits.depth = none) (h : Nested P ss) (hx : Starts g st x)
    (hs : ss = [] → s.token.kind ≠ g.closer) (hp : Passes limits (g.part st) (ss ++ [s]) r y) :
    Passes limits x (ss ++ [s]) r y := by
  cases h with
  | nil => exact hx.passes hl (hs rfl) hp
  | plain _ hc _ _ _ => exact hx.passes hl (ne_closer hc g) hp
  | group hab _ _ =>
    have ha := plain_of_opens (opens_closes_of_mem hab).1
    exact hx.passes hl (ne_closer ha.1 g) hp

/-- Nested scans are closed by the bracket of the container around them. -/
theorem closes_of_nested (hl : limits.depth = none) (body : List Scan)
    (h : Nested (fun _ => True) body) : Closes limits body := by
  -- The groups in the first slot and the slots behind it are shorter than the body.
  induction hn : body.length using Nat.strongRecOn generalizing body with
  | _ n ih =>
    subst hn
    intro g st x e hx he
    rcases h.cut .comma with hslot | ⟨slot, s, rest, rfl, hslot, hs, hrest⟩
    · have hslot : Slot body := hslot.mono fun _ h => h.2
      by_cases hb : body = []
      · subst hb
        obtain ⟨r, hp⟩ := hx.passes_closer hl he
        exact ⟨r, g, hp, .nil⟩
      · obtain ⟨g', hy, hg'⟩ := exists_slotOf (fun b hlt hb => ih _ hlt b hb rfl) hl hslot g st
        obtain ⟨r, hp⟩ := hy.passes_closer (he.trans hg'.closer_eq.symm)
        refine ⟨r, g', hslot.starts_passes hl hx (fun h => absurd h hb) hp, ?_⟩
        rw [filledSlots_of_slot hslot hb]
        exact .cons hg' .nil
    · have hslot : Slot slot := hslot.mono fun _ h => h.2
      have hlt : slot.length < (slot ++ s :: rest).length := by simp
      have hlt' : rest.length < (slot ++ s :: rest).length := by
        simp only [List.length_append, List.length_cons]
        omega
      obtain ⟨g₁, hy, hg₁⟩ :=
        exists_slotOf (fun b hb' hb => ih _ (hb'.trans hlt) b hb rfl) hl hslot g st
      obtain ⟨r₁, hp⟩ := hy.passes_comma hs
      have hcomma : s.token.kind ≠ g.closer := ne_closer (by rw [hs]; rfl) g
      have hp := hslot.starts_passes hl hx (fun _ => hcomma) hp
      obtain ⟨r₂, g₂, hp₂, hg₂⟩ :=
        ih _ hlt' rest hrest rfl g₁ st _ e (.separated s.token.span) (he.trans hg₁.closer_eq.symm)
      refine ⟨r₁ ++ r₂, g₂, by simpa using hp.append hp₂, ?_⟩
      rw [filledSlots_append_comma hslot hs]
      exact .cons hg₁ hg₂

end Json

end Resilient
