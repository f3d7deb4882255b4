import Resilient.Proofs.Json.Nesting

/-!
# The search for a delimiter

A search takes nested scans as a whole and ends at the first delimiter outside all brackets
(`Search.passes`). Apart from what is reported, every token that fits nowhere begins a search.
-/

namespace Resilient

namespace Json

variable {limits : Limits} {P : Kind → Prop} {x y : State} {s : Scan} {ss ss' : List Scan}
  {st : List Frame} {g : Group} {t : Token} {r : List Diagnostic} {n : Nat}

/-! ### Skipping -/

/-- The modes of a search, by the number of brackets around the next token, and the kinds that it
takes outside all brackets. -/
structure Search (limits : Limits) (st : List Frame) (m : Nat → Mode) (Q : Kind → Prop) : Prop where
  opener : ∀ k : Kind, k.opens = true → Q k
  skip : ∀ n c t, stops t n = false → (n = 0 → Q t.kind) →
    react limits (m n) st c t = .consume (m (nest t n)) st

theorem search_value (limits : Limits) (st : List Frame) :
    Search limits st .seekValue fun _ => True where
  opener _ _ := trivial
  skip n c t ht _ := by simp [react, seekValue, ht]

theorem search_separator (limits : Limits) (g : Group) (st : List Frame) :
    Search limits st (fun n => .seekSeparator n g) fun _ => True where
  opener _ _ := trivial
  skip n c t ht _ := by simp [react, seekSeparator, ht]

theorem search_colon (limits : Limits) (done : Entries Value) (st : List Frame) :
    Search limits st (fun n => .seekColon n done) (· ≠ .colon) where
  opener k hk := by
    rintro rfl
    cases hk
  skip n c t ht hQ := by
    have h : ¬ ((n = 0 && t.kind = .colon) || stops t n) = true := by
      simpa [ht] using hQ
    simp only [react, seekColon]
    rw [if_neg h]

theorem stops_of_plain (hc : t.kind.closes = false) (he : t.kind ≠ .eof)
    (hn : n = 0 → t.kind ≠ .comma) : stops t n = false := by
  simpa [stops, hc, he] using hn

theorem stops_of_opener (h : t.kind.opens = true) (n : Nat) : stops t n = false := by
  obtain ⟨hc, he, hk⟩ := plain_of_opens h
  exact stops_of_plain hc he fun _ => hk

theorem stops_succ (he : t.kind ≠ .eof) (n : Nat) : stops t (n + 1) = false := by
  simp [stops, he]

theorem ne_colon_of_stops (h : stops t n = true) : t.kind ≠ .colon := by
  intro hk
  simp [stops, hk, Kind.closes] at h

theorem ne_eof_of_closes {k : Kind} (h : k.closes = true) : k ≠ .eof := by
  rintro rfl
  cases h

/-- A search takes nested scans without a report of its own. -/
theorem Search.passes {m : Nat → Mode} {Q : Kind → Prop} (hm : Search limits st m Q)
    (h : Nested P ss) (hn : n = 0 → ∀ k, P k → k ≠ .comma ∧ Q k) (c : Bool) :
    ∃ c', Passes limits ⟨m n, st, c⟩ ss (found ss) ⟨m n, st, c'⟩ := by
  induction h generalizing n c with
  | nil => exact ⟨c, .nil⟩
  | @plain P s ss ho hc he hp h ih =>
    have hs : react limits (m n) st c s.token = .consume (m (nest s.token n)) st :=
      hm.skip n c s.token (stops_of_plain hc he fun h0 => (hn h0 _ hp).1) fun h0 => (hn h0 _ hp).2
    rw [nest_of_plain ho hc] at hs
    obtain ⟨c', hss⟩ := ih hn false
    exact ⟨c', by simpa using (passes_of_react hs).append hss⟩
  | @group P a b body ss hab hbody h ihbody ih =>
    obtain ⟨ha, hbo, hbc⟩ := opens_closes_of_mem hab
    have hopen : react limits (m n) st c a.token = .consume (m (nest a.token n)) st :=
      hm.skip n c a.token (stops_of_opener ha n) fun _ => hm.opener _ ha
    rw [nest_of_opener ha] at hopen
    obtain ⟨c₁, hin⟩ := ihbody (n := n + 1) (by simp) false
    have hclose : react limits (m (n + 1)) st c₁ b.token = .consume (m (nest b.token (n + 1))) st :=
      hm.skip (n + 1) c₁ b.token (stops_succ (ne_eof_of_closes hbc) n) (by simp)
    rw [nest_of_closer hbo hbc] at hclose
    obtain ⟨c₂, hss⟩ := ih hn false
    have hp := (passes_of_react hopen).append (hin.append ((passes_of_react hclose).append hss))
    exact ⟨c₂, by simpa using hp⟩

/-! ### What begins a search -/

theorem move_separate (t : Token) (c c' : Bool) (g : Group) (st : List Frame) :
    (separate t c g st).move = (separate t c' g st).move := by
  rw [separate.eq_def, separate.eq_def t c']
  split_ifs <;> rfl

theorem move_seekSeparator (t : Token) (c c' : Bool) (g : Group) (st : List Frame) :
    (separate t c g st).move = (seekSeparator t c' 0 g st).move := by
  rw [seekSeparator]
  split_ifs with h
  · exact move_separate t c c' g st
  · simp only [stops, decide_true, Bool.true_and, Bool.or_eq_true, decide_eq_true_eq, not_or] at h
    obtain ⟨he, hcomma, hc⟩ := h
    have hg : t.kind ≠ g.closer := fun h => hc (by rw [h, closes_closer])
    rw [separate.eq_def]
    simp [he, hcomma, hc, hg]

/-- Behind a value every token is met as on the way to a separator. -/
theorem agree_ended (limits : Limits) (v : Value) (f : Frame) (st : List Frame) (c : Bool)
    (t : Token) :
    Automaton.State.Agree (react limits) ⟨.ended v, f :: st, c⟩
      ⟨.seekSeparator 0 (f.fill v), st, false⟩ t :=
  move_seekSeparator t c false (f.fill v) st

theorem move_colonAt (h : t.kind ≠ .colon) (c c' : Bool) (done : Entries Value)
    (key : Option String) (st : List Frame) :
    (colonAt t c done key st).move = (seekSeparator t c' 0 (.object done) st).move := by
  have hsame : ∀ c, (seekSeparator t c 0 (.object done) st).move =
      (seekSeparator t c' 0 (.object done) st).move := fun c =>
    (move_seekSeparator t c c _ st).symm.trans (move_seekSeparator t c c' _ st)
  rw [colonAt, if_neg h]
  split_ifs
  · exact hsame true
  · exact hsame c

theorem agree_colon (limits : Limits) (h : t.kind ≠ .colon) (done : Entries Value)
    (key : Option String) (st : List Frame) (c : Bool) :
    Automaton.State.Agree (react limits) ⟨.colon done key, st, c⟩
      ⟨.seekSeparator 0 (.object done), st, false⟩ t :=
  move_colonAt h c false done key st

theorem move_seekColon (t : Token) (c c' : Bool) (n : Nat) (done : Entries Value)
    (st : List Frame) : (seekColon t c n done st).move = (seekColon t c' n done st).move := by
  rw [seekColon, seekColon]
  split_ifs
  · by_cases h : t.kind = .colon
    · simp [colonAt, h]
    · rw [move_colonAt h c false, move_colonAt h c' false]
  · rfl

theorem agree_key (limits : Limits) (hs : t.kind ≠ .string) (hi : t.kind ≠ .identifier)
    (done : Entries Value) (st : List Frame) (c : Bool) :
    Automaton.State.Agree (react limits) ⟨.key done, st, c⟩ ⟨.seekColon 0 done, st, false⟩ t := by
  have h : (keyAt t c done st).move = (seekColon t true 0 done st).move := by
    simp only [keyAt]
    rfl
  exact h.trans (move_seekColon t true false 0 done st)

/-- The end of a search for a colon, at any delimiter, is the end of the member. -/
theorem agree_seekColon (limits : Limits) (h : stops t 0 = true) (done : Entries Value)
    (st : List Frame) (c : Bool) :
    Automaton.State.Agree (react limits) ⟨.seekColon 0 done, st, c⟩
      ⟨.seekSeparator 0 (.object done), st, false⟩ t := by
  have hm : (seekColon t c 0 done st).move = (colonAt t c done none st).move := by
    rw [seekColon, h, Bool.or_true, if_pos rfl]
  exact hm.trans (move_colonAt (ne_colon_of_stops h) c false done none st)

theorem agree_value (limits : Limits) (h : beginsValue t.kind = false) (f : Frame)
    (st : List Frame) (c : Bool) :
    Automaton.State.Agree (react limits) ⟨.value, f :: st, c⟩ ⟨.seekValue 0, f :: st, false⟩ t := by
  have hm : (valueAt t c (f :: st)).move = (seekValue t true 0 (f :: st)).move := by
    revert h
    unfold valueAt beginsValue
    split <;> simp
  refine hm.trans ?_
  simp only [Automaton.State.meet, react, seekValue]
  split_ifs
  · exact move_separate t true false (f.fill .null) st
  · rfl

/-- The end of a search for a value, at any delimiter, is the end of the part. -/
theorem agree_seekValue (limits : Limits) (h : stops t 0 = true) (f : Frame) (st : List Frame)
    (c : Bool) :
    Automaton.State.Agree (react limits) ⟨.seekValue 0, f :: st, c⟩
      ⟨.seekSeparator 0 (f.fill .null), st, false⟩ t := by
  have hm : (seekValue t c 0 (f :: st)).move = (separate t c (f.fill .null) st).move := by
    rw [seekValue, if_pos h]
    rfl
  exact hm.trans (move_seekSeparator t c false (f.fill .null) st)

end Json

end Resilient
