import Mathlib.Data.List.Forall2
import Resilient.Proofs.Automaton
import Resilient.Proofs.Source.Tokens

/-!
# Accounts of what was reported

A reader that took some tokens and has others left reported that something else was wanted about
tokens that it took, once about each at most, and about the first one left just if it holds that one
to be out of place (`Complaints`). This and the like is kept by each decision, so it is kept by
whole runs (`Automaton.run_keeps`), however many of them follow each other.
-/

namespace Resilient

namespace Diagnostic

/-- Is it the report that something else was wanted? -/
def isExpected (d : Diagnostic) : Bool :=
  match d.fault with
  | .expected _ _ => true
  | _ => false

/-- Is it a report on a comma with nothing behind it, or on a bracket that opens too deep? -/
def isRemark (d : Diagnostic) : Bool :=
  match d.fault with
  | .trailingComma | .maxDepthExceeded _ => true
  | _ => false

/-- Something else was wanted than the token. -/
def Misplaces (d : Diagnostic) (t : Token) : Prop :=
  ∃ wanted, d = .of (.expected wanted t.kind.name) t.span

/-- The token is a comma with nothing behind it. -/
def Trails (d : Diagnostic) (t : Token) : Prop :=
  t.kind = .comma ∧ d = .of .trailingComma t.span

/-- The token opens too deep. -/
def Overreaches (opens : Kind → Bool) (d : Diagnostic) (t : Token) : Prop :=
  opens t.kind = true ∧ ∃ max, d = .of (.maxDepthExceeded max) t.span

/-- The token is a comma with nothing behind it, or opens too deep. -/
def Remarks (opens : Kind → Bool) (d : Diagnostic) (t : Token) : Prop :=
  d.Trails t ∨ d.Overreaches opens t

variable {d : Diagnostic} {t : Token} {opens : Kind → Bool}

theorem isExpected_of_lexical (h : d.category = .lexical) : d.isExpected = false := by
  obtain ⟨fault, span, message⟩ := d
  cases fault with
  | expected wanted found => cases h
  | _ => rfl

theorem isRemark_of_lexical (h : d.category = .lexical) : d.isRemark = false := by
  obtain ⟨fault, span, message⟩ := d
  cases fault with
  | trailingComma | maxDepthExceeded _ => cases h
  | _ => rfl

theorem Misplaces.span (h : d.Misplaces t) : d.span = t.span := by
  obtain ⟨wanted, rfl⟩ := h
  rfl

/-- What was found tells the kind of the token. -/
theorem Misplaces.kind_eq {u : Token} (h : d.Misplaces t) (hu : d.Misplaces u) :
    t.kind = u.kind := by
  obtain ⟨wanted, rfl⟩ := h
  obtain ⟨_, hfault⟩ := hu
  exact Kind.name_injective (Fault.expected.inj (congrArg Diagnostic.fault hfault)).2

theorem Trails.span (h : d.Trails t) : d.span = t.span := by
  obtain ⟨-, rfl⟩ := h
  rfl

theorem Overreaches.span (h : d.Overreaches opens t) : d.span = t.span := by
  obtain ⟨-, max, rfl⟩ := h
  rfl

end Diagnostic

open List (SublistForall₂)

/-- The reports are on tokens of the list, at most one on each of them, in the order of the text. -/
structure OneEach (R : Diagnostic → Token → Prop) (ts : List Token) (rs : List Diagnostic) :
    Prop where
  increasing : rs.Pairwise fun d d' => d.position.offset < d'.position.offset
  on_token : ∀ d ∈ rs, ∃ t ∈ ts, R d t

section

variable {R S : Diagnostic → Token → Prop} {rs rs' : List Diagnostic} {ts ts' : List Token}

theorem sublistForall₂_append (h : SublistForall₂ R rs ts) (h' : SublistForall₂ R rs' ts') :
    SublistForall₂ R (rs ++ rs') (ts ++ ts') := by
  obtain ⟨us, hf, hs⟩ := List.sublistForall₂_iff.1 h
  obtain ⟨us', hf', hs'⟩ := List.sublistForall₂_iff.1 h'
  exact List.sublistForall₂_iff.2 ⟨us ++ us', List.rel_append hf hf', hs.append hs'⟩

theorem sublistForall₂_of_sublist (h : SublistForall₂ R rs ts) (hts : ts.Sublist ts') :
    SublistForall₂ R rs ts' := by
  obtain ⟨us, hf, hs⟩ := List.sublistForall₂_iff.1 h
  exact List.sublistForall₂_iff.2 ⟨us, hf, hs.trans hts⟩

theorem sublistForall₂_filter {p : Diagnostic → Bool} (h : SublistForall₂ R rs ts)
    (hp : ∀ d t, R d t → p d = true → S d t) : SublistForall₂ S (rs.filter p) ts := by
  induction h with
  | nil => exact .nil
  | @cons d t rs ts hdt _ ih =>
    rw [List.filter_cons]
    split_ifs with hd
    · exact .cons (hp d t hdt hd) ih
    · exact .cons_right ih
  | cons_right _ ih => exact .cons_right ih

/-- Reports of other kinds make no difference. -/
theorem filter_append_eq_left {p : Diagnostic → Bool} (h : ∀ d ∈ rs', p d = false) :
    (rs ++ rs').filter p = rs.filter p := by
  have hnone : rs'.filter p = [] := by simpa [List.filter_eq_nil_iff] using h
  rw [List.filter_append, hnone, List.append_nil]

theorem exists_of_sublistForall₂ (h : SublistForall₂ R rs ts) : ∀ d ∈ rs, ∃ t ∈ ts, R d t := by
  induction h with
  | nil => simp
  | cons hdt _ ih =>
    refine List.forall_mem_cons.2 ⟨⟨_, List.mem_cons_self, hdt⟩, fun d hd => ?_⟩
    obtain ⟨t, ht, hdt⟩ := ih d hd
    exact ⟨t, List.mem_cons_of_mem _ ht, hdt⟩
  | cons_right _ ih =>
    intro d hd
    obtain ⟨t, ht, hdt⟩ := ih d hd
    exact ⟨t, List.mem_cons_of_mem _ ht, hdt⟩

theorem oneEach_of_sublistForall₂ (h : SublistForall₂ R rs ts)
    (hspan : ∀ d t, R d t → d.span = t.span)
    (hts : ts.Pairwise fun t u => t.span.start.offset < u.span.start.offset) : OneEach R ts rs := by
  refine ⟨?_, exists_of_sublistForall₂ h⟩
  induction h with
  | nil => exact .nil
  | @cons d t rs ts hdt h ih =>
    obtain ⟨hfirst, hts⟩ := List.pairwise_cons.1 hts
    refine List.pairwise_cons.2 ⟨fun d' hd' => ?_, ih hts⟩
    obtain ⟨u, hu, hdu⟩ := exists_of_sublistForall₂ h d' hd'
    have hlt := hfirst u hu
    rwa [← hspan d t hdt, ← hspan d' u hdu] at hlt
  | cons_right _ ih => exact ih (List.pairwise_cons.1 hts).2

end

/-! ### Reports that something else was wanted -/

theorem Turn.Once.isRemark {Mode Frame Result : Type} {turn : Turn Mode Frame Result} {t : Token}
    {c : Bool} (h : turn.Once t c) : ∀ d ∈ turn.reports, d.isRemark = false := by
  intro d hd
  obtain ⟨wanted, hreports⟩ := h.eq_singleton (List.ne_nil_of_mem hd)
  rw [hreports] at hd
  rw [List.mem_singleton.1 hd]
  rfl

/-- Each report that something else was wanted is on a token taken, at most one on each of them; one
more is on the first token left if that is held to be out of place. -/
inductive Complaints (taken : List Token) : Bool → List Scan → List Diagnostic → Prop where
  | none {left : List Scan} {made : List Diagnostic}
      (h : SublistForall₂ Diagnostic.Misplaces (made.filter (·.isExpected)) taken) :
      Complaints taken false left made
  | last {s : Scan} {left : List Scan} {made early : List Diagnostic} {d : Diagnostic}
      (h : SublistForall₂ Diagnostic.Misplaces early taken) (hd : d.Misplaces s.token)
      (hmade : made.filter (·.isExpected) = early ++ [d]) : Complaints taken true (s :: left) made

namespace Complaints

variable {Mode Frame Result : Type} {turn : Turn Mode Frame Result} {taken : List Token} {c : Bool}
  {s : Scan} {left : List Scan} {made early : List Diagnostic}

theorem append (h : Complaints taken c left made) (hearly : ∀ d ∈ early, d.isExpected = false) :
    Complaints taken c left (made ++ early) := by
  cases h with
  | none h => exact .none (by rwa [filter_append_eq_left hearly])
  | last h hd hmade => exact .last h hd (by rw [filter_append_eq_left hearly, hmade])

/-- A decision on the first token left. -/
theorem decide (h : Complaints taken c (s :: left) made) (hturn : turn.Once s.token c) :
    Complaints taken (c || !turn.reports.isEmpty) (s :: left) (made ++ turn.reports) := by
  rcases hturn with hnone | ⟨wanted, hreports⟩
  · simpa [hnone] using h
  · rw [hreports]
    cases h with
    | none h =>
      refine .last h ⟨wanted, rfl⟩ ?_
      simp [Token.expected, Diagnostic.isExpected, Diagnostic.of]
    | last h hd hmade => exact .last h hd (by simpa [Token.expected] using hmade)

/-- The token is taken. -/
theorem take (h : Complaints taken c (s :: left) made) :
    Complaints (taken ++ [s.token]) false left made := by
  cases h with
  | none h => exact .none (sublistForall₂_of_sublist h (List.sublist_append_left _ _))
  | last h hd hmade =>
    refine .none ?_
    rw [hmade]
    exact sublistForall₂_append h (.cons hd .nil)

/-- The token stays, and the reports on the way to it are made. -/
theorem stay (h : Complaints taken c (s :: left) made) :
    Complaints taken c ({ s with reports := [] } :: left) made := by
  cases h with
  | none h => exact .none h
  | last h hd hmade => exact .last h hd hmade

theorem sublistForall₂ (h : Complaints taken c left made) :
    SublistForall₂ Diagnostic.Misplaces (made.filter (·.isExpected))
      (taken ++ left.map Scan.token) := by
  cases h with
  | none h => exact sublistForall₂_of_sublist h (List.sublist_append_left _ _)
  | last h hd hmade =>
    rw [hmade]
    exact sublistForall₂_append h (.cons hd .nil)

/-- A token that is held to be out of place was reported. -/
theorem exists_misplaces (h : Complaints taken true (s :: left) made) :
    ∃ d ∈ made, d.Misplaces s.token := by
  cases h with
  | last h hd hmade =>
    have hmem : _ ∈ made.filter (·.isExpected) := hmade ▸ List.mem_append_right _ List.mem_cons_self
    exact ⟨_, (List.mem_filter.1 hmem).1, hd⟩

end Complaints

/-! ### Whole runs -/

/-- The scans go on to the end of the text. -/
def Ended (scans : List Scan) : Prop := ∃ e ∈ scans.getLast?, e.token.kind = .eof

theorem Ended.tail {s : Scan} {left : List Scan} (h : Ended (s :: left))
    (hs : s.token.kind ≠ .eof) : Ended left := by
  obtain ⟨e, he, hk⟩ := h
  cases left with
  | nil =>
    cases he
    exact absurd hk hs
  | cons t left => exact ⟨e, he, hk⟩

theorem Ended.stay {s : Scan} {left : List Scan} (h : Ended (s :: left)) :
    Ended ({ s with reports := [] } :: left) := by
  obtain ⟨e, he, hk⟩ := h
  cases left with
  | nil =>
    cases he
    exact ⟨_, rfl, hk⟩
  | cons t left => exact ⟨e, he, hk⟩

namespace Automaton

variable {Mode Frame Result : Type} [Inhabited Result]
  {react : Mode → List Frame → Bool → Token → Turn Mode Frame Result}

/-- What each decision keeps is kept by a whole run: what holds of the state, of the tokens taken,
of the scans left and of the reports made. -/
theorem run_keeps (I : State Mode Frame → List Token → List Scan → List Diagnostic → Prop)
    (first : Mode) (heof : ∀ (x : State Mode Frame) t, t.kind = .eof → (x.meet react t).Finishes)
    (htake : ∀ (x : State Mode Frame) taken s left made mode stack, I x taken (s :: left) made →
      (x.meet react s.token).move = .consume mode stack →
      I ⟨mode, stack, false⟩ (taken ++ [s.token]) left
        (made ++ (s.reports ++ (x.meet react s.token).reports)))
    (hstay : ∀ (x : State Mode Frame) taken s left made result c, I x taken (s :: left) made →
      (x.meet react s.token).move = .finish result c →
      I ⟨first, [], c⟩ taken ({ s with reports := [] } :: left)
        (made ++ (s.reports ++ (x.meet react s.token).reports)))
    {x : State Mode Frame} {taken : List Token} {left : List Scan} {made : List Diagnostic}
    (h : I x taken left made) (hends : Ended left) :
    ∃ more, left.map Scan.token =
        more ++ (run react x.mode x.stack x.complained [] left).unread.map Scan.token ∧
      Ended (run react x.mode x.stack x.complained [] left).unread ∧
      I ⟨first, [], (run react x.mode x.stack x.complained [] left).complained⟩ (taken ++ more)
        (run react x.mode x.stack x.complained [] left).unread
        (made ++ (run react x.mode x.stack x.complained [] left).reports) := by
  induction left generalizing x taken made with
  | nil =>
    obtain ⟨e, he, -⟩ := hends
    cases he
  | cons s left ih =>
    cases hm : (x.meet react s.token).move with
    | consume mode stack =>
      have hs : s.token.kind ≠ .eof := by
        intro hs
        obtain ⟨result, c, hf⟩ := heof x s.token hs
        rw [hm] at hf
        cases hf
      obtain ⟨more, hmore, hlast, hI⟩ := ih (htake x taken s left made mode stack h hm)
        (hends.tail hs)
      rw [run_consume hm]
      refine ⟨s.token :: more, by rw [List.map_cons, hmore, List.cons_append], hlast, ?_⟩
      simpa [State.meet] using hI
    | finish result c =>
      rw [run_finish hm]
      refine ⟨[], rfl, hends.stay, ?_⟩
      simpa [State.meet] using hstay x taken s left made result c h hm

/-- No scans are made up. -/
theorem length_unread_run_le
    (react : Mode → List Frame → Bool → Token → Turn Mode Frame Result) (mode : Mode)
    (stack : List Frame) (c : Bool) (scans : List Scan) :
    (run react mode stack c [] scans).unread.length ≤ scans.length := by
  induction scans generalizing mode stack c with
  | nil => exact Nat.le_refl 0
  | cons s scans ih =>
    cases hm : (react mode stack c s.token).move with
    | consume mode' stack' =>
      rw [run_consume hm]
      exact Nat.le_succ_of_le (ih mode' stack' false)
    | finish result c' =>
      rw [run_finish hm]
      exact Nat.le_refl _

end Automaton

end Resilient
