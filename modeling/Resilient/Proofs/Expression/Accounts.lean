import Resilient.Proofs.Accounts
import Resilient.Proofs.Expression.Acceptance
import Resilient.Proofs.Expression.Reports

/-!
# Accounts of readers of expressions

The reports on the characters of a text are made first. Behind them a parenthesis that opens too
deep is reported when it is taken.
-/

namespace Resilient

namespace Expression

open List (SublistForall₂)

/-- The next expressions of a text: their trees, the reports, and the reader behind them. -/
def Reader.expressions : Nat → Reader → List Node × List Diagnostic × Reader
  | 0, r => ([], [], r)
  | n + 1, r =>
    let (e, reports, r) := r.expression
    let (es, more, r) := expressions n r
    (e :: es, reports ++ more, r)

/-- What is known of a reader that took some tokens and made some reports. -/
structure Account (x : State) (taken : List Token) (left : List Scan) (made : List Diagnostic) :
    Prop where
  clean : ∀ s ∈ left, s.reports = []
  complaints : Complaints taken x.complained left made
  remarks : SublistForall₂ (Diagnostic.Remarks (· = .leftParen)) (made.filter (·.isRemark)) taken

variable {limits : Limits} {x : State} {s : Scan} {taken tokens : List Token} {left : List Scan}
  {made more : List Diagnostic} {c : Bool}

/-! ### One token -/

theorem Account.take {mode : Mode} {st : List Frame} (h : Account x taken (s :: left) made) :
    Account ⟨mode, st, false⟩ (taken ++ [s.token]) left
      (made ++ (s.reports ++ (x.meet (react limits) s.token).reports)) := by
  have hclean : ∀ s' ∈ left, s'.reports = [] := fun s' hs' =>
    h.clean s' (List.mem_cons_of_mem _ hs')
  rw [h.clean s List.mem_cons_self, List.nil_append]
  cases tells_react limits x.mode x.stack x.complained s.token with
  | once honce _ =>
    refine ⟨hclean, (h.complaints.decide honce).take, ?_⟩
    rw [Automaton.State.meet, filter_append_eq_left honce.isRemark]
    exact sublistForall₂_of_sublist h.remarks (List.sublist_append_left _ _)
  | tooDeep hk heq =>
    rw [Automaton.State.meet, heq]
    refine ⟨hclean, (h.complaints.append ?_).take, ?_⟩
    · exact List.forall_mem_singleton.2 rfl
    · rw [List.filter_append]
      exact sublistForall₂_append h.remarks (.cons (.inr ⟨by simpa using hk, _, rfl⟩) .nil)

theorem Account.stay {n : Node} (h : Account x taken (s :: left) made)
    (hm : (x.meet (react limits) s.token).move = .finish n c) :
    Account ⟨.signed, [], c⟩ taken ({ s with reports := [] } :: left)
      (made ++ (s.reports ++ (x.meet (react limits) s.token).reports)) := by
  have hclean : ∀ s' ∈ left, s'.reports = [] := fun s' hs' =>
    h.clean s' (List.mem_cons_of_mem _ hs')
  rw [h.clean s List.mem_cons_self, List.nil_append]
  cases tells_react limits x.mode x.stack x.complained s.token with
  | once honce hmarks =>
    obtain rfl := hmarks n c hm
    refine ⟨List.forall_mem_cons.2 ⟨rfl, hclean⟩, (h.complaints.decide honce).stay, ?_⟩
    rw [Automaton.State.meet, filter_append_eq_left honce.isRemark]
    exact h.remarks
  | tooDeep _ heq =>
    rw [Automaton.State.meet, heq] at hm
    cases hm

/-- A report on what follows the expression makes no difference. -/
theorem Account.append (h : Account x taken left made)
    (hexpected : ∀ d ∈ more, d.isExpected = false)
    (hremark : ∀ d ∈ more, d.isRemark = false) : Account x taken left (made ++ more) := by
  refine ⟨h.clean, h.complaints.append hexpected, ?_⟩
  rw [filter_append_eq_left hremark]
  exact h.remarks

/-! ### Expressions one after the other -/

/-- What is known of a reader behind some expressions of a text. -/
structure Reader.Accounted (r : Reader) (tokens taken : List Token) (made : List Diagnostic) :
    Prop where
  fits : r.oversized = none
  text : tokens = taken ++ r.unread.map Scan.token
  ended : Ended r.unread
  account : Account ⟨.signed, [], r.complained⟩ taken r.unread made

variable {r : Reader} {source : String} {o : Options}

theorem accounted_ofText (h : o.limits.exceededSize source = none) :
    (Reader.ofText source o).1.Accounted
      ((tokenize source o.dialect).1.filter (!·.kind.isTrivia)) [] (Reader.ofText source o).2 := by
  have hsolid := filter_tokenize source o.comments
  have hdialect : o.dialect = dialect o.comments := rfl
  have hlexical : ∀ d ∈ (tokenize source o.dialect).2, d.category = .lexical := by
    intro d hd
    obtain ⟨s, hs, hd⟩ := List.mem_flatMap.1 hd
    exact Scan.lexical_of_mem hs d hd
  have hempty : Account ⟨.signed, [], false⟩ []
      (((tokenize source o.dialect).1.filter (!·.kind.isTrivia)).map (⟨[], ·⟩)) [] :=
    ⟨List.forall_mem_map.2 fun _ _ => rfl, .none .nil, .nil⟩
  rw [Reader.ofText, h]
  refine ⟨rfl, by simp [Function.comp_def], ⟨⟨[], endOf source⟩, ?_, rfl⟩, ?_⟩
  · simp [hdialect, hsolid]
  · have haccount := hempty.append (fun d hd => Diagnostic.isExpected_of_lexical (hlexical d hd))
      fun d hd => Diagnostic.isRemark_of_lexical (hlexical d hd)
    exact haccount

theorem Reader.fault_of_mem_trailing {d : Diagnostic} (h : d ∈ r.trailing) :
    d.fault = .trailingInput := by
  unfold Reader.trailing at h
  split at h
  · split_ifs at h
    · cases h
    · rw [List.mem_singleton.1 h]
      rfl
  · cases h

/-- One expression takes some of the tokens. -/
theorem Reader.Accounted.expression (h : r.Accounted tokens taken made) :
    ∃ more, r.expression.2.2.Accounted tokens (taken ++ more) (made ++ r.expression.2.1) := by
  have heof : ∀ (x : State) t, t.kind = .eof → (x.meet (react r.options.limits) t).Finishes :=
    fun x t ht => react_eof ht r.options.limits x.mode x.stack x.complained
  obtain ⟨more, hmore, hended, haccount⟩ := Automaton.run_keeps Account .signed heof
    (fun _ _ _ _ _ _ _ h _ => h.take) (fun _ _ _ _ _ _ _ h hm => h.stay hm) h.account h.ended
  rw [Reader.expression, h.fits]
  refine ⟨more, rfl, ?_, hended, ?_⟩
  · rw [h.text, hmore, List.append_assoc]
  · rw [← List.append_assoc]
    refine haccount.append (fun d hd => ?_) fun d hd => ?_
    · simp [Diagnostic.isExpected, Reader.fault_of_mem_trailing hd]
    · simp [Diagnostic.isRemark, Reader.fault_of_mem_trailing hd]

/-- So do any number of expressions. -/
theorem Reader.Accounted.expressions (h : r.Accounted tokens taken made) (n : Nat) :
    ∃ more, (r.expressions n).2.2.Accounted tokens (taken ++ more)
      (made ++ (r.expressions n).2.1) := by
  induction n generalizing r taken made with
  | zero => exact ⟨[], by simpa [Reader.expressions] using h⟩
  | succ n ih =>
    obtain ⟨more, h'⟩ := h.expression
    obtain ⟨later, h''⟩ := ih h'
    exact ⟨more ++ later, by simpa [Reader.expressions] using h''⟩

/-- Of a text that is too long only that is reported, however often it is asked for an
expression. -/
theorem expressions_of_oversized {max : Nat} (h : r.oversized = some max) (n : Nat) :
    ∀ d ∈ (r.expressions n).2.1, d = .atPoint (.maxSizeExceeded max) .start := by
  induction n with
  | zero => simp [Reader.expressions]
  | succ n ih =>
    have hexpression : r.expression =
        (.placeholder (.point .start), [.atPoint (.maxSizeExceeded max) .start], r) := by
      rw [Reader.expression, h]
    rw [Reader.expressions, hexpression]
    exact List.forall_mem_cons.2 ⟨rfl, ih⟩

end Expression

end Resilient
