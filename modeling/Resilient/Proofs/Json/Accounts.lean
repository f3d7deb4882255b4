import Resilient.Proofs.Accounts
import Resilient.Proofs.Json.Reports
import Resilient.Proofs.Json.Stream

/-!
# Accounts of JSON readers

Reports on commas and brackets are made when the token behind them is met, so each is on a token
taken, and there is none yet on the one that the mode remembers (`Remarked`).
-/

namespace Resilient

namespace Json

open List (SublistForall₂)

/-- Each report on a comma or a bracket is on a token taken, at most one on each of them, and none
is on the one that the mode remembers. -/
inductive Remarked : Mode → List Token → List Diagnostic → Prop where
  | free {mode : Mode} {taken : List Token} {made : List Diagnostic} (hmode : mode.span? = none)
      (h : SublistForall₂ (Diagnostic.Remarks Kind.opens) (made.filter (·.isRemark)) taken) :
      Remarked mode taken made
  | behind {mode : Mode} {taken : List Token} {t : Token} {made : List Diagnostic}
      (hmode : mode.Follows t)
      (h : SublistForall₂ (Diagnostic.Remarks Kind.opens) (made.filter (·.isRemark)) taken) :
      Remarked mode (taken ++ [t]) made

/-- What is known of a reader that took some tokens and made some reports. -/
structure Account (x : State) (taken : List Token) (left : List Scan) (made : List Diagnostic) :
    Prop where
  lexical : ∀ s ∈ left, ∀ d ∈ s.reports, d.category = .lexical
  complaints : Complaints taken x.complained left made
  remarks : Remarked x.mode taken made

variable {limits : Limits} {mode : Mode} {x : State} {t : Token} {s : Scan} {taken : List Token}
  {left : List Scan} {made early more : List Diagnostic} {c : Bool} {turn : Turn}

/-! ### One token -/

theorem opens_opener (g : Group) : g.opener.opens = true := by cases g <;> rfl

theorem Belated.isExpected (h : Belated limits mode early) : ∀ d ∈ early, d.isExpected = false := by
  cases h with
  | nothing => simp
  | trailingComma g b | maxDepthExceeded g b _ => exact List.forall_mem_singleton.2 rfl

theorem Remarked.sublistForall₂ (h : Remarked mode taken made) :
    SublistForall₂ (Diagnostic.Remarks Kind.opens) (made.filter (·.isRemark)) taken := by
  cases h with
  | free _ h => exact h
  | behind _ h => exact sublistForall₂_of_sublist h (List.sublist_append_left _ _)

theorem Remarked.append (h : Remarked mode taken made) (hmore : ∀ d ∈ more, d.isRemark = false) :
    Remarked mode taken (made ++ more) := by
  cases h with
  | free hmode h => exact .free hmode (by rwa [filter_append_eq_left hmore])
  | behind hmode h => exact .behind hmode (by rwa [filter_append_eq_left hmore])

theorem Remarked.decide (h : Remarked mode taken made) (hearly : Belated limits mode early) :
    SublistForall₂ (Diagnostic.Remarks Kind.opens) ((made ++ early).filter (·.isRemark)) taken := by
  cases hearly with
  | nothing =>
    rw [List.append_nil]
    exact h.sublistForall₂
  | trailingComma g b =>
    cases h with
    | free hmode _ => cases hmode
    | behind hmode h =>
      obtain ⟨hk, rfl⟩ := hmode
      rw [List.filter_append]
      exact sublistForall₂_append h (.cons (.inl ⟨hk, rfl⟩) .nil)
  | maxDepthExceeded g b _ =>
    cases h with
    | free hmode _ => cases hmode
    | behind hmode h =>
      obtain ⟨-, hk, rfl⟩ := hmode
      rw [List.filter_append]
      exact sublistForall₂_append h (.cons (.inr ⟨hk ▸ opens_opener g, _, rfl⟩) .nil)

/-- A decision on the first token left: what was reported, and whether it is held to be out of place
if it stays. -/
theorem Account.decide (h : Account x taken (s :: left) made) (limits : Limits) :
    ∃ c, (∀ v c', (x.meet (react limits) s.token).move = .finish v c' → c' = c) ∧
      Complaints taken c (s :: left)
        (made ++ (s.reports ++ (x.meet (react limits) s.token).reports)) ∧
      SublistForall₂ (Diagnostic.Remarks Kind.opens)
        ((made ++ (s.reports ++ (x.meet (react limits) s.token).reports)).filter (·.isRemark))
        taken := by
  obtain ⟨early, turn, hearly, hlocal, heq⟩ :=
    exists_local_react limits x.mode x.stack x.complained s.token
  have hlexical := h.lexical s List.mem_cons_self
  have hexpected : ∀ d ∈ s.reports, d.isExpected = false := fun d hd =>
    Diagnostic.isExpected_of_lexical (hlexical d hd)
  have hremark : ∀ d ∈ s.reports, d.isRemark = false := fun d hd =>
    Diagnostic.isRemark_of_lexical (hlexical d hd)
  have hcomplaints := ((h.complaints.append hexpected).append hearly.isExpected).decide hlocal.once
  have hremarks := (h.remarks.append hremark).decide hearly
  rw [Automaton.State.meet, heq]
  refine ⟨_, hlocal.marks, by simpa using hcomplaints, ?_⟩
  have hall : (made ++ s.reports ++ early ++ turn.reports).filter (·.isRemark) =
      (made ++ s.reports ++ early).filter (·.isRemark) :=
    filter_append_eq_left hlocal.once.isRemark
  rw [← hall] at hremarks
  simpa using hremarks

theorem Account.take {mode' : Mode} {st' : List Frame} (h : Account x taken (s :: left) made)
    (hm : (x.meet (react limits) s.token).move = .consume mode' st') :
    Account ⟨mode', st', false⟩ (taken ++ [s.token]) left
      (made ++ (s.reports ++ (x.meet (react limits) s.token).reports)) := by
  obtain ⟨c, -, hcomplaints, hremarks⟩ := h.decide limits
  have hfollows := (told_react limits x.mode x.stack x.complained s.token).2
  rw [Automaton.State.meet] at hm
  rw [Turn.Leaves, hm] at hfollows
  exact ⟨fun s' hs' => h.lexical s' (List.mem_cons_of_mem _ hs'), hcomplaints.take,
    .behind hfollows hremarks⟩

theorem Account.stay {v : Value} (h : Account x taken (s :: left) made)
    (hm : (x.meet (react limits) s.token).move = .finish v c) :
    Account ⟨.value, [], c⟩ taken ({ s with reports := [] } :: left)
      (made ++ (s.reports ++ (x.meet (react limits) s.token).reports)) := by
  obtain ⟨c', hc, hcomplaints, hremarks⟩ := h.decide limits
  obtain rfl := hc v c hm
  have hleft : ∀ s' ∈ left, ∀ d ∈ s'.reports, d.category = .lexical := fun s' hs' =>
    h.lexical s' (List.mem_cons_of_mem _ hs')
  exact ⟨List.forall_mem_cons.2 ⟨by simp, hleft⟩, hcomplaints.stay, .free rfl hremarks⟩

/-- A report on what follows the value makes no difference. -/
theorem Account.append (h : Account x taken left made)
    (hexpected : ∀ d ∈ more, d.isExpected = false)
    (hremark : ∀ d ∈ more, d.isRemark = false) : Account x taken left (made ++ more) :=
  ⟨h.lexical, h.complaints.append hexpected, h.remarks.append hremark⟩

/-! ### Documents one after the other -/

/-- What is known of a reader behind some documents of a text. -/
structure Reader.Accounted (r : Reader) (tokens taken : List Token) (made : List Diagnostic) :
    Prop where
  fits : r.oversized = none
  text : tokens = taken ++ r.unread.map Scan.token
  ended : Ended r.unread
  account : Account ⟨.value, [], r.complained⟩ taken r.unread made

variable {r : Reader} {tokens : List Token} {source : String} {o : Options}

theorem accounted_ofText (h : o.limits.exceededSize source = none) :
    (Reader.ofText source o).Accounted (tokenize source o.dialect).1 [] [] := by
  obtain ⟨ss, e, hscans, -, he, -⟩ := exists_scans o.limits source o.comments
  have hscans : Scan.ofText o.dialect source = ss ++ [e] := hscans
  rw [Reader.ofText, h]
  refine ⟨rfl, rfl, ⟨e, ?_, he⟩, fun s hs => Scan.lexical_of_mem hs, .none .nil, .free rfl .nil⟩
  simp [hscans]

theorem Reader.Accounted.value (h : r.Accounted tokens taken made) :
    ∃ more, r.unread.map Scan.token = more ++ r.value.2.2.unread.map Scan.token ∧
      r.value.2.2.Accounted tokens (taken ++ more) (made ++ r.value.2.1) := by
  have heof : ∀ (x : State) t, t.kind = .eof → (x.meet (react r.options.limits) t).Finishes :=
    fun x t ht => react_eof ht r.options.limits x.mode x.stack x.complained
  obtain ⟨more, hmore, hended, haccount⟩ := Automaton.run_keeps Account .value heof
    (fun _ _ _ _ _ _ _ h hm => h.take hm) (fun _ _ _ _ _ _ _ h hm => h.stay hm) h.account h.ended
  refine ⟨more, hmore, h.fits, ?_, hended, haccount⟩
  rw [h.text, hmore, List.append_assoc]
  rfl

theorem Reader.document_of_fits (h : r.oversized = none) :
    r.document = (r.value.1, r.value.2.1 ++ r.value.2.2.trailing, r.value.2.2) := by
  rw [Reader.document, h]

theorem Reader.fault_of_mem_trailing {d : Diagnostic} (h : d ∈ r.trailing) :
    d.fault = .trailingInput := by
  unfold Reader.trailing at h
  split at h
  · split_ifs at h
    · rw [List.mem_singleton.1 h]
      rfl
    · cases h
  · cases h

theorem Reader.Accounted.document (h : r.Accounted tokens taken made) :
    ∃ more, r.unread.map Scan.token = more ++ r.document.2.2.unread.map Scan.token ∧
      r.document.2.2.Accounted tokens (taken ++ more) (made ++ r.document.2.1) := by
  obtain ⟨more, hmore, h'⟩ := h.value
  rw [Reader.document_of_fits h.fits]
  refine ⟨more, hmore, h'.fits, h'.text, h'.ended, ?_⟩
  rw [← List.append_assoc]
  refine h'.account.append (fun d hd => ?_) fun d hd => ?_
  · simp [Diagnostic.isExpected, Reader.fault_of_mem_trailing hd]
  · simp [Diagnostic.isRemark, Reader.fault_of_mem_trailing hd]

/-- So do any number of documents. -/
theorem Reader.Accounted.documents (h : r.Accounted tokens taken made) (n : Nat) :
    ∃ more, (r.documents n).2.2.Accounted tokens (taken ++ more) (made ++ (r.documents n).2.1) := by
  induction n generalizing r taken made with
  | zero => exact ⟨[], by simpa [Reader.documents] using h⟩
  | succ n ih =>
    obtain ⟨more, -, h'⟩ := h.document
    obtain ⟨later, h''⟩ := ih h'
    exact ⟨more ++ later, by simpa [Reader.documents] using h''⟩

/-- Of a text that is too long only that is reported, however often it is asked for a document. -/
theorem documents_of_oversized {max : Nat} (h : r.oversized = some max) (n : Nat) :
    (r.documents n).2.2 = r ∧
      ∀ d ∈ (r.documents n).2.1, d = .atPoint (.maxSizeExceeded max) .start := by
  induction n with
  | zero => exact ⟨rfl, by simp [Reader.documents]⟩
  | succ n ih =>
    have hdocument : r.document = (.null, [.atPoint (.maxSizeExceeded max) .start], r) := by
      rw [Reader.document, h]
    rw [Reader.documents, hdocument]
    exact ⟨ih.1, List.forall_mem_cons.2 ⟨rfl, ih.2⟩⟩

end Json

end Resilient
