import Resilient.Proofs.Json.Reports
import Resilient.Proofs.Json.Truncation

/-!
# Limits of JSON reading

A limit acts only where it is reported: without such a report the text is read as if there were no
limits (`parse_eq_unlimited`). A bound on depth bounds the value of every text: what waits on the
stack is cut off at the bound from the beginning on (`Flat`), so no container of the value lies
inside as many others (`lt_of_within_parse`).
-/

namespace Resilient

/-! ### Parts of a value -/

namespace Value

/-- A value stands in another one, inside a number of containers. -/
inductive Within : Nat → Value → Value → Prop where
  | self {v : Value} : Within 0 v v
  | item {n : Nat} {v w : Value} {items : List Value} (hw : w ∈ items) (h : Within n w v) :
      Within (n + 1) (.array items) v
  | entry {n : Nat} {v w : Value} {key : String} {entries : Entries Value}
      (hw : (key, w) ∈ entries) (h : Within n w v) : Within (n + 1) (.object entries) v

/-- Arrays and objects. -/
def isContainer : Value → Bool
  | array _ | object _ => true
  | _ => false

variable {n max : Nat} {v w : Value}

theorem truncateEntries_eq (n : Nat) (es : Entries Value) :
    truncateEntries n es = es.map fun e => (e.1, e.2.truncate n) := by
  induction es with
  | nil => rfl
  | cons e es ih => rw [truncateEntries, ih, List.map_cons]

/-- A container of a value that is cut off already lies inside fewer others than the bound. -/
theorem Within.lt_of_truncate_eq (h : Within n v w) (hw : w.isContainer = true)
    (hv : v.truncate max = v) : n < max := by
  induction h generalizing max with
  | @self v =>
    cases max with
    | succ max => omega
    | zero => cases v <;> cases hw <;> cases hv
  | @item n w v items hi h ih =>
    cases max with
    | zero => cases hv
    | succ max =>
      rw [truncate, truncateItems_eq, Value.array.injEq] at hv
      have hitem := List.map_eq_map_iff.1 (hv.trans (List.map_id items).symm) v hi
      have := ih hw hitem
      omega
  | @entry n w v key entries hi h ih =>
    cases max with
    | zero => cases hv
    | succ max =>
      rw [truncate, truncateEntries_eq, Value.object.injEq] at hv
      have hentry := List.map_eq_map_iff.1 (hv.trans (List.map_id entries).symm) (key, v) hi
      have := ih hw (congrArg Prod.snd hentry)
      omega

@[simp] theorem truncate_truncate (n : Nat) (v : Value) :
    (v.truncate n).truncate n = v.truncate n := by
  induction n generalizing v with
  | zero => cases v <;> rfl
  | succ n ih =>
    cases v with
    | array items => simp [truncate, Function.comp_def, ih]
    | object entries => simp [truncate, truncateEntries_eq, Function.comp_def, ih]
    | _ => rfl

@[simp] theorem truncateEntries_truncateEntries (n : Nat) (es : Entries Value) :
    truncateEntries n (truncateEntries n es) = truncateEntries n es := by
  simp [truncateEntries_eq, Function.comp_def]

end Value

namespace Json

variable {limits : Limits} {max : Nat} {t : Token} {st : List Frame} {v : Value} {mode : Mode}
  {c : Bool} {source : String} {options : Options}

/-! ### Limits that are not reported -/

/-- A decision that reports no limit is taken as without limits. -/
theorem react_eq_of_reports
    (h : ∀ d ∈ (react limits mode st c t).reports, d.category ≠ .limit) :
    react limits mode st c t = react .unlimited mode st c t := by
  cases mode with
  | opened g b =>
    simp only [react] at h ⊢
    cases hr : limits.reachedDepth fun _ => st.length with
    | some max =>
      rw [hr] at h
      exact absurd rfl (h (.of (.maxDepthExceeded max) b) (by simp))
    | none => rfl
  | _ => rfl

theorem parse_eq_unlimited (h : ∀ d ∈ (parse source options).2, d.category ≠ .limit) :
    parse source options = parse source { options with limits := .unlimited } := by
  cases hsize : options.limits.exceededSize source with
  | some max =>
    rw [parse_of_exceededSize hsize] at h
    exact absurd rfl (h _ (List.mem_singleton_self _))
  | none =>
    have hfree : ({ options with limits := .unlimited } : Options).limits.exceededSize source =
        none := rfl
    rw [parse_of_fits hsize] at h ⊢
    have hrun := Automaton.run_congr (react .unlimited)
      (fun _ _ _ _ => react_eq_of_reports) fun d hd => h d (List.mem_append_left _ hd)
    rw [parse_of_fits hfree, hrun]
    rfl

/-! ### Depth -/

/-- What the mode holds and what waits are cut off at the bound already. -/
structure Flat (max : Nat) (mode : Mode) (st : List Frame) : Prop where
  held : mode.truncate max st.length = mode
  waiting : truncateStack max st = st
  within : mode.Within max st

@[simp] theorem truncate_truncate_group (n : Nat) (g : Group) :
    (g.truncate n).truncate n = g.truncate n := by
  cases g <;> simp [Group.truncate, Function.comp_def]

@[simp] theorem truncate_truncate_frame (n : Nat) (f : Frame) :
    (f.truncate n).truncate n = f.truncate n := by
  cases f <;> simp [Frame.truncate, Function.comp_def]

@[simp] theorem truncateStack_truncateStack (max : Nat) (st : List Frame) :
    truncateStack max (truncateStack max st) = truncateStack max st := by
  induction st with
  | nil => rfl
  | cons f st ih => simp [truncateStack, ih]

/-- What tracks the free automaton is cut off at the bound. -/
theorem Tracks.flat {turn bounded : Turn} (h : Tracks max turn bounded) :
    bounded.Leaves (Flat max) fun v => v.truncate max = v := by
  obtain ⟨-, hmove, hwithin⟩ := h
  unfold Turn.Leaves at hwithin ⊢
  rw [hmove]
  cases hturn : turn.move with
  | finish v c => exact Value.truncate_truncate max v
  | consume mode st =>
    rw [hturn] at hwithin
    refine ⟨?_, truncateStack_truncateStack max st, ?_⟩
    · cases mode <;> simp [Mode.truncate]
    · cases mode <;> simpa [Mode.Within, Mode.truncate] using hwithin

theorem flat_react (hl : limits.depth = some max) (h : Flat max mode st) (c : Bool) (t : Token) :
    (react limits mode st c t).Leaves (Flat max) fun v => v.truncate max = v := by
  obtain ⟨hmode, hstack, hwithin⟩ := h
  by_cases hopen : ∀ g b, mode = .opened g b → st.length < max
  · have hfree : Limits.unlimited.depth = none := rfl
    have htracks := tracks_react hfree hl c t hwithin hopen
    rw [hmode, hstack] at htracks
    exact htracks.flat
  · push Not at hopen
    obtain ⟨g, b, rfl, hlength⟩ := hopen
    have hreached : (limits.reachedDepth fun _ => st.length) = some max := by
      simp [Limits.reachedDepth, hl, hlength]
    have htracks := tracks_skipAt t c 1 hwithin
    rw [hstack] at htracks
    simpa only [react, hreached, Turn.leaves_behind] using htracks.flat

theorem truncate_parse (hl : options.limits.depth = some max) :
    (parse source options).1.truncate max = (parse source options).1 := by
  cases hsize : options.limits.exceededSize source with
  | some size => simp [parse_of_exceededSize hsize]
  | none =>
    obtain ⟨ss, e, hscans, -, -, hstay⟩ := exists_scans options.limits source options.comments
    have hscans : Scan.ofText options.dialect source = ss ++ [e] := hscans
    have hflat : Flat max .value [] := ⟨rfl, rfl, Nat.zero_le max⟩
    obtain ⟨hresult, -, -⟩ := Automaton.run_invariant (I := fun mode st _ => Flat max mode st)
      (D := fun _ => True) hstay
      (fun mode st c s ss h => ⟨by simp, by simp, flat_react hl h c s.token⟩) false ss hflat
    rw [parse_of_fits hsize, hscans]
    exact hresult

/-- No container of the value of a text lies inside as many others as the bound on depth says. -/
theorem lt_of_within_parse {n : Nat} (hl : options.limits.depth = some max)
    (h : Value.Within n (parse source options).1 v) (hv : v.isContainer = true) : n < max :=
  h.lt_of_truncate_eq hv (truncate_parse hl)

end Json

end Resilient
