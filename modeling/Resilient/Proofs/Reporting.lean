import Resilient.Reporting

/-!
# A sink changes nothing but itself

Whatever a sink does with the reports and whatever it holds, a reader that tells its reports to it
answers as it does by itself, and the sink takes the reports that the reader makes by itself, one
after the other: `tokenizeInto_eq`, `Json.parseInto_eq` and `Expression.parseInto_eq`.
-/

namespace Resilient

variable {σ : Type} (sink : Sink σ) (s : σ)

theorem Scan.allInto_eq (d : Dialect) (done : List Token) (c : Cursor) :
    allInto sink d s done c =
      (done.reverse ++ (all d c).1.map Scan.token,
        ((all d c).1.flatMap Scan.reports).foldl sink s) := by
  obtain ⟨n, hn⟩ : ∃ n, c.rest.length = n := ⟨_, rfl⟩
  induction n using Nat.strongRecOn generalizing s done c with
  | ind n ih =>
    subst hn
    have hfetch : fetchInto sink d s c =
        ((next d c).1.token, (next d c).2, (next d c).1.reports.foldl sink s) :=
      fetchInto_eq sink d [] s c
    rw [allInto, all_eq, hfetch]
    by_cases he : (next d c).1.token.isEof
    · simp [he]
    · by_cases hp : (next d c).2.position.offset = c.position.offset
      · simp [he, hp]
      · simp [he, hp, ih _ (length_rest_lt hp) _ _ _ rfl]

theorem tokenizeInto_eq (source : String) (d : Dialect) :
    tokenizeInto sink source d s =
      ((tokenize source d).1, (tokenize source d).2.foldl sink s) :=
  Scan.allInto_eq sink s d [] (.ofText source)

namespace Automaton

variable {Mode Frame Result : Type} [Inhabited Result]
  {react : Mode → List Frame → Bool → Token → Turn Mode Frame Result}

theorem runInto_eq (mode : Mode) (stack : List Frame) (complained : Bool) (scans : List Scan) :
    runInto sink react mode stack complained s scans =
      ((run react mode stack complained [] scans).result,
        (run react mode stack complained [] scans).unread,
        (run react mode stack complained [] scans).reports.foldl sink s) := by
  induction scans generalizing s mode stack complained with
  | nil => rfl
  | cons x scans ih =>
    rw [runInto]
    cases hm : (react mode stack complained x.token).move with
    | consume mode' stack' => simp [run_consume hm, ih]
    | finish result c => simp [run_finish hm]

end Automaton

theorem Json.parseInto_eq (source : String) (options : Options) :
    parseInto sink source options s =
      ((parse source options).1, (parse source options).2.foldl sink s) := by
  rw [parseInto, parse, Reader.document]
  cases h : (Reader.ofText source options).oversized with
  | some max => rfl
  | none => simp [Automaton.runInto_eq, Reader.value, Reader.trailing, Reader.current]

theorem Expression.parseInto_eq (source : String) (options : Options) :
    parseInto sink source options s =
      ((parse source options).1, (parse source options).2.foldl sink s) := by
  rw [parseInto, parse, Reader.ofText]
  cases h : options.limits.exceededSize source with
  | some max => rfl
  | none =>
    simp [Reader.expression, tokenizeInto_eq, Automaton.runInto_eq, Reader.trailing,
      Reader.current]

end Resilient
