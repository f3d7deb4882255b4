import Resilient.Diagnostic

/-!
# Blanks and comments

What stands between the tokens of a text: blanks, comments to the end of a line, and comments
between `/*` and the first `*/`. `readGap` takes the longest run of them.
-/

namespace Resilient

/-- A run of blanks, or one comment. -/
inductive Trivium where
  /-- A blank character and the ones behind it. -/
  | blanks (c : Char) (more : List Char)
  /-- What follows `//` on its line. -/
  | lineComment (body : List Char)
  /-- What follows `/*`, and whether `*/` closes it. -/
  | blockComment (body : List Char) (closed : Bool)
  deriving DecidableEq

namespace Trivium

/-- A trivium as it is written. -/
def text : Trivium → List Char
  | blanks c more => c :: more
  | lineComment body => '/' :: '/' :: body
  | blockComment body closed => '/' :: '*' :: (body ++ if closed then ['*', '/'] else [])

/-- The report on a comment without an end that begins at `p`. -/
def report? (p : Position) : Trivium → Option Diagnostic
  | t@(blockComment _ false) => some (.of .unterminatedComment ⟨p, p.after t.text⟩)
  | _ => none

theorem text_ne_nil (t : Trivium) : t.text ≠ [] := by cases t <;> simp [text]

end Trivium

/-- The body of a block comment behind its first characters, last first; then whether it is closed,
and the rest. -/
def readBlock (done : List Char) : List Char → List Char × Bool × List Char
  | [] => (done.reverse, false, [])
  | '*' :: '/' :: rest => (done.reverse, true, rest)
  | c :: rest => readBlock (c :: done) rest

/-- The comment that begins a text, and the rest. -/
def readComment : List Char → Option (Trivium × List Char)
  | '/' :: '/' :: rest => some (.lineComment (rest.takeWhile (· ≠ '\n')), rest.dropWhile (· ≠ '\n'))
  | '/' :: '*' :: rest =>
    let (body, closed, rest) := readBlock [] rest
    some (.blockComment body closed, rest)
  | _ => none

theorem readBlock_eq (done text : List Char) :
    (readBlock done text).1 ++ (if (readBlock done text).2.1 then ['*', '/'] else [])
      ++ (readBlock done text).2.2 = done.reverse ++ text := by
  fun_induction readBlock done text with
  | case1 done => simp
  | case2 done rest => simp
  | case3 done c rest _ ih => simpa using ih

theorem readComment_eq {text rest : List Char} {t : Trivium}
    (h : readComment text = some (t, rest)) : t.text ++ rest = text := by
  unfold readComment at h
  split at h
  · cases h
    simp only [Trivium.text, List.cons_append, List.cons.injEq, true_and]
    exact List.takeWhile_append_dropWhile
  · rename_i rest'
    cases h
    simpa [Trivium.text] using readBlock_eq [] rest'
  · cases h

theorem length_lt_of_readComment {text rest : List Char} {t : Trivium}
    (h : readComment text = some (t, rest)) : rest.length < text.length := by
  have h₁ := readComment_eq h
  have h₂ := List.length_pos_iff.2 t.text_ne_nil
  have h₃ := congrArg List.length h₁
  simp only [List.length_append] at h₃
  omega

/-- The longest run of blanks, and of comments where they are allowed, that begins a text, behind
what was read before, last first; then the rest. -/
def readGap (blank : Char → Bool) (comments : Bool) (done : List Trivium) (text : List Char) :
    List Trivium × List Char :=
  match text with
  | [] => (done.reverse, [])
  | c :: rest =>
    if blank c then
      readGap blank comments (.blanks c (rest.takeWhile blank) :: done) (rest.dropWhile blank)
    else if comments then
      match _h : readComment (c :: rest) with
      | some (t, rest') => readGap blank comments (t :: done) rest'
      | none => (done.reverse, c :: rest)
    else (done.reverse, c :: rest)
termination_by text.length
decreasing_by
  · exact Nat.lt_succ_of_le (List.dropWhile_sublist _).length_le
  · exact length_lt_of_readComment _h

theorem readGap_eq (blank : Char → Bool) (comments : Bool) (done : List Trivium)
    (text : List Char) :
    (readGap blank comments done text).1.flatMap Trivium.text
      ++ (readGap blank comments done text).2 = done.reverse.flatMap Trivium.text ++ text := by
  fun_induction readGap blank comments done text with
  | case1 done => simp
  | case2 done c rest _ ih =>
    rw [ih]
    simp [Trivium.text, List.takeWhile_append_dropWhile]
  | case3 done c rest _ _ t rest' h ih => rw [ih, ← readComment_eq h]; simp
  | case4 done c rest => simp
  | case5 done c rest => simp

/-- The reports on a run that begins at `p`, behind earlier reports, last first. -/
def gapReports (p : Position) (found : List Diagnostic) : List Trivium → List Diagnostic
  | [] => found.reverse
  | t :: ts => gapReports (p.after t.text) ((t.report? p).toList ++ found) ts

end Resilient
