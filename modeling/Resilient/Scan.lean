import Resilient.Lexeme
import Resilient.Source.Cursor

/-!
# Scans

A scan is one token together with the reports met on the way to it. `Scan.next` fetches the next
one and never fails: characters that fit nowhere are reported and stepped over, and the end of the
text yields its own token as often as it is asked. `Scan.all` fetches up to the first token of the
end's kind, `tokenize` does so for a whole text, and a `Lexer` fetches one at a time.
-/

namespace Resilient

/-- A token with the reports met on the way to it. -/
structure Scan where
  /-- The reports, in the order in which they were met. -/
  reports : List Diagnostic
  token : Token
  deriving DecidableEq

namespace Scan

/-- The next scan and the cursor behind its token; `found` holds reports met before, last first. -/
def fetch (d : Dialect) (found : List Diagnostic) (c : Cursor) : Scan × Cursor :=
  match _h : Lexeme.read d c.rest with
  | none => (⟨found.reverse, .atEnd c.position⟩, c)
  | some (l, rest) =>
    let behind := c.past l.text rest
    let found := (l.reports d c.position).reverse ++ found
    match _ht : l.token? d ⟨c.position, behind.position⟩ with
    | some t => (⟨found.reverse, t⟩, behind)
    | none => fetch d found behind
termination_by c.rest.length
decreasing_by
  have h₁ := congrArg List.length (Lexeme.read_eq _h)
  have h₂ := List.length_pos_iff.2 (Lexeme.text_ne_nil_of_token? _h _ht)
  simp only [List.length_append] at h₁
  simp only [Cursor.past]
  omega

/-- The next scan and the cursor behind its token. -/
def next (d : Dialect) (c : Cursor) : Scan × Cursor := fetch d [] c

/-- What is fetched is read off the text at the cursor. -/
theorem fetch_rest (d : Dialect) (found : List Diagnostic) (c : Cursor) :
    ∃ text, text ++ (fetch d found c).2.rest = c.rest ∧
      (fetch d found c).2.position = c.position.after text := by
  fun_induction fetch d found c with
  | case1 found c => exact ⟨[], rfl, rfl⟩
  | case2 found c l rest h behind found' t ht =>
    exact ⟨l.text, Lexeme.read_eq h, rfl⟩
  | case3 found c l rest h behind found' ht ih =>
    obtain ⟨text, h₁, h₂⟩ := ih
    refine ⟨l.text ++ text, ?_, ?_⟩
    · rw [List.append_assoc, h₁]
      exact Lexeme.read_eq h
    · rw [h₂, Position.after_append]
      rfl

theorem length_rest_lt {d : Dialect} {c : Cursor}
    (h : (next d c).2.position.offset ≠ c.position.offset) :
    (next d c).2.rest.length < c.rest.length := by
  obtain ⟨text, h₁, h₂⟩ := fetch_rest d [] c
  have ht : text ≠ [] := fun ht => h (by rw [next, h₂, ht]; rfl)
  have := congrArg List.length h₁
  have := List.length_pos_iff.2 ht
  simp only [List.length_append] at *
  simp only [next]
  omega

/-- The scans up to the first token of the end's kind, behind scans made before, last first; then
the cursor behind that token. A spelling without characters would be met forever; the scans end
behind the first one. -/
def allOnto (d : Dialect) (done : List Scan) (c : Cursor) : List Scan × Cursor :=
  let r := next d c
  if r.1.token.isEof then ((r.1 :: done).reverse, r.2)
  else if _h : r.2.position.offset = c.position.offset then ((r.1 :: done).reverse, r.2)
  else allOnto d (r.1 :: done) r.2
termination_by c.rest.length
decreasing_by exact length_rest_lt _h

/-- The scans up to the first token of the end's kind, and the cursor behind that token. -/
def all (d : Dialect) (c : Cursor) : List Scan × Cursor := allOnto d [] c

/-- Scans made before stand in front and change nothing else. -/
theorem allOnto_eq (d : Dialect) (done : List Scan) (c : Cursor) :
    allOnto d done c = (done.reverse ++ (all d c).1, (all d c).2) := by
  obtain ⟨n, hn⟩ : ∃ n, c.rest.length = n := ⟨_, rfl⟩
  induction n using Nat.strongRecOn generalizing done c with
  | ind n ih =>
    subst hn
    rw [all, allOnto.eq_def d done c, allOnto.eq_def d [] c]
    by_cases he : (next d c).1.token.isEof
    · simp [he]
    · by_cases hp : (next d c).2.position.offset = c.position.offset
      · simp [he, hp]
      · have hl := length_rest_lt hp
        simp only [he, hp, if_false, dite_false, Bool.false_eq_true]
        rw [ih _ hl _ _ rfl, ih _ hl [(next d c).1] _ rfl]
        simp

/-- The scans are the next one and, unless it ends the text, those behind it. -/
theorem all_eq (d : Dialect) (c : Cursor) :
    all d c =
      if (next d c).1.token.isEof ∨ (next d c).2.position.offset = c.position.offset then
        ([(next d c).1], (next d c).2)
      else ((next d c).1 :: (all d (next d c).2).1, (all d (next d c).2).2) := by
  rw [all, allOnto]
  by_cases he : (next d c).1.token.isEof
  · simp [he]
  · by_cases hp : (next d c).2.position.offset = c.position.offset
    · simp [he, hp]
    · simp [he, hp, allOnto_eq d [(next d c).1]]

/-- The tokens of a whole text, each with the reports on its way. -/
def ofText (d : Dialect) (source : String) : List Scan := (all d (.ofText source)).1

end Scan

/-- The tokens of a whole text and the reports on it. -/
def tokenize (source : String) (d : Dialect) : List Token × List Diagnostic :=
  let scans := Scan.ofText d source
  (scans.map Scan.token, scans.flatMap Scan.reports)

/-- A text that is being cut into tokens one at a time. -/
structure Lexer where
  dialect : Dialect
  /-- How far the text was read. -/
  cursor : Cursor
  /-- The iteration met a token of the end's kind. -/
  finished : Bool

namespace Lexer

/-- The lexer before the first character. -/
def ofText (source : String) (d : Dialect) : Lexer := ⟨d, .ofText source, false⟩

/-- The next token, whether the iteration is finished or not. -/
def fetch (l : Lexer) : Scan × Lexer :=
  let (s, c) := Scan.next l.dialect l.cursor
  (s, { l with cursor := c })

/-- One step of the iteration over the tokens before the end: the reports met, the token if the
iteration goes on, and the lexer behind it. -/
def next (l : Lexer) : List Diagnostic × Option Token × Lexer :=
  if l.finished then ([], none, l)
  else
    let (s, l) := l.fetch
    if s.token.isEof then (s.reports, none, { l with finished := true })
    else (s.reports, some s.token, l)

/-- The rest of the iteration: the reports met, the tokens, and the lexer behind it. -/
def collect (l : Lexer) : List Diagnostic × List Token × Lexer :=
  if l.finished then ([], [], l)
  else
    let (scans, c) := Scan.all l.dialect l.cursor
    (scans.flatMap Scan.reports, (scans.map Scan.token).filter (!·.isEof),
      { l with cursor := c, finished := true })

/-- The tokens from here to the first one of the end's kind, and the reports met. -/
def drain (l : Lexer) : List Diagnostic × List Token :=
  let scans := (Scan.all l.dialect l.cursor).1
  (scans.flatMap Scan.reports, scans.map Scan.token)

end Lexer

end Resilient
