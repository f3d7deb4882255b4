import Mathlib.Tactic.SplitIfs
import Resilient.Proofs.Lexeme.Gap
import Resilient.Proofs.Lexeme.Literal
import Resilient.Proofs.Lexeme.Numeral

/-!
# The beginning of a text

Where a lexeme ends is decided by what it holds and at most by the characters directly behind it,
and fewer characters never let it go on. So a lexeme that is read in front of some text is read in
front of every beginning of that text (`Lexeme.read_beginning`).
-/

namespace Resilient

variable {text rest rest' : List Char} {c : Char} {p : Char → Bool}

theorem head?_of_beginning (hp : rest' <+: rest) (h : ∀ c ∈ rest.head?, p c = false) :
    ∀ c ∈ rest'.head?, p c = false := by
  obtain ⟨more, rfl⟩ := hp
  cases rest' with
  | nil => simp
  | cons c rest' => exact h

/-- The longest stretch of some characters, in front of a text that does not go on with one. -/
theorem takeWhile_dropWhile_append (ht : ∀ c ∈ text, p c = true)
    (hr : ∀ c ∈ rest.head?, p c = false) :
    (text ++ rest).takeWhile p = text ∧ (text ++ rest).dropWhile p = rest := by
  rw [List.takeWhile_append_of_pos ht, List.dropWhile_append_of_pos ht]
  cases rest with
  | nil => simp
  | cons c rest => simp [hr c rfl]

theorem head?_dropWhile (p : Char → Bool) (text : List Char) :
    ∀ c ∈ (text.dropWhile p).head?, p c = false := by
  intro c hc
  have hn := List.head?_dropWhile_not p text
  rw [hc] at hn
  simpa using hn

/-- A longest stretch stays the same if less follows. -/
theorem stretch_beginning (htake : (text ++ rest).takeWhile p = text)
    (hdrop : (text ++ rest).dropWhile p = rest) (hp : rest' <+: rest) :
    (text ++ rest').takeWhile p = text ∧ (text ++ rest').dropWhile p = rest' := by
  refine takeWhile_dropWhile_append (fun c hc => ?_) (head?_of_beginning hp ?_)
  · rw [← htake] at hc
    exact List.mem_takeWhile_imp hc
  · rw [← hdrop]
    exact head?_dropWhile p _

theorem takeWhile_eq_nil_of_beginning (h : rest.takeWhile p = []) (hp : rest' <+: rest) :
    rest'.takeWhile p = [] := by
  obtain ⟨more, rfl⟩ := hp
  cases rest' with
  | nil => rfl
  | cons c rest' =>
    cases hc : p c with
    | false => simp [hc]
    | true => simp [hc] at h

/-! ### Numerals -/

namespace Numeral

theorem readSign_beginning {negative : Bool}
    (h : readSign ((if negative then ['-'] else []) ++ rest) = (negative, rest))
    (hp : rest' <+: rest) :
    readSign ((if negative then ['-'] else []) ++ rest') = (negative, rest') := by
  cases negative with
  | true => rfl
  | false =>
    obtain ⟨more, rfl⟩ := hp
    cases rest' with
    | nil => rfl
    | cons c rest' =>
      simp only [Bool.false_eq_true, if_false, List.nil_append, List.cons_append] at h ⊢
      unfold readSign at h ⊢
      split at h
      · cases h
      · rename_i hc
        split
        · rename_i hc'
          cases hc'
          exact absurd rfl (hc _)
        · rfl

theorem readWhole_beginning {whole : List Char} (h : readWhole (whole ++ rest) = (whole, rest))
    (hw : whole ≠ []) (hp : rest' <+: rest) : readWhole (whole ++ rest') = (whole, rest') := by
  obtain ⟨c, ds, rfl⟩ := List.exists_cons_of_ne_nil hw
  rw [List.cons_append] at h ⊢
  unfold readWhole at h ⊢
  split at h
  · cases h
    rfl
  · rename_i hc
    obtain ⟨htake, hdrop⟩ := Prod.mk.inj h
    rw [← List.cons_append] at htake hdrop
    obtain ⟨htake, hdrop⟩ := stretch_beginning htake hdrop hp
    split
    · rename_i hc'
      cases hc'
      exact absurd rfl (hc _)
    · exact Prod.ext htake hdrop

theorem readFraction_point (text : List Char) :
    readFraction ('.' :: text) =
      if text.takeWhile (·.isDigit) = [] then ([], '.' :: text)
      else (text.takeWhile (·.isDigit), text.dropWhile (·.isDigit)) := by
  simp only [readFraction]
  split
  · rename_i h
    rw [if_pos h]
  · rename_i h
    rw [if_neg h]

theorem readFraction_of_ne (h : c ≠ '.') (text : List Char) :
    readFraction (c :: text) = ([], c :: text) := by
  unfold readFraction
  split
  · rename_i hc
    cases hc
    exact absurd rfl h
  · rfl

theorem readFraction_beginning {ds : List Char}
    (h : readFraction (fractionText ds ++ rest) = (ds, rest)) (hp : rest' <+: rest) :
    readFraction (fractionText ds ++ rest') = (ds, rest') := by
  cases ds with
  | nil =>
    obtain ⟨more, rfl⟩ := hp
    cases rest' with
    | nil => rfl
    | cons c rest' =>
      by_cases hc : c = '.'
      · subst hc
        have hnone : (rest' ++ more).takeWhile (·.isDigit) = [] := by
          by_contra hne
          rw [fractionText, List.isEmpty_nil, if_pos rfl, List.nil_append, List.cons_append,
            readFraction_point, if_neg hne] at h
          exact hne (Prod.mk.inj h).1
        have hnone := takeWhile_eq_nil_of_beginning hnone (List.prefix_append rest' more)
        rw [fractionText, List.isEmpty_nil, if_pos rfl, List.nil_append, readFraction_point,
          if_pos hnone]
      · exact readFraction_of_ne hc rest'
  | cons d ds =>
    have htext : fractionText (d :: ds) = '.' :: d :: ds := rfl
    rw [htext, List.cons_append, readFraction_point] at h ⊢
    split at h
    · cases h
    · obtain ⟨htake, hdrop⟩ := Prod.mk.inj h
      obtain ⟨htake, hdrop⟩ := stretch_beginning htake hdrop hp
      rw [htake, hdrop, if_neg (List.cons_ne_nil d ds)]

/-- The sign that may stand behind the mark of a power, and the rest. -/
def powerSign : List Char → Option Char × List Char
  | c :: digits => if c = '+' || c = '-' then (some c, digits) else (none, c :: digits)
  | [] => (none, [])

theorem powerSign_eq (text : List Char) :
    (powerSign text).1.toList ++ (powerSign text).2 = text := by
  cases text with
  | nil => rfl
  | cons c text =>
    rw [powerSign]
    split <;> rfl

theorem powerSign_append (h : text ≠ []) (more : List Char) :
    powerSign (text ++ more) = ((powerSign text).1, (powerSign text).2 ++ more) := by
  obtain ⟨c, text, rfl⟩ := List.exists_cons_of_ne_nil h
  rw [List.cons_append, powerSign, powerSign]
  split <;> rfl

theorem readPower_cons (mark : Char) (text : List Char) :
    PowerOfTen.read (mark :: text) =
      if mark = 'e' || mark = 'E' then
        if (powerSign text).2.takeWhile (·.isDigit) = [] then (none, mark :: text)
        else (some ⟨mark, (powerSign text).1, (powerSign text).2.takeWhile (·.isDigit)⟩,
          (powerSign text).2.dropWhile (·.isDigit))
      else (none, mark :: text) := by
  cases text with
  | nil => simp [PowerOfTen.read, powerSign]
  | cons c text =>
    have hsign : (if c = '+' || c = '-' then (some c, text) else (none, c :: text)) =
        powerSign (c :: text) := rfl
    simp only [PowerOfTen.read]
    rw [hsign]
    split_ifs with hmark hnone
    · rw [hnone]
    · split
      · rename_i h
        exact absurd h hnone
      · rfl
    · rfl

theorem isSome_readPower_append (text more : List Char)
    (h : (PowerOfTen.read text).1.isSome = true) :
    (PowerOfTen.read (text ++ more)).1.isSome = true := by
  cases text with
  | nil => cases h
  | cons mark text =>
    rw [readPower_cons] at h
    split_ifs at h with hmark hnone
    · cases h
    · have htext : text ≠ [] := by
        rintro rfl
        exact hnone rfl
      have hmore : ((powerSign text).2 ++ more).takeWhile (·.isDigit) ≠ [] := fun hmore =>
        hnone (takeWhile_eq_nil_of_beginning hmore (List.prefix_append _ more))
      rw [List.cons_append, readPower_cons, if_pos hmark, powerSign_append htext, if_neg hmore]
      rfl
    · cases h

theorem readPower_beginning {power : Option PowerOfTen}
    (h : PowerOfTen.read (powerText power ++ rest) = (power, rest)) (hp : rest' <+: rest) :
    PowerOfTen.read (powerText power ++ rest') = (power, rest') := by
  cases power with
  | none =>
    obtain ⟨more, rfl⟩ := hp
    have heq := readPower_eq rest'
    cases hr : (PowerOfTen.read rest').1 with
    | none =>
      rw [hr] at heq
      exact Prod.ext hr heq
    | some q =>
      have hsome := isSome_readPower_append rest' more (by rw [hr]; rfl)
      rw [powerText, List.nil_append] at h
      rw [h] at hsome
      cases hsome
  | some q =>
    obtain ⟨mark, sign, ds⟩ := q
    have htext : ∀ tail, powerText (some ⟨mark, sign, ds⟩) ++ tail =
        mark :: ((sign.toList ++ ds) ++ tail) := fun tail => rfl
    rw [htext, readPower_cons] at h ⊢
    split_ifs at h with hmark hnone
    · cases h
    · obtain ⟨hq, hdrop⟩ := Prod.mk.inj h
      obtain ⟨-, hsign, htake⟩ := PowerOfTen.mk.inj (Option.some.inj hq)
      rw [htake] at hnone
      have hne : sign.toList ++ ds ≠ [] := fun he => hnone (List.append_eq_nil_iff.1 he).2
      rw [powerSign_append hne] at hsign htake hdrop
      have hds : (powerSign (sign.toList ++ ds)).2 = ds := by
        have heq := powerSign_eq (sign.toList ++ ds)
        rw [hsign] at heq
        exact List.append_cancel_left heq
      rw [hds] at htake hdrop
      obtain ⟨htake, hdrop⟩ := stretch_beginning htake hdrop hp
      rw [powerSign_append hne, hds, hsign, htake, hdrop, if_pos hmark, if_neg hnone]
    · cases h

theorem rest_of_append {a b tail tail' : List Char} (h : a ++ tail = b ++ tail') (hab : a = b) :
    tail = tail' := by
  subst hab
  exact List.append_cancel_left h

/-- A numeral that is read in front of some text is read in front of its beginnings. -/
theorem read_beginning {n : Numeral} (h : read (n.text ++ rest) = (n, rest)) (hw : n.whole ≠ [])
    (hp : rest' <+: rest) : read (n.text ++ rest') = (n, rest') := by
  obtain ⟨negative, whole, fraction, power⟩ := n
  have htext : ∀ tail, Numeral.text ⟨negative, whole, fraction, power⟩ ++ tail =
      (if negative then ['-'] else []) ++
        (whole ++ (fractionText fraction ++ (powerText power ++ tail))) := by
    intro tail
    simp [Numeral.text]
  have hstages : ∀ text, read text =
      (⟨(readSign text).1, (readWhole (readSign text).2).1,
        (readFraction (readWhole (readSign text).2).2).1,
        (PowerOfTen.read (readFraction (readWhole (readSign text).2).2).2).1⟩,
        (PowerOfTen.read (readFraction (readWhole (readSign text).2).2).2).2) := fun text => rfl
  rw [htext] at h ⊢
  rw [hstages, Prod.mk.injEq, Numeral.mk.injEq] at h
  obtain ⟨⟨h₁, h₂, h₃, hpower⟩, h₄⟩ := h
  -- What each part leaves behind is the text of the parts that follow.
  have hsign := rest_of_append (readSign_eq _) (congrArg (if · then ['-'] else []) h₁)
  rw [hsign] at h₂ h₃ h₄ hpower
  have hwhole := rest_of_append (readWhole_eq _) h₂
  rw [hwhole] at h₃ h₄ hpower
  have hfraction := rest_of_append (readFraction_eq _) (congrArg fractionText h₃)
  rw [hfraction] at h₄ hpower
  have h₄ := readPower_beginning (Prod.ext hpower h₄) hp
  have hp := (List.prefix_append_right_inj (powerText power)).2 hp
  have h₃ := readFraction_beginning (Prod.ext h₃ hfraction) hp
  have hp := (List.prefix_append_right_inj (fractionText fraction)).2 hp
  have h₂ := readWhole_beginning (Prod.ext h₂ hwhole) hw hp
  have hp := (List.prefix_append_right_inj whole).2 hp
  have h₁ := readSign_beginning (Prod.ext h₁ hsign) hp
  simp only [read, h₁, h₂, h₃, h₄]

theorem begins_of_beginning {signed : Bool} (h : begins signed rest' = true) (hp : rest' <+: rest) :
    begins signed rest = true := by
  obtain ⟨more, rfl⟩ := hp
  match rest' with
  | [] => cases h
  | [c] =>
    simp only [begins, List.head?_nil, Option.any_none, Bool.and_false, Bool.or_false] at h
    simp [begins, h]
  | c :: d :: tail => exact h

theorem whole_ne_nil_of_begins {signed : Bool} (h : begins signed text = true) :
    (read text).1.whole ≠ [] := by
  have key : ∀ c tail, c.isDigit = true → (readWhole (c :: tail)).1 ≠ [] := by
    intro c tail hc
    unfold readWhole
    split
    · exact List.cons_ne_nil _ _
    · simp [hc]
  match text with
  | [] => cases h
  | c :: tail =>
    by_cases hc : c = '-'
    · subst hc
      cases tail with
      | nil => simp [begins] at h
      | cons d tail =>
        have hd : d.isDigit = true := by
          simp [begins] at h
          exact h.2
        exact key d tail hd
    · have hsign : readSign (c :: tail) = (false, c :: tail) := by
        unfold readSign
        split
        · rename_i he
          cases he
          exact absurd rfl hc
        · rfl
      have hd : c.isDigit = true := by simpa [begins, hc] using h
      have hwhole : (read (c :: tail)).1.whole = (readWhole (readSign (c :: tail)).2).1 := rfl
      rw [hwhole, hsign]
      exact key c tail hd

/-- Whether a numeral begins is decided by the characters of the numeral. -/
theorem begins_beginning {signed : Bool} {n : Numeral} (h : begins signed (n.text ++ rest) = true)
    (hn : read (n.text ++ rest) = (n, rest)) (rest' : List Char) :
    begins signed (n.text ++ rest') = true := by
  have hw : n.whole ≠ [] := by
    have hw := whole_ne_nil_of_begins h
    rwa [hn] at hw
  obtain ⟨negative, whole, fraction, power⟩ := n
  obtain ⟨d, ds, rfl⟩ := List.exists_cons_of_ne_nil hw
  cases negative with
  | true => exact h
  | false =>
    have hsign : (readSign (d :: (ds ++ fractionText fraction ++ powerText power ++ rest))).1 =
        false := congrArg (·.1.negative) hn
    have hd : d ≠ '-' := by
      rintro rfl
      cases hsign
    simpa [Numeral.text, begins, hd] using h

end Numeral

/-! ### String literals -/

namespace Literal

/-- Hexadecimal digits end in front of a character that is none, or behind the fourth. -/
theorem hexDigits_congr {ds tail : List Char} (h : hexDigits (ds ++ c :: tail) = ds)
    (tail' : List Char) : hexDigits (ds ++ c :: tail') = ds := by
  let isHex : Char → Bool := fun x => (hexDigit? x).isSome
  have hdigits : ∀ text, hexDigits text = (text.take 4).takeWhile isHex := fun text => rfl
  have hall : ∀ x ∈ ds, isHex x = true := h ▸ isSome_of_mem_hexDigits (ds ++ c :: tail)
  have hlen : ds.length ≤ 4 := h ▸ length_hexDigits_le (ds ++ c :: tail)
  have htake : ∀ tail, (ds ++ c :: tail).take 4 = ds ++ (c :: tail).take (4 - ds.length) := by
    intro tail
    rw [List.take_append, List.take_of_length_le hlen]
  rw [hdigits, htake, List.takeWhile_append_of_pos hall] at h ⊢
  have hnone : ((c :: tail).take (4 - ds.length)).takeWhile isHex = [] :=
    List.append_cancel_left (h.trans (List.append_nil ds).symm)
  cases hn : 4 - ds.length with
  | zero => simp
  | succ k =>
    rw [hn] at hnone
    have hc : isHex c = false := by
      by_contra hc
      simp [hc] at hnone
    simp [hc]

/-- Only the end of the text ends a body without a quote. -/
theorem rest_of_not_closed (done : List Piece) (text : List Char)
    (h : (readBody done text).1.closed = false) : (readBody done text).2 = [] := by
  fun_induction readBody done text with
  | case1 done | case5 done => rfl
  | case2 done rest => cases h
  | case3 done rest digits ih | case4 done c rest _ ih | case6 done c rest _ _ _ _ ih => exact ih h

/-- A body that a quote closes is the same whatever follows the quote. -/
theorem readBody_closed (done : List Piece) (text : List Char)
    (h : (readBody done text).1.closed = true) :
    ∃ body, text = body ++ '"' :: (readBody done text).2 ∧
      ∀ rest, readBody done (body ++ '"' :: rest) = ((readBody done text).1, rest) := by
  fun_induction readBody done text with
  | case1 done | case5 done => cases h
  | case2 done rest => exact ⟨[], rfl, fun rest => by simp [readBody]⟩
  | case3 done rest digits ih =>
    obtain ⟨body, hbody, hread⟩ := ih h
    obtain ⟨x, tail, htail⟩ : ∃ (x : Char) (tail : List Char → List Char),
        ∀ more, body ++ '"' :: more = x :: tail more := by
      cases body with
      | nil => exact ⟨'"', id, fun more => rfl⟩
      | cons x body => exact ⟨x, (body ++ '"' :: ·), fun more => rfl⟩
    have hsplit : digits ++ (body ++ '"' :: (readBody (.code digits :: done)
        (rest.drop digits.length)).2) = rest := by
      rw [← hbody]
      exact hexDigits_append rest
    refine ⟨'\\' :: 'u' :: (digits ++ body), ?_, fun more => ?_⟩
    · simpa using hsplit.symm
    · have hdigits : hexDigits rest = digits := rfl
      rw [← hsplit, htail] at hdigits
      have hdigits : hexDigits (digits ++ (body ++ '"' :: more)) = digits := by
        rw [htail]
        exact hexDigits_congr hdigits _
      have htext : '\\' :: 'u' :: (digits ++ body) ++ '"' :: more =
          '\\' :: 'u' :: (digits ++ (body ++ '"' :: more)) := by simp
      rw [htext, readBody]
      simp only [hdigits, List.drop_left]
      exact hread more
  | case4 done c rest hc ih =>
    obtain ⟨body, hbody, hread⟩ := ih h
    refine ⟨'\\' :: c :: body, by rw [List.cons_append, List.cons_append, ← hbody], fun more => ?_⟩
    rw [List.cons_append, List.cons_append, readBody]
    · exact hread more
    · exact hc
  | case6 done c rest hquote hcode hescape hlast ih =>
    obtain ⟨body, hbody, hread⟩ := ih h
    refine ⟨c :: body, by rw [List.cons_append, ← hbody], fun more => ?_⟩
    have hc := ne_backslash hlast hescape
    rw [List.cons_append, readBody]
    · exact hread more
    · exact hquote
    · exact fun _ he _ => hc he
    · exact fun _ _ he _ => hc he
    · exact fun he _ => hc he

theorem read_beginning {l : Literal} {body : List Char} (h : read body = (l, rest))
    (hp : rest' <+: rest) : ∃ body', l.text ++ rest' = '"' :: body' ∧ read body' = (l, rest') := by
  have heq := read_eq body
  rw [h] at heq
  cases hc : l.closed with
  | true =>
    obtain ⟨inner, hinner, hread⟩ := readBody_closed [] body (by rw [← read, h]; exact hc)
    rw [← read, h] at hinner hread
    have htext : l.text ++ rest = '"' :: (inner ++ ['"']) ++ rest := by
      rw [heq, hinner]
      simp
    have htext := List.append_cancel_right htext
    exact ⟨inner ++ '"' :: rest', by rw [htext]; simp, hread rest'⟩
  | false =>
    have hrest := rest_of_not_closed [] body (by rw [← read, h]; exact hc)
    rw [← read, h] at hrest
    obtain rfl : rest = [] := hrest
    obtain rfl := List.prefix_nil.1 hp
    exact ⟨body, heq, h⟩

end Literal

/-! ### Blanks and comments -/

theorem rest_of_readBlock (done text : List Char) (h : (readBlock done text).2.1 = false) :
    (readBlock done text).2.2 = [] := by
  fun_induction readBlock done text with
  | case1 done => rfl
  | case2 done rest => cases h
  | case3 done c rest _ ih => exact ih h

theorem readComment_beginning {t : Trivium} (h : readComment text = some (t, rest))
    (hp : rest' <+: rest) : readComment (t.text ++ rest') = some (t, rest') := by
  have heq := readComment_eq h
  rcases readComment_cases h with ⟨body, rfl, hb, hr⟩ | ⟨body, closed, rfl, hb⟩
  · refine readComment_line hb ?_
    obtain ⟨more, rfl⟩ := hp
    cases rest' with
    | nil => exact .inl rfl
    | cons c rest' => exact .inr (hr.resolve_left (List.cons_ne_nil _ _))
  · cases closed with
    | true => simp [Trivium.text, readComment, readBlock_of_not_infix (hb rfl)]
    | false =>
      obtain rfl : rest = [] := by
        rw [← heq] at h
        simp only [Trivium.text, readComment, List.cons_append, Option.some.injEq,
          Prod.mk.injEq, Trivium.blockComment.injEq] at h
        rw [← h.2]
        exact rest_of_readBlock _ _ h.1.2
      obtain rfl := List.prefix_nil.1 hp
      rwa [heq]

theorem readComment_none_beginning (h : readComment rest = none) (hp : rest' <+: rest) :
    readComment rest' = none := by
  obtain ⟨more, rfl⟩ := hp
  unfold readComment at h ⊢
  split at h
  · cases h
  · cases h
  · rename_i hline hblock
    split
    · exact absurd rfl (hline _)
    · exact absurd rfl (hblock _)
    · rfl

theorem readGap_beginning (blank : Char → Bool) (comments : Bool) (text : List Char)
    (hp : rest' <+: (readGap blank comments [] text).2) :
    readGap blank comments []
        ((readGap blank comments [] text).1.flatMap Trivium.text ++ rest') =
      ((readGap blank comments [] text).1, rest') := by
  induction text using readGap_induction blank comments with
  | nil =>
    rw [readGap_nil] at hp ⊢
    rw [List.prefix_nil.1 hp]
    exact readGap_nil
  | blanks c text hc ih =>
    have heq := readGap_eq blank comments [] (text.dropWhile blank)
    rw [List.reverse_nil, List.flatMap_nil, List.nil_append] at heq
    rw [readGap_blank hc] at hp ⊢
    have ih := ih hp
    -- What follows the blanks still begins with no blank.
    have htail := (List.prefix_append_right_inj ((readGap blank comments []
      (text.dropWhile blank)).1.flatMap Trivium.text)).2 hp
    rw [heq] at htail
    have htail := head?_of_beginning htail (head?_dropWhile blank text)
    obtain ⟨htake, hdrop⟩ :=
      takeWhile_dropWhile_append (fun c hc => List.mem_takeWhile_imp hc) htail
    simp only [List.flatMap_cons, Trivium.text, List.cons_append, List.append_assoc]
    rw [readGap_blank hc, htake, hdrop, ih]
  | comment c text t rest hcomments hc hr ih =>
    subst hcomments
    have heq := readGap_eq blank true [] rest
    rw [List.reverse_nil, List.flatMap_nil, List.nil_append] at heq
    rw [readGap_comment hc hr] at hp ⊢
    have ih := ih hp
    have htail := (List.prefix_append_right_inj
      ((readGap blank true [] rest).1.flatMap Trivium.text)).2 hp
    rw [heq] at htail
    have hread := readComment_beginning hr htail
    obtain ⟨tail, ht⟩ : ∃ tail, t.text = c :: tail := by
      have ht := readComment_eq hr
      cases hs : t.text with
      | nil => exact absurd hs t.text_ne_nil
      | cons x tail =>
        rw [hs] at ht
        exact ⟨tail, by rw [(List.cons.inj ht).1]⟩
    rw [ht, List.cons_append] at hread
    rw [List.flatMap_cons, List.append_assoc, ht, List.cons_append, readGap_comment hc hread, ih]
  | solid c text hc hr =>
    rw [readGap_solid hc hr] at hp ⊢
    cases rest' with
    | nil => exact readGap_nil
    | cons x rest' =>
      obtain ⟨rfl, -⟩ := List.cons_prefix_cons.1 hp
      exact readGap_solid hc fun ha => readComment_none_beginning (hr ha) hp

/-! ### Lexemes -/

/-- A table finds nothing at the beginning of a text where it finds nothing at the text. -/
theorem Operator.match?_none_beginning {table : List Operator} (h : match? table rest = none)
    (hp : rest' <+: rest) : match? table rest' = none := by
  rw [match?, List.find?_eq_none] at h ⊢
  refine fun op hop hb => h op hop ?_
  rw [begins, List.isPrefixOf_iff_prefix] at hb ⊢
  exact hb.trans hp

theorem Operator.match?_beginning {table : List Operator} {op : Operator}
    (h : match? table (op.spelling.toList ++ rest) = some op) (hp : rest' <+: rest) :
    match? table (op.spelling.toList ++ rest') = some op := by
  obtain ⟨-, before, behind, rfl, hbefore⟩ := List.find?_eq_some_iff_append.1 h
  refine List.find?_eq_some_iff_append.2 ⟨?_, before, behind, rfl, fun o ho => ?_⟩
  · rw [begins, List.isPrefixOf_iff_prefix]
    exact List.prefix_append _ _
  · have hnone := hbefore o ho
    rw [Bool.not_eq_true', ← Bool.not_eq_true, begins, List.isPrefixOf_iff_prefix] at hnone ⊢
    exact fun hb => hnone (hb.trans ((List.prefix_append_right_inj _).2 hp))

namespace Lexeme

variable {d : Dialect} {l : Lexeme}

theorem ofGap_beginning {blank : Char → Bool} {comments : Bool}
    (h : ofGap (readGap blank comments [] text) = some (l, rest)) (hp : rest' <+: rest) :
    ofGap (readGap blank comments [] (l.text ++ rest')) = some (l, rest') := by
  have hread : rest' <+: (readGap blank comments [] text).2 → _ :=
    readGap_beginning blank comments text
  rcases hg : readGap blank comments [] text with ⟨run, tail⟩
  rw [hg] at h hread
  cases run with
  | nil => cases h
  | cons t ts =>
    cases h
    rw [Lexeme.text, hread hp]
    rfl

theorem ofGap_none_beginning {blank : Char → Bool} {comments : Bool}
    (h : ofGap (readGap blank comments [] rest) = none) (hp : rest' <+: rest) :
    ofGap (readGap blank comments [] rest') = none := by
  have hread : rest' <+: (readGap blank comments [] rest).2 → _ :=
    readGap_beginning blank comments rest
  have heq := readGap_eq blank comments [] rest
  rcases hg : readGap blank comments [] rest with ⟨run, tail⟩
  rw [hg] at h hread heq
  cases run with
  | nil =>
    obtain rfl : tail = rest := by simpa using heq
    have hread : readGap blank comments [] rest' = ([], rest') := by simpa using hread hp
    rw [hread]
    rfl
  | cons t ts => cases h

theorem readTrivia_beginning (h : readTrivia d text = some (l, rest)) (hp : rest' <+: rest) :
    readTrivia d (l.text ++ rest') = some (l, rest') := by
  obtain ⟨heq, hl⟩ := readTrivia_eq h
  unfold readTrivia at h ⊢
  split at h
  · rename_i hd
    rw [if_pos hd]
    split at h
    · cases h
      rfl
    · rename_i hfeed
      split
      · -- The run would begin with the line feed.
        rename_i tail htail
        obtain ⟨c, cs, hc⟩ := List.exists_cons_of_ne_nil hl
        rw [hc] at heq htail
        exact absurd heq.symm (by rw [(List.cons.inj htail).1]; exact hfeed _)
      · exact ofGap_beginning h hp
  · rename_i hd
    rw [if_neg hd]
    exact ofGap_beginning h hp

theorem readTrivia_none_beginning (h : readTrivia d rest = none) (hp : rest' <+: rest) :
    readTrivia d rest' = none := by
  unfold readTrivia at h ⊢
  split at h
  · rename_i hd
    rw [if_pos hd]
    split at h
    · cases h
    · rename_i hfeed
      split
      · obtain ⟨more, rfl⟩ := hp
        exact absurd rfl (hfeed _)
      · exact ofGap_none_beginning h hp
  · rename_i hd
    rw [if_neg hd]
    exact ofGap_none_beginning h hp

theorem readSolid_beginning (h : readSolid d (l.text ++ rest) = some (l, rest)) (hl : l.text ≠ [])
    (hp : rest' <+: rest) : readSolid d (l.text ++ rest') = some (l, rest') := by
  have htext := (List.prefix_append_right_inj l.text).2 hp
  obtain ⟨c, cs, hc⟩ := List.exists_cons_of_ne_nil hl
  have hcons : ∀ tail, l.text ++ tail = c :: (cs ++ tail) := fun tail => by
    rw [hc, List.cons_append]
  rw [hcons] at h htext ⊢
  rw [hcons] at htext
  simp only [readSolid] at h ⊢
  split at h
  · rename_i hb
    obtain ⟨rfl, hrest⟩ := Prod.mk.inj (Option.some.inj h)
    have hw := Numeral.whole_ne_nil_of_begins hb
    have hn : Numeral.read (c :: (cs ++ rest)) =
      ((Numeral.read (c :: (cs ++ rest))).1, rest) := Prod.ext rfl hrest
    generalize (Numeral.read (c :: (cs ++ rest))).1 = n at hn hw hcons ⊢
    have hcons : ∀ tail, c :: (cs ++ tail) = n.text ++ tail := fun tail => (hcons tail).symm
    rw [hcons] at hb hn ⊢
    rw [if_pos (Numeral.begins_beginning hb hn rest'), Numeral.read_beginning hn hw hp]
  · rename_i hb
    rw [if_neg fun hb' => hb (Numeral.begins_of_beginning hb' htext)]
    split at h
    · rename_i hquote
      rw [if_pos hquote]
      obtain ⟨rfl, hrest⟩ := Prod.mk.inj (Option.some.inj h)
      have hread : Literal.read (cs ++ rest) = ((Literal.read (cs ++ rest)).1, rest) :=
        Prod.ext rfl hrest
      obtain ⟨body, hbody, hread'⟩ := Literal.read_beginning hread hp
      obtain ⟨-, hcs⟩ := List.cons.inj ((hcons rest').symm.trans hbody)
      rw [hcs, hread']
    · rename_i hquote
      rw [if_neg hquote]
      split at h
      · rename_i hw
        rw [if_pos hw]
        obtain ⟨rfl, hrest⟩ := Prod.mk.inj (Option.some.inj h)
        have hw : (c :: cs ++ rest).takeWhile isWordChar = c :: cs := hc
        obtain ⟨htake, hdrop⟩ := stretch_beginning hw hrest hp
        rw [List.cons_append] at htake hdrop
        rw [htake, hdrop, ← hc]
        rfl
      · rename_i hw
        rw [if_neg hw]
        split at h
        · rename_i op hop
          obtain ⟨rfl, hrest⟩ := Prod.mk.inj (Option.some.inj h)
          rw [← hcons] at hop ⊢
          have hop : Operator.match? d.operators ((operator op).text ++ rest') = some op :=
            Operator.match?_beginning hop hp
          rw [hop]
          simp [Lexeme.text]
        · rename_i hop
          obtain ⟨rfl, hrest⟩ := Prod.mk.inj (Option.some.inj h)
          rw [Operator.match?_none_beginning hop htext]
          obtain ⟨-, rfl⟩ := List.cons.inj hc
          rfl

/-- A lexeme that is read in front of some text is read in front of its beginnings. -/
theorem read_beginning (h : read d text = some (l, rest)) (hl : l.text ≠ []) (hp : rest' <+: rest) :
    read d (l.text ++ rest') = some (l, rest') := by
  have heq := read_eq h
  unfold read at h ⊢
  split at h
  · rename_i r hr
    cases h
    rw [readTrivia_beginning hr hp]
  · rename_i hr
    rw [← heq] at h hr
    rw [readTrivia_none_beginning hr ((List.prefix_append_right_inj l.text).2 hp),
      readSolid_beginning h hl hp]

end Lexeme

end Resilient
