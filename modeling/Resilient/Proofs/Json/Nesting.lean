import Resilient.Proofs.Json.Reading

/-!
# Bracket groups and their slots

`Nested P` are the scans in which every opening bracket is closed by one of its kind, and `P` holds
of the tokens outside all brackets. `slots` cuts them at the commas outside all brackets.
-/

namespace Resilient

namespace Json

/-- The brackets that belong together. -/
def bracketPairs : List (Kind × Kind) :=
  [(.leftBracket, .rightBracket), (.leftBrace, .rightBrace)]

/-- Every opening bracket is closed by one of its kind, and the other tokens outside all brackets
have the property. -/
inductive Nested : (Kind → Prop) → List Scan → Prop where
  | nil {P : Kind → Prop} : Nested P []
  | plain {P : Kind → Prop} {s : Scan} {ss : List Scan} (ho : s.token.kind.opens = false)
      (hc : s.token.kind.closes = false) (he : s.token.kind ≠ .eof) (hp : P s.token.kind)
      (h : Nested P ss) : Nested P (s :: ss)
  | group {P : Kind → Prop} {a b : Scan} {body ss : List Scan}
      (hab : (a.token.kind, b.token.kind) ∈ bracketPairs) (hbody : Nested (fun _ => True) body)
      (h : Nested P ss) : Nested P (a :: (body ++ b :: ss))

/-- Nested scans without a comma outside all brackets. -/
abbrev Slot (ss : List Scan) : Prop := Nested (· ≠ .comma) ss

/-- The slots of scans inside `nesting` brackets, behind what belongs to the first one, last
first. -/
def slotsOnto (slot : List Scan) (nesting : Nat) : List Scan → List (List Scan)
  | [] => [slot.reverse]
  | s :: ss =>
    if s.token.kind = .comma ∧ nesting = 0 then slot.reverse :: slotsOnto [] 0 ss
    else slotsOnto (s :: slot) (nest s.token nesting) ss

/-- What stands between the commas outside all brackets. -/
def slots (ss : List Scan) : List (List Scan) := slotsOnto [] 0 ss

/-- The slots without an empty last one. -/
def filledSlots (ss : List Scan) : List (List Scan) :=
  if (slots ss).getLast? = some [] then (slots ss).dropLast else slots ss

variable {P Q : Kind → Prop} {s a b : Scan} {ss ts body rest slot : List Scan} {n : Nat}
  {k : Kind}

theorem nest_of_plain {t : Token} (ho : t.kind.opens = false) (hc : t.kind.closes = false)
    (n : Nat) : nest t n = n := by
  simp [nest, ho, hc]

theorem opens_closes_of_mem (h : (a.token.kind, b.token.kind) ∈ bracketPairs) :
    a.token.kind.opens = true ∧ b.token.kind.opens = false ∧ b.token.kind.closes = true := by
  have key : ∀ e ∈ bracketPairs, e.1.opens = true ∧ e.2.opens = false ∧ e.2.closes = true := by
    decide
  exact key _ h

theorem plain_of_opens (h : k.opens = true) : k.closes = false ∧ k ≠ .eof ∧ k ≠ .comma := by
  revert h
  cases k <;> simp [Kind.opens, Kind.closes]

theorem nest_of_opener {t : Token} (h : t.kind.opens = true) (n : Nat) : nest t n = n + 1 := by
  simp [nest, h]

theorem nest_of_closer {t : Token} (ho : t.kind.opens = false) (hc : t.kind.closes = true)
    (n : Nat) : nest t (n + 1) = n := by
  simp [nest, ho, hc]

namespace Nested

theorem mono (h : Nested P ss) (hPQ : ∀ k, P k → Q k) : Nested Q ss := by
  induction h with
  | nil => exact .nil
  | plain ho hc he hp _ ih => exact .plain ho hc he (hPQ _ hp) (ih hPQ)
  | group hab hbody _ _ ih => exact .group hab hbody (ih hPQ)

theorem of_forall (h : ∀ s ∈ ss, s.token.kind.opens = false ∧ s.token.kind.closes = false ∧
    s.token.kind ≠ .eof ∧ P s.token.kind) : Nested P ss := by
  induction ss with
  | nil => exact .nil
  | cons s ss ih =>
    obtain ⟨ho, hc, he, hp⟩ := h s (by simp)
    exact .plain ho hc he hp (ih fun s hs => h s (by simp [hs]))

theorem append (h : Nested P ss) (ht : Nested P ts) : Nested P (ss ++ ts) := by
  induction h with
  | nil => exact ht
  | plain ho hc he hp _ ih => exact .plain ho hc he hp (ih ht)
  | group hab hbody _ _ ih => simpa using group hab hbody (ih ht)

/-- The first token outside all brackets of a kind, if there is one, cuts the scans. -/
theorem cut (h : Nested P ss) (k : Kind) :
    Nested (fun i => P i ∧ i ≠ k) ss ∨ ∃ pre s post, ss = pre ++ s :: post ∧
      Nested (fun i => P i ∧ i ≠ k) pre ∧ s.token.kind = k ∧ Nested P post := by
  induction h with
  | nil => exact .inl .nil
  | @plain P s ss ho hc he hp h ih =>
    by_cases hk : s.token.kind = k
    · exact .inr ⟨[], s, ss, rfl, .nil, hk, h⟩
    · rcases ih with h | ⟨pre, s', post, rfl, hpre, hs', hpost⟩
      · exact .inl (.plain ho hc he ⟨hp, hk⟩ h)
      · exact .inr ⟨s :: pre, s', post, rfl, .plain ho hc he ⟨hp, hk⟩ hpre, hs', hpost⟩
  | @group P a b body ss hab hbody h _ ih =>
    rcases ih with h | ⟨pre, s', post, rfl, hpre, hs', hpost⟩
    · exact .inl (.group hab hbody h)
    · exact .inr ⟨a :: (body ++ b :: pre), s', post, by simp, .group hab hbody hpre, hs', hpost⟩

theorem exists_closer (h : Nested P ss) {pre post : List Scan} (heq : ss = pre ++ a :: post)
    (ha : a.token.kind.opens = true) :
    ∃ body b rest, post = body ++ b :: rest ∧ Nested (fun _ => True) body ∧
      (a.token.kind, b.token.kind) ∈ bracketPairs := by
  induction h generalizing pre post with
  | nil => simp at heq
  | @plain P s ss ho hc he hp h ih =>
    cases pre with
    | nil =>
      simp only [List.nil_append, List.cons.injEq] at heq
      rw [heq.1, ha] at ho
      cases ho
    | cons s' pre =>
      simp only [List.cons_append, List.cons.injEq] at heq
      exact ih heq.2
  | @group P a' b body ss hab hbody h ihbody ih =>
    cases pre with
    | nil =>
      simp only [List.nil_append, List.cons.injEq] at heq
      obtain ⟨rfl, rfl⟩ := heq
      exact ⟨body, b, ss, rfl, hbody, hab⟩
    | cons s' pre =>
      simp only [List.cons_append, List.cons.injEq] at heq
      obtain ⟨-, heq⟩ := heq
      -- The bracket stands inside the group, or behind it.
      rcases List.append_eq_append_iff.1 heq with ⟨us, rfl, hus⟩ | ⟨us, hus, hpost⟩
      · cases us with
        | nil =>
          simp only [List.nil_append, List.cons.injEq] at hus
          obtain ⟨rfl, -⟩ := hus
          rw [(opens_closes_of_mem hab).2.1] at ha
          cases ha
        | cons u us =>
          simp only [List.cons_append, List.cons.injEq] at hus
          exact ih hus.2
      · cases us with
        | nil =>
          simp only [List.nil_append, List.cons.injEq] at hpost
          obtain ⟨rfl, -⟩ := hpost
          rw [(opens_closes_of_mem hab).2.1] at ha
          cases ha
        | cons u us =>
          simp only [List.cons_append, List.cons.injEq] at hpost
          obtain ⟨rfl, rfl⟩ := hpost
          obtain ⟨inner, b', rest, rfl, hinner, hab'⟩ := ihbody hus
          exact ⟨inner, b', rest ++ b :: ss, by simp, hinner, hab'⟩

end Nested

/-! ### Sentences -/

theorem nested_scalar {a : Scalar} (h : Terminals.scan.scalar a ss)
    (hP : ∀ a : Scalar, P a.kind) : Nested P ss := by
  obtain ⟨s, rfl, hk, -⟩ := h
  have hplain : a.kind.opens = false ∧ a.kind.closes = false ∧ a.kind ≠ .eof := by
    cases a with
    | bool b => cases b <;> simp [Scalar.kind, Kind.opens, Kind.closes]
    | _ => simp [Scalar.kind, Kind.opens, Kind.closes]
  rw [← hk] at hplain
  exact .plain hplain.1 hplain.2.1 hplain.2.2 (by rw [hk]; exact hP a) .nil

theorem nested_group {k k' : Kind} {x y : List Scan} (hk : (k, k') ∈ bracketPairs)
    (hx : Terminals.scan.mark k x) (h : Nested (fun _ => True) ss) (hy : Terminals.scan.mark k' y) :
    Nested P (x ++ (ss ++ y)) := by
  obtain ⟨a, rfl, rfl⟩ := hx
  obtain ⟨b, rfl, rfl⟩ := hy
  exact .group hk h .nil

theorem nested_of_sentence {part : Part} (h : Sentence Terminals.scan ss part) :
    Nested (fun _ => True) ss := by
  induction h with
  | null h | bool h | number h | string h => exact nested_scalar h fun _ => trivial
  | emptyArray ha hb => exact nested_group (.head _) ha .nil hb
  | array ha _ hb ih => exact nested_group (.head _) ha ih hb
  | emptyObject ha hb => exact nested_group (.tail _ (.head _)) ha .nil hb
  | object ha _ hb ih => exact nested_group (.tail _ (.head _)) ha ih hb
  | oneItem _ ih | oneMember _ ih => exact ih
  | moreItems _ hc _ ihs ih | moreMembers _ hc _ ihs ih =>
    obtain ⟨c, rfl, hk⟩ := hc
    exact ihs.append (.plain (by rw [hk]; rfl) (by rw [hk]; rfl) (by simp [hk]) trivial ih)
  | member hkey hc _ ih =>
    obtain ⟨c, rfl, hk⟩ := hc
    exact (nested_scalar hkey fun _ => trivial).append
      (.plain (by rw [hk]; rfl) (by rw [hk]; rfl) (by simp [hk]) trivial ih)

/-- A value has no comma outside all brackets. -/
theorem slot_of_sentence {v : Value} (h : Sentence Terminals.scan ss (.value v)) : Slot ss := by
  cases h with
  | null h | bool h | number h | string h =>
    refine nested_scalar h fun a => ?_
    cases a with
    | bool b => cases b <;> simp [Scalar.kind]
    | _ => simp [Scalar.kind]
  | emptyArray ha hb => exact nested_group (.head _) ha .nil hb
  | array ha h hb => exact nested_group (.head _) ha (nested_of_sentence h) hb
  | emptyObject ha hb => exact nested_group (.tail _ (.head _)) ha .nil hb
  | object ha h hb => exact nested_group (.tail _ (.head _)) ha (nested_of_sentence h) hb

/-! ### Slots -/

theorem slotsOnto_append (h : Nested P ss) (hn : 0 < n ∨ ∀ k, P k → k ≠ .comma)
    (slot rest : List Scan) :
    slotsOnto slot n (ss ++ rest) = slotsOnto (ss.reverse ++ slot) n rest := by
  induction h generalizing n slot rest with
  | nil => rfl
  | @plain P s ss ho hc he hp h ih =>
    have hs : ¬ (s.token.kind = .comma ∧ n = 0) := by
      rintro ⟨hk, rfl⟩
      rcases hn with hn | hn
      · cases hn
      · exact hn _ hp hk
    rw [List.cons_append, slotsOnto, if_neg hs, nest_of_plain ho hc, ih hn]
    simp
  | @group P a b body ss hab hbody h ihbody ih =>
    obtain ⟨ha, hbo, hbc⟩ := opens_closes_of_mem hab
    have hka : ¬ (a.token.kind = .comma ∧ n = 0) := by
      rintro ⟨hk, -⟩
      rw [hk] at ha
      cases ha
    have hkb : ¬ (b.token.kind = .comma ∧ n + 1 = 0) := by simp
    have hassoc : a :: (body ++ b :: ss) ++ rest = a :: (body ++ b :: (ss ++ rest)) := by simp
    rw [hassoc, slotsOnto, if_neg hka, nest_of_opener ha, ihbody (.inl (Nat.succ_pos n)), slotsOnto,
      if_neg hkb, nest_of_closer hbo hbc, ih hn]
    simp

theorem slots_of_slot (h : Slot ss) : slots ss = [ss] := by
  have hs := slotsOnto_append h (n := 0) (.inr fun _ hk => hk) [] []
  simpa [slots, slotsOnto] using hs

theorem slots_append_comma (h : Slot ss) (hs : s.token.kind = .comma) (ts : List Scan) :
    slots (ss ++ s :: ts) = ss :: slots ts := by
  rw [slots, slotsOnto_append h (.inr fun _ hk => hk)]
  simp [slotsOnto, hs, slots]

theorem slots_ne_nil (ss : List Scan) : slots ss ≠ [] := by
  have key : ∀ slot n, slotsOnto slot n ss ≠ [] := by
    induction ss with
    | nil => simp [slotsOnto]
    | cons s ss ih =>
      intro slot n
      rw [slotsOnto]
      split
      · simp
      · exact ih _ _
  exact key [] 0

theorem filledSlots_of_slot (h : Slot ss) (hne : ss ≠ []) : filledSlots ss = [ss] := by
  simp [filledSlots, slots_of_slot h, hne]

theorem filledSlots_append_comma (h : Slot ss) (hs : s.token.kind = .comma) (ts : List Scan) :
    filledSlots (ss ++ s :: ts) = ss :: filledSlots ts := by
  have hne := slots_ne_nil ts
  rw [filledSlots, slots_append_comma h hs, filledSlots, List.getLast?_cons_of_ne_nil hne,
    List.dropLast_cons_of_ne_nil hne]
  split <;> rfl

end Json

end Resilient
