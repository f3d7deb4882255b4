import Resilient.Proofs.Json.Acceptance
import Resilient.Proofs.Json.Nesting

/-!
# Levels of brackets

While a sentence is read, each open bracket stands for one container that waits on the stack, or for
the one that is being filled (`Reached.level`). So a container is never entered inside more of them
than brackets are open at a time, and a bound on depth that allows as many is never met
(`passes_of_deepest`).
-/

namespace Resilient

namespace Json

/-- How many brackets are open behind the scans, if `n` are open before. -/
def level (n : Nat) (ss : List Scan) : Nat := ss.foldl (fun n s => nest s.token n) n

/-- The greatest number of brackets that are open at a time, if `n` are open before. -/
def deepest (n : Nat) : List Token → Nat
  | [] => n
  | t :: ts => max n (deepest (nest t n) ts)

variable {limits : Limits} {mode : Mode} {st : List Frame} {ss : List Scan} {g : Group} {v : Value}
  {P : Kind → Prop}

theorem level_append (n : Nat) (ss ts : List Scan) :
    level n (ss ++ ts) = level (level n ss) ts := List.foldl_append

theorem le_deepest (n : Nat) (ts : List Token) : n ≤ deepest n ts := by
  cases ts with
  | nil => exact Nat.le_refl n
  | cons t ts => exact Nat.le_max_left _ _

theorem level_le_deepest (n : Nat) (pre post : List Scan) :
    level n pre ≤ deepest n ((pre ++ post).map Scan.token) := by
  induction pre generalizing n with
  | nil => exact le_deepest n _
  | cons s pre ih => exact Nat.le_trans (ih (nest s.token n)) (Nat.le_max_right _ _)

theorem deepest_le_append (n : Nat) (ts us : List Token) : deepest n ts ≤ deepest n (ts ++ us) := by
  induction ts generalizing n with
  | nil => exact le_deepest n _
  | cons t ts ih =>
    exact Nat.max_le.2 ⟨Nat.le_max_left _ _, Nat.le_trans (ih (nest t n)) (Nat.le_max_right _ _)⟩

/-- The kinds of the tokens decide. -/
theorem deepest_congr {ts us : List Token} (h : ts.map Token.kind = us.map Token.kind) (n : Nat) :
    deepest n ts = deepest n us := by
  induction ts generalizing us n with
  | nil =>
    obtain rfl : us = [] := List.map_eq_nil_iff.1 h.symm
    rfl
  | cons t ts ih =>
    obtain ⟨u, us, rfl⟩ : ∃ u us', us = u :: us' := by
      cases us with
      | nil => cases h
      | cons u us => exact ⟨u, us, rfl⟩
    obtain ⟨hkind, hts⟩ := List.cons.inj h
    have hnest : nest t n = nest u n := by
      have hkind : t.kind = u.kind := hkind
      simp only [nest, hkind]
    rw [deepest, deepest, hnest, ih hts]

/-! ### Sentences -/

theorem Nested.level (h : Nested P ss) (n : Nat) : level n ss = n := by
  induction h generalizing n with
  | nil => rfl
  | @plain P s ss ho hc _ _ _ ih =>
    have hs : Json.level n (s :: ss) = Json.level (nest s.token n) ss := rfl
    rw [hs, nest_of_plain ho hc, ih]
  | @group P a b body ss hab _ _ ihbody ih =>
    obtain ⟨ha, hbo, hbc⟩ := opens_closes_of_mem hab
    have hs : Json.level n (a :: (body ++ b :: ss)) =
        Json.level (nest b.token (Json.level (nest a.token n) body)) ss := by
      rw [← List.cons_append, level_append]
      rfl
    rw [hs, nest_of_opener ha, ihbody, nest_of_closer hbo hbc, ih]

theorem level_opener (h : Terminals.scan.mark g.opener ss) (n : Nat) : level n ss = n + 1 := by
  obtain ⟨s, rfl, hk⟩ := h
  have ho : s.token.kind.opens = true := by
    rw [hk]
    cases g <;> rfl
  exact nest_of_opener ho n

theorem level_mark {k : Kind} (h : Terminals.scan.mark k ss) (ho : k.opens = false)
    (hc : k.closes = false) (n : Nat) : level n ss = n := by
  obtain ⟨s, rfl, rfl⟩ := h
  exact nest_of_plain ho hc n

theorem level_scalar {a : Scalar} (h : Terminals.scan.scalar a ss) (n : Nat) : level n ss = n :=
  (nested_scalar (P := fun _ => True) h fun _ => trivial).level n

theorem Filled.level (h : Filled g ss) (n : Nat) : level n ss = n + 1 := by
  cases h with
  | array ha h =>
    rw [level_append, level_opener (g := .array []) ha, (nested_of_sentence h).level]
  | object ha h =>
    rw [level_append, level_opener (g := .object []) ha, (nested_of_sentence h).level]

theorem Ready.level (h : Ready g ss) (n : Nat) : level n ss = n + 1 := by
  cases h with
  | first hg ha => exact level_opener ha n
  | next hf hc => rw [level_append, hf.level, level_mark hc rfl rfl]

/-- Each container on the stack is an open bracket. -/
theorem Awaits.level (h : Awaits st ss) : level 0 ss = st.length := by
  induction h with
  | nil => rfl
  | item _ hready ih => rw [level_append, ih, hready.level, List.length_cons]
  | member _ hready hk hc ih =>
    rw [level_append, ih, level_append, hready.level, level_append, level_scalar hk,
      level_mark hc rfl rfl, List.length_cons]

/-- The container that was entered last is one more open bracket. -/
theorem Reached.level {b : Span} (h : Reached (.opened g b) st ss) :
    level 0 ss = st.length + 1 := by
  cases h with
  | opened hs _ ha => rw [level_append, hs.level, level_opener ha]

theorem legal_of_sentence {part : Part} (h : Sentence Terminals.scan ss part) :
    ∀ s ∈ ss, Legal s.token := by
  have hmark : ∀ {k us}, k ∈ punctuation.map Prod.fst → Terminals.scan.mark k us →
      ∀ s ∈ us, Legal s.token := by
    rintro k us hk ⟨s, rfl, rfl⟩
    exact List.forall_mem_singleton.2 (.inl (List.mem_cons_of_mem _ hk))
  have hscalar : ∀ {a us}, Terminals.scan.scalar a us → ∀ s ∈ us, Legal s.token := by
    rintro a us ⟨s, rfl, hs⟩
    exact List.forall_mem_singleton.2 (.inr ⟨a, hs⟩)
  induction h with
  | null h | bool h | number h | string h => exact hscalar h
  | emptyArray ha hb | emptyObject ha hb =>
    exact List.forall_mem_append.2 ⟨hmark (by decide) ha, hmark (by decide) hb⟩
  | array ha _ hb ih | object ha _ hb ih =>
    exact List.forall_mem_append.2
      ⟨hmark (by decide) ha, List.forall_mem_append.2 ⟨ih, hmark (by decide) hb⟩⟩
  | oneItem _ ih | oneMember _ ih => exact ih
  | moreItems _ hc _ ihs ih | moreMembers _ hc _ ihs ih =>
    exact List.forall_mem_append.2
      ⟨ihs, List.forall_mem_append.2 ⟨hmark (by decide) hc, ih⟩⟩
  | member hk hc _ ih =>
    exact List.forall_mem_append.2
      ⟨hscalar hk, List.forall_mem_append.2 ⟨hmark (by decide) hc, ih⟩⟩

/-! ### Reading within a bound -/

/-- The bound on depth acts only where a container is entered. -/
theorem react_of_lt {max : Nat} (hl : limits.depth = some max)
    (h : ∀ g b, mode = .opened g b → st.length < max) (c : Bool) (t : Token) :
    react .unlimited mode st c t = react limits mode st c t := by
  cases mode with
  | opened g b =>
    have hlt := h g b rfl
    have hfree : (limits.reachedDepth fun _ => st.length) = none := by
      simpa [Limits.reachedDepth, hl] using hlt
    simp only [react, hfree]
    rfl
  | _ => rfl

/-- A sentence is taken within a bound on depth that allows as many containers inside each other as
brackets are open at a time. -/
theorem passes_of_deepest (h : Sentence Terminals.scan ss (.value v))
    (hclean : ∀ s ∈ ss, s.reports = [])
    (hdepth : ∀ max ∈ limits.depth, deepest 0 (ss.map Scan.token) ≤ max) :
    Passes limits ⟨.value, [], false⟩ ss [] ⟨.ended v, [], false⟩ := by
  have hfound : found ss = [] := List.flatMap_eq_nil_iff.2 hclean
  cases hl : limits.depth with
  | none =>
    have hp := passed_of_sentence hl h []
    rwa [hfound] at hp
  | some max =>
    have hp := passed_of_sentence (rfl : Limits.unlimited.depth = none) h []
    rw [hfound] at hp
    refine hp.congr fun pre s post r z heq hpre hr => ?_
    obtain rfl : r = [] := List.prefix_nil.1 hr
    have hlegal : ∀ s ∈ pre, Legal s.token := fun s hs =>
      legal_of_sentence h s (heq ▸ List.mem_append_left _ hs)
    obtain ⟨hreached, -⟩ := reached_of_passes rfl hpre rfl hlegal (.value .nil)
    refine react_of_lt hl (fun g b hmode => ?_) z.complained s.token
    rw [hmode] at hreached
    have hlevel := hreached.level
    have hle := level_le_deepest 0 pre (s :: post)
    rw [← heq] at hle
    have hmax := hdepth max hl
    rw [List.nil_append] at hlevel
    omega

end Json

end Resilient
