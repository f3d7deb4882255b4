import Resilient.Proofs.Json.Acceptance
import Resilient.Proofs.Json.Ending
import Resilient.Proofs.Source.Beginning

/-!
# What is read of the beginning of a document

If a document ends too early, the containers that are open are closed, and what was read before
stays where it is. `Element` says where a value stands in a document and which tokens write it, and
`kept_of_element` that it is still there if these tokens are, and if no later member took its key.
-/

namespace Resilient

/-! ### What is found at the end of a path -/

namespace Value

/-- The value one step further, if there is one. -/
def step? (v : Value) : Step → Option Value
  | .key k => v.get? k
  | .index i => v.items?.bind (·[i]?)

/-- The value at the end of a path, if the path leads to one. -/
def at? (v : Value) : List Step → Option Value
  | [] => some v
  | s :: path => (v.step? s).bind (·.at? path)

theorem at?_index (vs : List Value) (i : Nat) (path : List Step) :
    (array vs).at? (.index i :: path) = vs[i]?.bind (·.at? path) := rfl

theorem at?_append {vs : List Value} {i : Nat} {path : List Step} {w : Value} (more : List Value)
    (h : (array vs).at? (.index i :: path) = some w) :
    (array (vs ++ more)).at? (.index i :: path) = some w := by
  rw [at?_index] at h ⊢
  obtain ⟨v, hv, -⟩ := Option.bind_eq_some_iff.1 h
  rwa [List.getElem?_append_left (List.getElem?_eq_some_iff.1 hv).1]

theorem at?_key (es : Entries Value) (key : String) (path : List Step) :
    (object es).at? (.key key :: path) = (es.get? key).bind (·.at? path) := rfl

end Value

namespace Json

open Value (Step)

variable {x y : State} {ss ts us ws a b c k t : List Scan} {st : List Frame} {g : Group}
  {f : Frame} {u v w : Value} {vs : List Value} {ms : List (String × Value)} {key : String}
  {part : Part} {path : List Step} {own rivals : List Scan} {seen : Scan → Prop}
  {r : List Diagnostic} {done es : Entries Value}

/-! ### Texts that end behind some scans -/

/-- From the state on, this value is read if the text ends behind the scans. -/
def Reads (x : State) (us : List Scan) (v : Value) : Prop :=
  ∃ r y, Passes .unlimited x us r y ∧ y.last = v

theorem Reads.nil (x : State) : Reads x [] x.last := ⟨[], x, .nil, rfl⟩

theorem Reads.of_passes (h : Passes .unlimited x ss r y) (h' : Reads y us v) :
    Reads x (ss ++ us) v := by
  obtain ⟨r', z, hp, hv⟩ := h'
  exact ⟨r ++ r', z, h.append hp, hv⟩

theorem Reads.unique (h : Reads x us v) (h' : Reads x us w) : v = w := by
  obtain ⟨r, y, hp, rfl⟩ := h
  obtain ⟨r', y', hp', rfl⟩ := h'
  rw [hp.unique hp']

theorem reads_of_passes (h : Passes .unlimited x ss r y) : Reads x ss y.last := ⟨r, y, h, rfl⟩

/-- What follows a bracket or a comma is read as a part of the container. -/
theorem Starts.reads (hx : Starts g st x) (h : Sentence Terminals.scan ts part) (hp : us <+: ts)
    (hr : Reads (g.part st) us v) : Reads x us v := by
  obtain ⟨r, y, hy, rfl⟩ := hr
  cases us with
  | nil =>
    cases hy
    rw [← hx.last]
    exact .nil x
  | cons s us =>
    obtain ⟨s', rest, rfl, hs⟩ := exists_cons_of_sentence h
    obtain ⟨rfl, -⟩ := List.cons_prefix_cons.1 hp
    exact ⟨r, y, hx.passes rfl (ne_closer (closes_of_beginsValue hs) g) hy, rfl⟩

theorem reads_opener (hg : g.Empty) (ha : Terminals.scan.mark g.opener a)
    (h : Sentence Terminals.scan ts part) (hp : us <+: ts) (hr : Reads (g.part st) us v) :
    Reads ⟨.value, st, false⟩ (a ++ us) v := by
  obtain ⟨b, ho⟩ := passes_opener .unlimited hg ha st
  exact .of_passes ho ((Starts.opened b).reads h hp hr)

theorem reads_closer (hg : g.Empty) (ha : Terminals.scan.mark g.opener a)
    (h : Sentence Terminals.scan ts part)
    (hp : Passes .unlimited (g.part st) ts r ⟨.ended v, f :: st, false⟩)
    (hb : Terminals.scan.mark (f.fill v).closer b) (hus : us <+: b) :
    Reads ⟨.value, st, false⟩ (a ++ (ts ++ us)) (close (f.fill v).value st) := by
  obtain ⟨o, ho⟩ := passes_opener .unlimited hg ha st
  refine .of_passes ho (.of_passes ((Starts.opened o).passes_sentence rfl h hp) ?_)
  obtain ⟨s, rfl, hs⟩ := hb
  rcases List.prefix_cons_iff.1 hus with rfl | ⟨us, rfl, hnil⟩
  · exact .nil _
  · obtain rfl := List.prefix_nil.1 hnil
    exact reads_of_passes (passes_closer .unlimited ⟨s, rfl, hs⟩ st)

theorem reads_comma (h : Passes .unlimited x ss r ⟨.ended v, f :: st, false⟩)
    (hc : Terminals.scan.mark .comma c) (ht : Sentence Terminals.scan ts part) (hp : us <+: ts)
    (hr : Reads ((f.fill v).part st) us w) : Reads x (ss ++ (c ++ us)) w := by
  obtain ⟨z, hz, hcomma⟩ := passes_comma .unlimited hc f v st
  exact .of_passes h (.of_passes hcomma (hz.reads ht hp hr))

/-! ### Values that end too early -/

theorem reads_value (h : Sentence Terminals.scan ss (.value v)) (st : List Frame) :
    Reads ⟨.value, st, false⟩ ss (close v st) :=
  reads_of_passes (passed_of_sentence rfl h st)

/-- The first token of a value is taken in the same way whatever the value stands in. -/
theorem valueAt_framed {t : Token} {c : Bool} {reports : List Diagnostic} {mode : Mode}
    (h : valueAt t c [] = ⟨reports, .consume mode st⟩) (below : List Frame) :
    mode ≠ .value ∧ valueAt t c below = ⟨reports, .consume mode (st ++ below)⟩ := by
  unfold valueAt at h ⊢
  split at h
  case h_9 =>
    unfold seekValue at h ⊢
    split_ifs at h ⊢
    · cases congrArg Turn.move h
    · cases h
      exact ⟨Mode.noConfusion, rfl⟩
  all_goals
    cases h
    exact ⟨Mode.noConfusion, rfl⟩

/-- The beginning of a value is read as some value, and the containers around it are closed. -/
theorem exists_reads_value (h : Sentence Terminals.scan ts (.value v)) (hp : us <+: ts) :
    ∃ u, ∀ st, Reads ⟨.value, st, false⟩ us (close u st) := by
  obtain ⟨rest, rfl⟩ := hp
  obtain ⟨y, r, -, hy, -, -⟩ :=
    (passed_of_sentence (rfl : Limits.unlimited.depth = none) h []).append_inv
  cases hy with
  | nil => exact ⟨.null, fun st => .nil _⟩
  | @cons _ _ s us reports more mode st' hm hs =>
    refine ⟨State.last y, fun st => ?_⟩
    obtain ⟨hmode, hfirst⟩ := valueAt_framed hm st
    have hrest := passes_framed hs rfl (fun he => absurd he hmode) st
    refine ⟨_, _, .cons hfirst hrest, ?_⟩
    exact y.mode.last_append y.stack st

/-! ### Items and members -/

theorem reads_items (h : Sentence Terminals.scan ss (.items vs)) (st : List Frame) :
    Reads ((Group.array []).part st) ss (close (.array vs) st) := by
  obtain ⟨f, v, hf, hp⟩ := passed_of_sentence (rfl : Limits.unlimited.depth = none) h [] st
  have hr := reads_of_passes hp
  have hlast : State.last ⟨.ended v, f :: st, false⟩ = close (f.fill v).value st := rfl
  rw [hlast, hf] at hr
  simpa [Group.value] using hr

theorem reads_members (h : Sentence Terminals.scan ss (.members ms)) (st : List Frame) :
    Reads ((Group.object []).part st) ss (close (.object (writeAll [] ms)) st) := by
  obtain ⟨f, v, hf, hp⟩ := passed_of_sentence (rfl : Limits.unlimited.depth = none) h [] st
  have hr := reads_of_passes hp
  have hlast : State.last ⟨.ended v, f :: st, false⟩ = close (f.fill v).value st := rfl
  rwa [hlast, hf] at hr

theorem reads_array (ha : Terminals.scan.mark .leftBracket a)
    (h : Sentence Terminals.scan ts (.items vs)) (hb : Terminals.scan.mark .rightBracket b)
    (hp : us <+: b) (st : List Frame) :
    Reads ⟨.value, st, false⟩ (a ++ (ts ++ us)) (close (.array vs) st) := by
  obtain ⟨f, v, hf, hpasses⟩ := passed_of_sentence (rfl : Limits.unlimited.depth = none) h [] st
  have hg : (Group.array []).Empty := .inl rfl
  have hr := reads_closer hg ha h hpasses (by rw [hf]; exact hb) hp
  rw [hf] at hr
  simpa [Group.value] using hr

theorem reads_object (ha : Terminals.scan.mark .leftBrace a)
    (h : Sentence Terminals.scan ts (.members ms)) (hb : Terminals.scan.mark .rightBrace b)
    (hp : us <+: b) (st : List Frame) :
    Reads ⟨.value, st, false⟩ (a ++ (ts ++ us)) (close (.object (writeAll [] ms)) st) := by
  obtain ⟨f, v, hf, hpasses⟩ := passed_of_sentence (rfl : Limits.unlimited.depth = none) h [] st
  have hg : (Group.object []).Empty := .inr rfl
  have hr := reads_closer hg ha h hpasses (by rw [hf]; exact hb) hp
  rwa [hf] at hr

theorem reads_next_item (hs : Sentence Terminals.scan ts (.items vs))
    (hc : Terminals.scan.mark .comma c) (ht : Sentence Terminals.scan t (.value v))
    (hp : us <+: t) (hr : ∀ st, Reads ⟨.value, st, false⟩ us (close u st)) (st : List Frame) :
    Reads ((Group.array []).part st) (ts ++ (c ++ us)) (close (.array (vs ++ [u])) st) := by
  obtain ⟨f, w, hf, hpasses⟩ := passed_of_sentence (rfl : Limits.unlimited.depth = none) hs [] st
  refine reads_comma hpasses hc ht hp ?_
  rw [hf]
  simpa [Frame.fill, Group.value] using hr (.item vs.reverse :: st)

/-- What follows the first items of an array leaves them where they are. -/
theorem exists_reads_items (hs : Sentence Terminals.scan ts (.items vs))
    (hc : Terminals.scan.mark .comma c) (ht : Sentence Terminals.scan t (.value v))
    (hp : us <+: c ++ t) :
    ∃ more, ∀ st, Reads ((Group.array []).part st) (ts ++ us) (close (.array (vs ++ more)) st) := by
  obtain ⟨s, rfl, hk⟩ := hc
  rcases List.prefix_cons_iff.1 hp with rfl | ⟨us, rfl, hus⟩
  · exact ⟨[], by simpa using reads_items hs⟩
  · obtain ⟨u, hu⟩ := exists_reads_value ht hus
    exact ⟨[u], reads_next_item hs ⟨s, rfl, hk⟩ ht hus hu⟩

theorem reads_member (hk : Terminals.scan.scalar (.string key) k)
    (hc : Terminals.scan.mark .colon c) (hr : ∀ st, Reads ⟨.value, st, false⟩ us (close u st))
    (done : Entries Value) (st : List Frame) :
    Reads ((Group.object done).part st) (k ++ (c ++ us))
      (close (.object (done.insert key u)) st) :=
  .of_passes (passes_key .unlimited hk done st)
    (.of_passes (passes_colon .unlimited hc done (some key) st) (hr (.member done key :: st)))

/-- The beginning of a member changes nothing but the value of its key. -/
theorem exists_reads_member (hk : Terminals.scan.scalar (.string key) k)
    (hc : Terminals.scan.mark .colon c) (ht : Sentence Terminals.scan t (.value v))
    (hp : us <+: k ++ (c ++ t)) (done : Entries Value) :
    ∃ es : Entries Value, (∀ st, Reads ((Group.object done).part st) us (close (.object es) st)) ∧
      ∀ key', key' ≠ key ∨ us = [] → es.get? key' = done.get? key' := by
  obtain ⟨s, rfl, hs⟩ := hk
  have hk : Terminals.scan.scalar (.string key) [s] := ⟨s, rfl, hs⟩
  obtain ⟨s', rfl, hs'⟩ := hc
  have hc : Terminals.scan.mark .colon [s'] := ⟨s', rfl, hs'⟩
  rcases List.prefix_cons_iff.1 hp with rfl | ⟨us, rfl, hus⟩
  · exact ⟨done, fun st => .nil _, fun _ _ => rfl⟩
  · rcases List.prefix_cons_iff.1 hus with rfl | ⟨us, rfl, hvalue⟩
    · exact ⟨done, fun st => reads_of_passes (passes_key .unlimited hk done st), fun _ _ => rfl⟩
    · obtain ⟨u, hu⟩ := exists_reads_value ht hvalue
      refine ⟨done.insert key u, reads_member hk hc hu done, fun key' hkey => ?_⟩
      have hne := hkey.resolve_right (List.cons_ne_nil _ _)
      rw [Entries.get?_insert, if_neg hne.symm]

theorem reads_next_member (hs : Sentence Terminals.scan ts (.members ms))
    (hc : Terminals.scan.mark .comma c) (ht : Sentence Terminals.scan t (.member key v))
    (hp : us <+: t)
    (hr : ∀ st, Reads ((Group.object (writeAll [] ms)).part st) us (close (.object es) st))
    (st : List Frame) :
    Reads ((Group.object []).part st) (ts ++ (c ++ us)) (close (.object es) st) := by
  obtain ⟨f, w, hf, hpasses⟩ := passed_of_sentence (rfl : Limits.unlimited.depth = none) hs [] st
  refine reads_comma hpasses hc ht hp ?_
  rw [hf]
  exact hr st

/-- What follows the first members of an object changes nothing but the value of the next key. -/
theorem exists_reads_members (hs : Sentence Terminals.scan ts (.members ms))
    (hc : Terminals.scan.mark .comma c) (hk : Terminals.scan.scalar (.string key) k)
    (hb : Terminals.scan.mark .colon b) (ht : Sentence Terminals.scan t (.value v))
    (hp : us <+: c ++ (k ++ (b ++ t))) :
    ∃ es : Entries Value,
      (∀ st, Reads ((Group.object []).part st) (ts ++ us) (close (.object es) st)) ∧
        ∀ key', key' ≠ key ∨ (∀ s ∈ k, s ∉ us) → es.get? key' = (writeAll [] ms).get? key' := by
  obtain ⟨s, rfl, hs'⟩ := hc
  rcases List.prefix_cons_iff.1 hp with rfl | ⟨us, rfl, hus⟩
  · exact ⟨_, by simpa using reads_members hs, fun _ _ => rfl⟩
  · obtain ⟨es, hes, hget⟩ := exists_reads_member hk hb ht hus (writeAll [] ms)
    refine ⟨es, reads_next_member hs ⟨s, rfl, hs'⟩ (.member hk hb ht) hus hes,
      fun key' hkey => hget key' (hkey.imp_right fun hnot => ?_)⟩
    -- Otherwise the key would be there.
    obtain ⟨s', rfl, -⟩ := hk
    rcases List.prefix_cons_iff.1 hus with rfl | ⟨us, rfl, -⟩
    · rfl
    · exact absurd (by simp) (hnot s' (by simp))

/-! ### The elements of a document -/

/-- A value inside a part of a text: the tokens that write it; the tokens that begin later members
with the key of a member that it is, or is inside of; where it stands in the part; and what it
denotes. -/
inductive Element :
    List Scan → Part → List Scan → List Scan → List Step → Value → Prop where
  | whole {ts : List Scan} {v : Value} (h : Sentence Terminals.scan ts (.value v)) :
      Element ts (.value v) ts [] [] v
  | array {a ts b own rivals : List Scan} {vs : List Value} {path : List Step} {w : Value}
      (ha : Terminals.scan.mark .leftBracket a) (h : Element ts (.items vs) own rivals path w)
      (hb : Terminals.scan.mark .rightBracket b) :
      Element (a ++ (ts ++ b)) (.value (.array vs)) own rivals path w
  | object {a ts b own rivals : List Scan} {ms : List (String × Value)} {path : List Step}
      {w : Value} (ha : Terminals.scan.mark .leftBrace a)
      (h : Element ts (.members ms) own rivals path w)
      (hb : Terminals.scan.mark .rightBrace b) :
      Element (a ++ (ts ++ b)) (.value (.object (Entries.lastWritten ms))) own rivals path w
  | oneItem {t own rivals : List Scan} {v : Value} {path : List Step} {w : Value}
      (h : Element t (.value v) own rivals path w) :
      Element t (.items [v]) own rivals (.index 0 :: path) w
  /-- In the last item so far. -/
  | lastItem {ts c t own rivals : List Scan} {vs : List Value} {v : Value} {path : List Step}
      {w : Value} (hs : Sentence Terminals.scan ts (.items vs))
      (hc : Terminals.scan.mark .comma c) (h : Element t (.value v) own rivals path w) :
      Element (ts ++ (c ++ t)) (.items (vs ++ [v])) own rivals (.index vs.length :: path) w
  /-- In an item before the last one. -/
  | item {ts c t own rivals : List Scan} {vs : List Value} {v : Value} {i : Nat}
      {path : List Step} {w : Value} (h : Element ts (.items vs) own rivals (.index i :: path) w)
      (hc : Terminals.scan.mark .comma c) (ht : Sentence Terminals.scan t (.value v)) :
      Element (ts ++ (c ++ t)) (.items (vs ++ [v])) own rivals (.index i :: path) w
  | member {k c t own rivals : List Scan} {key : String} {v : Value} {path : List Step} {w : Value}
      (hk : Terminals.scan.scalar (.string key) k) (hc : Terminals.scan.mark .colon c)
      (h : Element t (.value v) own rivals path w) :
      Element (k ++ (c ++ t)) (.member key v) own rivals (.key key :: path) w
  | oneMember {t own rivals : List Scan} {key : String} {v : Value} {path : List Step} {w : Value}
      (h : Element t (.member key v) own rivals path w) :
      Element t (.members [(key, v)]) own rivals path w
  /-- In the last member so far. -/
  | lastMember {ts c t own rivals : List Scan} {ms : List (String × Value)} {key : String}
      {v : Value} {path : List Step} {w : Value} (hs : Sentence Terminals.scan ts (.members ms))
      (hc : Terminals.scan.mark .comma c) (h : Element t (.member key v) own rivals path w) :
      Element (ts ++ (c ++ t)) (.members (ms ++ [(key, v)])) own rivals path w
  /-- In a member before one with another key. -/
  | otherKey {ts c k b t own rivals : List Scan} {ms : List (String × Value)}
      {key key' : String} {v : Value} {path : List Step} {w : Value}
      (h : Element ts (.members ms) own rivals (.key key' :: path) w)
      (hc : Terminals.scan.mark .comma c) (hk : Terminals.scan.scalar (.string key) k)
      (hb : Terminals.scan.mark .colon b) (ht : Sentence Terminals.scan t (.value v))
      (hne : key' ≠ key) :
      Element (ts ++ (c ++ (k ++ (b ++ t)))) (.members (ms ++ [(key, v)])) own rivals
        (.key key' :: path) w
  /-- In a member before one with the same key. -/
  | sameKey {ts c k b t own rivals : List Scan} {ms : List (String × Value)} {key : String}
      {v : Value} {path : List Step} {w : Value}
      (h : Element ts (.members ms) own rivals (.key key :: path) w)
      (hc : Terminals.scan.mark .comma c) (hk : Terminals.scan.scalar (.string key) k)
      (hb : Terminals.scan.mark .colon b) (ht : Sentence Terminals.scan t (.value v)) :
      Element (ts ++ (c ++ (k ++ (b ++ t)))) (.members (ms ++ [(key, v)])) own (rivals ++ k)
        (.key key :: path) w

theorem Element.sentence (h : Element ss part own rivals path w) :
    Sentence Terminals.scan ss part := by
  induction h with
  | whole h => exact h
  | array ha _ hb ih => exact .array ha ih hb
  | object ha _ hb ih => exact .object ha ih hb
  | oneItem _ ih => exact .oneItem ih
  | lastItem hs hc _ ih => exact .moreItems hs hc ih
  | item _ hc ht ih => exact .moreItems ih hc ht
  | member hk hc _ ih => exact .member hk hc ih
  | oneMember _ ih => exact .oneMember ih
  | lastMember hs hc _ ih => exact .moreMembers hs hc ih
  | otherKey _ hc hk hb ht _ ih | sameKey _ hc hk hb ht ih =>
    exact .moreMembers ih hc (.member hk hb ht)

theorem Element.exists_own (h : Element ss part own rivals path w) : ∃ s ∈ own, s ∈ ss := by
  induction h with
  | whole h =>
    obtain ⟨s, rest, rfl, -⟩ := exists_cons_of_sentence h
    exact ⟨s, by simp, by simp⟩
  | oneItem _ ih | oneMember _ ih => exact ih
  | array _ _ _ ih | object _ _ _ ih | lastItem _ _ _ ih | item _ _ _ ih | member _ _ _ ih
  | lastMember _ _ _ ih | otherKey _ _ _ _ _ _ ih | sameKey _ _ _ _ _ ih =>
    obtain ⟨s, hown, hs⟩ := ih
    exact ⟨s, hown, by simp [hs]⟩

/-! ### Cut texts -/

/-- The scans seen are those in front of a cut. -/
def CutAt (seen : Scan → Prop) (ss us : List Scan) : Prop :=
  ∃ rest, ss = us ++ rest ∧ (∀ s ∈ us, seen s) ∧ ∀ s ∈ rest, ¬ seen s

namespace CutAt

theorem isPrefix (h : CutAt seen ss us) : us <+: ss := by
  obtain ⟨rest, rfl, -⟩ := h
  exact List.prefix_append us rest

theorem self (h : ∀ s ∈ ss, seen s) : CutAt seen ss ss := ⟨[], by simp, h, by simp⟩

theorem eq_of_seen (h : CutAt seen ss us) (hs : ∀ s ∈ ss, seen s) : us = ss := by
  obtain ⟨rest, rfl, -, hrest⟩ := h
  have hnil : rest = [] := List.eq_nil_iff_forall_not_mem.2 fun s hmem =>
    hrest s hmem (hs s (by simp [hmem]))
  rw [hnil, List.append_nil]

/-- A cut stands inside the first part of a text or behind it. -/
theorem split (h : CutAt seen (a ++ b) us) :
    (CutAt seen a us ∧ ∀ s ∈ b, ¬ seen s) ∨
      ∃ ws, us = a ++ ws ∧ CutAt seen b ws ∧ ∀ s ∈ a, seen s := by
  obtain ⟨rest, heq, hus, hrest⟩ := h
  rcases List.append_eq_append_iff.1 heq with ⟨ws, rfl, rfl⟩ | ⟨more, rfl, rfl⟩
  · exact .inr ⟨ws, rfl, ⟨rest, rfl, fun s hs => hus s (by simp [hs]), hrest⟩,
      fun s hs => hus s (by simp [hs])⟩
  · exact .inl ⟨⟨more, rfl, hus, fun s hs => hrest s (by simp [hs])⟩,
      fun s hs => hrest s (by simp [hs])⟩

/-- If something inside of brackets is seen, the cut stands behind the opening bracket. -/
theorem behind (h : CutAt seen (a ++ (ts ++ b)) us) (hs : ∃ s ∈ ts, seen s) :
    ∃ ws, us = a ++ ws ∧ CutAt seen (ts ++ b) ws := by
  rcases h.split with ⟨-, hnot⟩ | ⟨ws, hus, hws, -⟩
  · obtain ⟨s, hs, hseen⟩ := hs
    exact absurd hseen (hnot s (by simp [hs]))
  · exact ⟨ws, hus, hws⟩

/-- If something of the last part is seen, the cut stands behind the parts before it. -/
theorem behind_both (h : CutAt seen (a ++ (c ++ t)) us) (hs : ∃ s ∈ t, seen s) :
    ∃ ws, us = a ++ (c ++ ws) ∧ CutAt seen t ws := by
  rw [← List.append_assoc, ← List.append_nil t] at h
  obtain ⟨ws, rfl, hws⟩ := h.behind hs
  exact ⟨ws, List.append_assoc _ _ _, by rwa [List.append_nil] at hws⟩

end CutAt

/-! ### What is kept -/

/-- If the text of a part ends behind some scans, the path still leads to this value. -/
def Part.Keeps (us : List Scan) (path : List Step) (w : Value) : Part → Prop
  | .value _ => ∃ u, (∀ st, Reads ⟨.value, st, false⟩ us (close u st)) ∧ u.at? path = some w
  | .items _ => ∃ us', (∀ st, Reads ((Group.array []).part st) us (close (.array us') st)) ∧
      (Value.array us').at? path = some w
  | .member _ _ => ∀ done, ∃ es,
      (∀ st, Reads ((Group.object done).part st) us (close (.object es) st)) ∧
        (Value.object es).at? path = some w
  | .members _ => ∃ es, (∀ st, Reads ((Group.object []).part st) us (close (.object es) st)) ∧
      (Value.object es).at? path = some w

/-- What is kept of items that are complete is found in the array of them. -/
theorem Part.Keeps.at?_array (h : Part.Keeps ts path w (.items vs))
    (hs : Sentence Terminals.scan ts (.items vs)) : (Value.array vs).at? path = some w := by
  obtain ⟨us, hr, hw⟩ := h
  have heq : Value.array us = .array vs := (hr []).unique (reads_items hs [])
  rwa [← heq]

theorem Part.Keeps.at?_object (h : Part.Keeps ts path w (.members ms))
    (hs : Sentence Terminals.scan ts (.members ms)) :
    (Value.object (writeAll [] ms)).at? path = some w := by
  obtain ⟨es, hr, hw⟩ := h
  have heq : Value.object es = .object (writeAll [] ms) := (hr []).unique (reads_members hs [])
  rwa [← heq]

theorem Element.exists_seen (h : Element ss part own rivals path w) (hown : ∀ s ∈ own, seen s) :
    ∃ s ∈ ss, seen s := by
  obtain ⟨s, hs, hmem⟩ := h.exists_own
  exact ⟨s, hmem, hown s hs⟩

/-- Of an element whose tokens stand in front of a cut, while those that would take its key do not,
nothing is lost. -/
theorem kept_of_element (h : Element ss part own rivals path w) (hown : ∀ s ∈ own, seen s)
    (hrivals : ∀ s ∈ rivals, ¬ seen s) (hcut : CutAt seen ss us) : part.Keeps us path w := by
  induction h generalizing us with
  | whole h =>
    rw [hcut.eq_of_seen hown]
    exact ⟨_, reads_value h, rfl⟩
  | @array a ts b own rivals vs path w ha h hb ih =>
    have hg : (Group.array []).Empty := .inl rfl
    obtain ⟨inner, rfl, hinner⟩ := hcut.behind (h.exists_seen hown)
    rcases hinner.split with ⟨hts, -⟩ | ⟨last, rfl, hlast, hts⟩
    · obtain ⟨us', hr, hw⟩ := ih hown hrivals hts
      exact ⟨_, fun st => reads_opener hg ha h.sentence hts.isPrefix (hr st), hw⟩
    · exact ⟨_, reads_array ha h.sentence hb hlast.isPrefix,
        (ih hown hrivals (.self hts)).at?_array h.sentence⟩
  | @object a ts b own rivals ms path w ha h hb ih =>
    have hg : (Group.object []).Empty := .inr rfl
    obtain ⟨inner, rfl, hinner⟩ := hcut.behind (h.exists_seen hown)
    rcases hinner.split with ⟨hts, -⟩ | ⟨last, rfl, hlast, hts⟩
    · obtain ⟨es, hr, hw⟩ := ih hown hrivals hts
      exact ⟨_, fun st => reads_opener hg ha h.sentence hts.isPrefix (hr st), hw⟩
    · exact ⟨_, reads_object ha h.sentence hb hlast.isPrefix,
        (ih hown hrivals (.self hts)).at?_object h.sentence⟩
  | oneItem h ih =>
    obtain ⟨u, hr, hw⟩ := ih hown hrivals hcut
    exact ⟨[u], fun st => by simpa [Frame.fill, Group.value] using hr (.item [] :: st), hw⟩
  | lastItem hs hc h ih =>
    obtain ⟨inner, rfl, hinner⟩ := hcut.behind_both (h.exists_seen hown)
    obtain ⟨u, hr, hw⟩ := ih hown hrivals hinner
    refine ⟨_, reads_next_item hs hc h.sentence hinner.isPrefix hr, ?_⟩
    simpa [Value.at?_index] using hw
  | item h hc ht ih =>
    rcases hcut.split with ⟨hts, -⟩ | ⟨behind, rfl, hbehind, hts⟩
    · exact ih hown hrivals hts
    · have hw := (ih hown hrivals (.self hts)).at?_array h.sentence
      obtain ⟨more, hr⟩ := exists_reads_items h.sentence hc ht hbehind.isPrefix
      exact ⟨_, hr, Value.at?_append more hw⟩
  | member hk hc h ih =>
    obtain ⟨inner, rfl, hinner⟩ := hcut.behind_both (h.exists_seen hown)
    obtain ⟨u, hr, hw⟩ := ih hown hrivals hinner
    refine fun done => ⟨_, reads_member hk hc hr done, ?_⟩
    simpa [Value.at?_key, Entries.get?_insert] using hw
  | oneMember h ih => exact ih hown hrivals hcut []
  | lastMember hs hc h ih =>
    obtain ⟨inner, rfl, hinner⟩ := hcut.behind_both (h.exists_seen hown)
    obtain ⟨es, hr, hw⟩ := ih hown hrivals hinner (writeAll [] _)
    exact ⟨es, reads_next_member hs hc h.sentence hinner.isPrefix hr, hw⟩
  | @otherKey ts c k b t own rivals ms key key' v path w h hc hk hb ht hne ih =>
    rcases hcut.split with ⟨hts, -⟩ | ⟨behind, rfl, hbehind, hts⟩
    · exact ih hown hrivals hts
    · have hw := (ih hown hrivals (.self hts)).at?_object h.sentence
      obtain ⟨es, hr, hget⟩ := exists_reads_members h.sentence hc hk hb ht hbehind.isPrefix
      refine ⟨es, hr, ?_⟩
      rwa [Value.at?_key, hget key' (.inl hne), ← Value.at?_key]
  | @sameKey ts c k b t own rivals ms key v path w h hc hk hb ht ih =>
    obtain ⟨hrivals, hkey⟩ := List.forall_mem_append.1 hrivals
    rcases hcut.split with ⟨hts, -⟩ | ⟨behind, rfl, hbehind, hts⟩
    · exact ih hown hrivals hts
    · have hw := (ih hown hrivals (.self hts)).at?_object h.sentence
      obtain ⟨es, hr, hget⟩ := exists_reads_members h.sentence hc hk hb ht hbehind.isPrefix
      refine ⟨es, hr, ?_⟩
      obtain ⟨rest, -, hseen, -⟩ := hbehind
      have hnot : ∀ s ∈ k, s ∉ behind := fun s hs hmem => hkey s hs (hseen s hmem)
      rwa [Value.at?_key, hget key (.inr hnot), ← Value.at?_key]

/-! ### Whole texts -/

section

variable {cut rest : String} (h : Document false (cut ++ rest).toList v)
  (hb : Boundary (dialect false) (cut ++ rest) cut.utf8ByteSize)

include h hb

theorem exists_cut : ∃ ss us e, Scan.ofText (dialect false) (cut ++ rest) = ss ++ [e] ∧
    Sentence Terminals.scan ss (.value v) ∧ (∀ s ∈ ss, s.reports = []) ∧
    CutAt (·.token.span.stop.offset ≤ cut.utf8ByteSize) ss us ∧
    Scan.ofText (dialect false) cut = us ++ [⟨[], .atEnd (Position.start.after cut.toList)⟩] := by
  obtain ⟨ss, q, hscans, hv, hr⟩ := scansFrom_document h (cut ++ rest) .start
  have hscans : Scan.ofText (dialect false) (cut ++ rest) = ss ++ [⟨[], .atEnd q⟩] := hscans
  have hclean : (tokenize (cut ++ rest) (dialect false)).2 = [] := by
    rw [tokenize, hscans]
    simpa using hr
  obtain ⟨us, ts, e, hall, -, hcut, hus, hts⟩ :=
    Scan.ofText_beginning (proper_dialect false) (.inr rfl) hclean hb
  obtain ⟨rfl, -⟩ := List.append_singleton_inj.1 (hscans.symm.trans hall)
  exact ⟨_, us, _, hscans, hv, hr,
    ⟨ts, rfl, fun s hs => (hus s hs).2, fun s hs => Nat.not_le.2 (hts s hs)⟩, hcut⟩

/-- The beginning of a document is read as the value in store behind its last token, and the end is
reported if anything is. -/
theorem parse_beginning : ∃ ss us e y, Scan.ofText (dialect false) (cut ++ rest) = ss ++ [e] ∧
    CutAt (·.token.span.stop.offset ≤ cut.utf8ByteSize) ss us ∧
    Passes .unlimited ⟨.value, [], false⟩ us [] y ∧ (parse cut .unlimited).1 = State.last y ∧
    ((parse cut .unlimited).2 ≠ [] → ∃ wanted, (parse cut .unlimited).2 =
      [.of (.expected wanted Kind.eof.name) (.point (Position.start.after cut.toList))]) := by
  have hl : Limits.unlimited.depth = none := rfl
  obtain ⟨ss, us, e, hscans, hv, hclean, hcut, hend⟩ := exists_cut h hb
  obtain ⟨more, rfl⟩ := hcut.isPrefix
  have hpasses := passed_of_sentence hl hv []
  have hfound : found (us ++ more) = [] := List.flatMap_eq_nil_iff.2 hclean
  rw [hfound] at hpasses
  let last : Scan := ⟨[], .atEnd (Position.start.after cut.toList)⟩
  have heof : last.token.kind = .eof := rfl
  obtain ⟨y, u, c, hy, hm, hrun⟩ := Automaton.run_of_beginning (s := last) hpasses rfl
    fun x => react_eof heof .unlimited x.mode x.stack x.complained
  obtain ⟨c', hm'⟩ := concludes_react heof hl y.mode y.stack y.complained
  obtain ⟨rfl, -⟩ := Move.finish.inj (hm.symm.trans hm')
  have hparse : parse cut .unlimited =
      (State.last y, (y.meet (react .unlimited) last.token).reports) := by
    have hfits : Options.unlimited.limits.exceededSize cut = none := rfl
    have hscan : Scan.ofText Options.unlimited.dialect cut = us ++ [last] := hend
    have hlimits : Options.unlimited.limits = .unlimited := rfl
    rw [parse_of_fits hfits, hscan, hlimits, hrun]
    simp [Reader.trailing, Reader.current, Token.isEof, heof, State.last]
  refine ⟨_, us, e, y, hscans, hcut, hy, by rw [hparse], fun hne => ?_⟩
  rw [hparse] at hne ⊢
  exact (once_react heof hl y.mode y.stack y.complained).eq_singleton hne

/-- If the beginning of a document is none itself, its end is reported, once, and nothing else. -/
theorem reports_of_beginning (hcut : ¬ ∃ u, Document false cut.toList u) :
    ∃ wanted, (parse cut .unlimited).2 =
      [.of (.expected wanted Kind.eof.name) (.point (Position.start.after cut.toList))] := by
  obtain ⟨-, -, -, -, -, -, -, -, hreports⟩ := parse_beginning h hb
  refine hreports fun hnone => hcut ⟨(parse cut .unlimited).1, ?_⟩
  exact document_of_reports hnone

/-- The values in front of the cut are still where they were, unless a later member in front of the
cut begins with their key. -/
theorem at?_of_beginning {e : Scan}
    (hscans : Scan.ofText (dialect false) (cut ++ rest) = ss ++ [e])
    (helement : Element ss (.value v) own rivals path w)
    (hown : ∀ s ∈ own, s.token.span.stop.offset ≤ cut.utf8ByteSize)
    (hrivals : ∀ s ∈ rivals, cut.utf8ByteSize < s.token.span.stop.offset) :
    (parse cut .unlimited).1.at? path = some w := by
  obtain ⟨ss', us, e', y, hscans', hcut, hy, hvalue, -⟩ := parse_beginning h hb
  obtain ⟨rfl, -⟩ := List.append_singleton_inj.1 (hscans.symm.trans hscans')
  obtain ⟨u, hr, hw⟩ := kept_of_element helement hown
    (fun s hs => Nat.not_le.2 (hrivals s hs)) hcut
  have hlast := (hr []).unique (reads_of_passes hy)
  rwa [hvalue, ← hlast]

end

end Json

end Resilient
