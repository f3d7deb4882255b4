import Mathlib.Data.List.Induction
import Resilient.Proofs.Json.Entries

/-!
# Entries after a history of edits

After any edits the keys stand in the order in which they were born: written while they were absent
and not removed since (`Born`). Each key has the value that was last written to it (`written?`), and
writing or removing it once more answers with that value (`keys_in_order_of_birth`).
-/

namespace Resilient

namespace Entries

/-- An edit of one key. -/
inductive Edit (α : Type) where
  | insert (key : String) (value : α)
  | remove (key : String)
  /-- The value of the key is passed through a function, where it stands. -/
  | update (key : String) (f : α → α)

variable {α : Type}

/-- The entries behind an edit; an update of a missing key leaves them alone. -/
def Edit.apply (es : Entries α) : Edit α → Entries α
  | .insert key value => (es.put key value).2
  | .remove key => (es.take key).2
  | .update key f => ((es.edit (fun v => some (v, f v)) key).map Prod.snd).getD es

/-- The value last written to a key in a history, which is given from the last edit back. -/
def written? : List (Edit α) → String → Option α
  | [], _ => none
  | .insert k v :: past, key => if k = key then some v else written? past key
  | .remove k :: past, key => if k = key then none else written? past key
  | .update k f :: past, key => if k = key then (written? past key).map f else written? past key

/-- The edit at time `t` inserts the key. -/
def Inserts (history : List (Edit α)) (key : String) (t : Nat) : Prop :=
  ∃ v, history[t]? = some (.insert key v)

/-- The edit at time `t` removes the key. -/
def Removes (history : List (Edit α)) (key : String) (t : Nat) : Prop :=
  history[t]? = some (.remove key)

/-- Time `t` is the first insertion of the key since its last removal. -/
structure Born (history : List (Edit α)) (key : String) (t : Nat) : Prop where
  insertion : Inserts history key t
  kept : ∀ r, t < r → ¬ Removes history key r
  first : ∀ s, s < t → Inserts history key s → ∃ r, s < r ∧ r < t ∧ Removes history key r

/-- An insertion of the key is behind its last removal. -/
def Live (history : List (Edit α)) (key : String) : Prop :=
  ∃ t, Inserts history key t ∧ ∀ r, t < r → ¬ Removes history key r

/-! ### One edit more -/

variable {history : List (Edit α)} {key : String} {t : Nat} {e : Edit α}

theorem Inserts.lt (h : Inserts history key t) : t < history.length := by
  obtain ⟨v, h⟩ := h
  exact (List.getElem?_eq_some_iff.1 h).1

theorem Removes.lt (h : Removes history key t) : t < history.length :=
  (List.getElem?_eq_some_iff.1 h).1

theorem inserts_append_iff (ht : t < history.length) :
    Inserts (history ++ [e]) key t ↔ Inserts history key t := by
  rw [Inserts, Inserts, List.getElem?_append_left ht]

theorem removes_append_iff (ht : t < history.length) :
    Removes (history ++ [e]) key t ↔ Removes history key t := by
  rw [Removes, Removes, List.getElem?_append_left ht]

theorem eq_remove_of_removes (ht : history.length ≤ t) (h : Removes (history ++ [e]) key t) :
    e = .remove key := by
  rw [Removes, List.getElem?_append_right ht] at h
  cases hn : t - history.length with
  | zero =>
    rw [hn] at h
    exact Option.some.inj h
  | succ n =>
    rw [hn] at h
    cases h

theorem Born.append (h : Born history key t) (he : e ≠ .remove key) :
    Born (history ++ [e]) key t where
  insertion := (inserts_append_iff h.insertion.lt).2 h.insertion
  kept r hr hremoves := by
    rcases Nat.lt_or_ge r history.length with hlt | hge
    · exact h.kept r hr ((removes_append_iff hlt).1 hremoves)
    · exact he (eq_remove_of_removes hge hremoves)
  first s hs hinserts := by
    have ht := h.insertion.lt
    rw [inserts_append_iff (Nat.lt_trans hs ht)] at hinserts
    obtain ⟨r, hsr, hrt, hr⟩ := h.first s hs hinserts
    exact ⟨r, hsr, hrt, (removes_append_iff (Nat.lt_trans hrt ht)).2 hr⟩

theorem born_of_insert (h : ¬ Live history key) (v : α) :
    Born (history ++ [.insert key v]) key history.length where
  insertion := ⟨v, by simp⟩
  kept r hr hremoves := by
    cases eq_remove_of_removes (Nat.le_of_lt hr) hremoves
  first s hs hinserts := by
    rw [inserts_append_iff hs] at hinserts
    by_contra hnone
    exact h ⟨s, hinserts, fun r hsr hr => hnone ⟨r, hsr, hr.lt, (removes_append_iff hr.lt).2 hr⟩⟩

theorem Born.live (h : Born history key t) : Live history key := ⟨t, h.insertion, h.kept⟩

/-- A key is born once: of two births the later would be behind a removal. -/
theorem Born.unique {t' : Nat} (h : Born history key t) (h' : Born history key t') : t' = t := by
  rcases Nat.lt_trichotomy t' t with hlt | heq | hlt
  · obtain ⟨r, hr, -, hremoves⟩ := h.first t' hlt h'.insertion
    exact absurd hremoves (h'.kept r hr)
  · exact heq
  · obtain ⟨r, hr, -, hremoves⟩ := h'.first t hlt h.insertion
    exact absurd hremoves (h.kept r hr)

theorem live_append (h : Live (history ++ [e]) key) :
    (∃ v, e = .insert key v) ∨ Live history key ∧ e ≠ .remove key := by
  obtain ⟨t, hinserts, hkept⟩ := h
  have hlt := hinserts.lt
  rw [List.length_append, List.length_singleton] at hlt
  rcases Nat.lt_or_eq_of_le (Nat.le_of_lt_succ hlt) with ht | rfl
  · rw [inserts_append_iff ht] at hinserts
    refine .inr ⟨⟨t, hinserts, fun r hr hremoves => hkept r hr ?_⟩, ?_⟩
    · exact (removes_append_iff hremoves.lt).2 hremoves
    · rintro rfl
      exact hkept history.length ht (by simp [Removes])
  · obtain ⟨v, hv⟩ := hinserts
    exact .inl ⟨v, by simpa using hv⟩

/-! ### What every edit keeps -/

/-- The entries are as the history says. -/
structure Follows (history : List (Edit α)) (es : Entries α) : Prop where
  nodup : es.keys.Nodup
  born : ∀ key ∈ es.keys, ∃ t, Born history key t
  live : ∀ key, Live history key → key ∈ es.keys
  order : es.keys.Pairwise fun k k' => ∃ t t', t < t' ∧ Born history k t ∧ Born history k' t'
  value : ∀ key, es.get? key = written? history.reverse key

variable {es es' : Entries α}

theorem written?_append (history : List (Edit α)) (e : Edit α) (key : String) :
    written? (history ++ [e]).reverse key = written? (e :: history.reverse) key := by
  rw [List.reverse_append]
  rfl

/-- Births in order stay in order where no key is removed. -/
theorem pairwise_born_append {ks : List String} (he : ∀ k ∈ ks, e ≠ .remove k)
    (h : ks.Pairwise fun k k' => ∃ t t', t < t' ∧ Born history k t ∧ Born history k' t') :
    ks.Pairwise fun k k' =>
      ∃ t t', t < t' ∧ Born (history ++ [e]) k t ∧ Born (history ++ [e]) k' t' := by
  refine List.Pairwise.imp_of_mem (fun hk hk' => ?_) h
  rintro ⟨t, t', hlt, ht, ht'⟩
  exact ⟨t, t', hlt, ht.append (he _ hk), ht'.append (he _ hk')⟩

/-- An edit that neither adds a key nor removes one. -/
theorem Follows.of_keys_eq (h : Follows history es) (hk : es'.keys = es.keys)
    (hinsert : ∀ k v, e = .insert k v → k ∈ es.keys) (hremove : ∀ k ∈ es.keys, e ≠ .remove k)
    (hvalue : ∀ k, es'.get? k = written? (e :: history.reverse) k) :
    Follows (history ++ [e]) es' where
  nodup := hk ▸ h.nodup
  born k hmem := by
    rw [hk] at hmem
    obtain ⟨t, ht⟩ := h.born k hmem
    exact ⟨t, ht.append (hremove k hmem)⟩
  live k hlive := by
    rw [hk]
    rcases live_append hlive with ⟨v, he⟩ | ⟨hlive, -⟩
    · exact hinsert k v he
    · exact h.live k hlive
  order := hk ▸ pairwise_born_append hremove h.order
  value k := by rw [written?_append, hvalue]

theorem Follows.insert (h : Follows history es) (key : String) (v : α) :
    Follows (history ++ [.insert key v]) (es.insert key v) := by
  have hvalue (k : String) :
      (es.insert key v).get? k = written? (.insert key v :: history.reverse) k := by
    rw [get?_insert, h.value, written?]
  have hkeys := keys_insert es key v
  by_cases hmem : key ∈ es.keys
  · rw [if_pos hmem] at hkeys
    refine h.of_keys_eq hkeys ?_ nofun hvalue
    rintro k w ⟨⟩
    exact hmem
  · rw [if_neg hmem] at hkeys
    have hlast := born_of_insert (fun hlive => hmem (h.live key hlive)) v
    have hkept (k : String) : Edit.insert key v ≠ .remove k := nofun
    constructor
    · exact nodup_keys_insert h.nodup key v
    · intro k hk
      rw [hkeys, List.mem_append, List.mem_singleton] at hk
      rcases hk with hk | rfl
      · obtain ⟨t, ht⟩ := h.born k hk
        exact ⟨t, ht.append (hkept k)⟩
      · exact ⟨_, hlast⟩
    · intro k hlive
      rw [hkeys, List.mem_append, List.mem_singleton]
      rcases live_append hlive with ⟨w, hw⟩ | ⟨hlive, -⟩
      · cases hw
        exact .inr rfl
      · exact .inl (h.live k hlive)
    · rw [hkeys, List.pairwise_append]
      refine ⟨pairwise_born_append (fun k _ => hkept k) h.order, List.pairwise_singleton _ _, ?_⟩
      intro k hk k' hk'
      rw [List.mem_singleton] at hk'
      subst hk'
      obtain ⟨t, ht⟩ := h.born k hk
      exact ⟨t, _, ht.insertion.lt, ht.append (hkept k), hlast⟩
    · intro k
      rw [written?_append, hvalue]

theorem Follows.remove (h : Follows history es) (key : String) :
    Follows (history ++ [.remove key]) (es.erase key) := by
  have hkeys := keys_erase es key
  have hmem (k : String) : k ∈ (es.erase key).keys ↔ k ≠ key ∧ k ∈ es.keys := by
    rw [hkeys, h.nodup.mem_erase_iff]
  have hkept : ∀ k ∈ (es.erase key).keys, Edit.remove key ≠ (.remove k : Edit α) := by
    rintro k hk ⟨⟩
    exact ((hmem key).1 hk).1 rfl
  constructor
  · rw [hkeys]
    exact h.nodup.erase key
  · intro k hk
    obtain ⟨t, ht⟩ := h.born k ((hmem k).1 hk).2
    exact ⟨t, ht.append (hkept k hk)⟩
  · intro k hlive
    rcases live_append hlive with ⟨v, hv⟩ | ⟨hlive, hne⟩
    · cases hv
    · refine (hmem k).2 ⟨?_, h.live k hlive⟩
      rintro rfl
      exact hne rfl
  · refine pairwise_born_append hkept ?_
    rw [hkeys]
    exact h.order.sublist List.erase_sublist
  · intro k
    rw [written?_append, get?_erase h.nodup, h.value, written?]

theorem Follows.update (h : Follows history es) (key : String) (f : α → α) :
    Follows (history ++ [.update key f]) (Edit.apply es (.update key f)) := by
  cases hget : es.get? key with
  | none =>
    have hstate : Edit.apply es (.update key f) = es := by
      rw [Edit.apply, edit_eq, hget]
      rfl
    rw [hstate]
    refine h.of_keys_eq rfl nofun nofun fun k => ?_
    rw [written?]
    split
    · rename_i hk
      rw [← h.value, ← hk, hget]
      rfl
    · exact h.value k
  | some v =>
    have hstate : Edit.apply es (.update key f) = es.insert key (f v) := by
      rw [Edit.apply, edit_eq, hget]
      rfl
    have hmem : key ∈ es.keys := List.mem_map.2 ⟨_, mem_of_get? hget, rfl⟩
    rw [hstate]
    refine h.of_keys_eq ?_ nofun nofun fun k => ?_
    · rw [keys_insert, if_pos hmem]
    · rw [get?_insert, written?]
      split
      · rename_i hk
        rw [← h.value, ← hk, hget]
        rfl
      · exact h.value k

theorem Follows.apply (h : Follows history es) (e : Edit α) :
    Follows (history ++ [e]) (e.apply es) := by
  cases e with
  | insert key v => exact h.insert key v
  | remove key => exact h.remove key
  | update key f => exact h.update key f

theorem Follows.run (h : Follows history es) (edits : List (Edit α)) :
    Follows (history ++ edits) (edits.foldl Edit.apply es) := by
  induction edits generalizing history es with
  | nil => simpa using h
  | cons e edits ih => simpa using ih (h.apply e)

theorem follows_nil : Follows ([] : List (Edit α)) [] where
  nodup := List.nodup_nil
  born _ hk := by cases hk
  live key := by
    rintro ⟨t, ⟨v, hv⟩, -⟩
    cases hv
  order := .nil
  value _ := rfl

theorem ofPairs_eq_run (pairs : List (String × α)) :
    ofPairs pairs = (pairs.map fun p => Edit.insert p.1 p.2).foldl Edit.apply [] := by
  rw [List.foldl_map]
  rfl

/-- Let entries be collected from pairs and then edited. No key stands twice; the keys are those
that were inserted since they were removed last, in the order of their first such insertions; each
has the value last written to it, and it is displaced by the next insertion or removal. To collect
pairs is to insert them one after the other. -/
theorem keys_in_order_of_birth (pairs : List (String × α)) (edits : List (Edit α)) :
    let history := (pairs.map fun p => Edit.insert p.1 p.2) ++ edits
    let es := edits.foldl Edit.apply (ofPairs pairs)
    es.keys.Nodup ∧
    (∀ key, key ∈ es.keys ↔ ∃! t, Born history key t) ∧
    (es.keys.Pairwise fun k k' => ∃ t t', t < t' ∧ Born history k t ∧ Born history k' t') ∧
    (∀ key, es.get? key = written? history.reverse key ∧ (es.get? key = none ↔ key ∉ es.keys)) ∧
    (∀ key value, (es.put key value).1 = written? history.reverse key ∧
      (es.take key).1 = written? history.reverse key) ∧
    ofPairs pairs = (pairs.map fun p => Edit.insert p.1 p.2).foldl Edit.apply [] := by
  intro history es
  have h : Follows history es := by
    have hpairs := follows_nil.run (pairs.map fun p => Edit.insert p.1 p.2)
    rw [← ofPairs_eq_run, List.nil_append] at hpairs
    exact hpairs.run edits
  refine ⟨h.nodup, fun key => ⟨fun hkey => ?_, ?_⟩, h.order,
    fun key => ⟨h.value key, get?_eq_none_iff es key⟩, fun key value => ⟨?_, ?_⟩,
    ofPairs_eq_run pairs⟩
  · obtain ⟨t, ht⟩ := h.born key hkey
    exact ⟨t, ht, fun t' ht' => ht.unique ht'⟩
  · rintro ⟨t, ht, -⟩
    exact h.live key ht.live
  · rw [put_fst, h.value]
  · rw [take_fst, h.value]

end Entries

end Resilient
