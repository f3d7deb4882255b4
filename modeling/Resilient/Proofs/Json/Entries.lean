import Mathlib.Data.List.Induction
import Resilient.Json.Entries

/-!
# Entries written one after the other

`lastWritten` says what pairs with repeated keys amount to, `ofPairs_eq_lastWritten` that writing
them one after the other comes to the same.
-/

namespace Resilient

namespace Entries

variable {α : Type}

/-- The keys in the order of their first places, each with the value that it is given last. -/
def lastWritten (pairs : List (String × α)) : Entries α :=
  (pairs.map Prod.fst).eraseDups.filterMap fun key =>
    (pairs.reverse.lookup key).map fun v => (key, v)

theorem get?_cons (k key : String) (v : α) (es : Entries α) :
    get? ((k, v) :: es) key = if k = key then some v else get? es key := rfl

theorem get?_eq_none_iff (es : Entries α) (key : String) : es.get? key = none ↔ key ∉ es.keys := by
  induction es with
  | nil => simp [keys]
  | cons e es ih =>
    obtain ⟨k, v⟩ := e
    by_cases h : k = key
    · simp [get?_cons, keys, h]
    · rw [get?_cons, if_neg h, ih]
      simp [keys, Ne.symm h]

theorem mem_of_get? {es : Entries α} {key : String} {v : α} (h : es.get? key = some v) :
    (key, v) ∈ es := by
  induction es with
  | nil => cases h
  | cons e es ih =>
    obtain ⟨k, w⟩ := e
    rw [get?_cons] at h
    split at h
    · rename_i hk
      cases h
      rw [hk]
      exact List.mem_cons_self
    · exact List.mem_cons_of_mem _ (ih h)

theorem get?_of_mem {es : Entries α} (hn : es.keys.Nodup) {key : String} {v : α}
    (h : (key, v) ∈ es) : es.get? key = some v := by
  induction es with
  | nil => cases h
  | cons e es ih =>
    rw [keys, List.map_cons, List.nodup_cons] at hn
    rcases List.mem_cons.1 h with rfl | h
    · exact if_pos rfl
    · have hne : e.1 ≠ key := by
        rintro rfl
        exact hn.1 (List.mem_map.2 ⟨_, h, rfl⟩)
      rw [get?_cons, if_neg hne]
      exact ih hn.2 h

/-- Entries without a repeated key are known by their keys and the value of each. -/
theorem ext_of_get? {es es' : Entries α} (hn : es.keys.Nodup) (hk : es.keys = es'.keys)
    (hg : ∀ key, es.get? key = es'.get? key) : es = es' := by
  induction es generalizing es' with
  | nil =>
    cases es' with
    | nil => rfl
    | cons e es' => cases hk
  | cons e es ih =>
    cases es' with
    | nil => cases hk
    | cons e' es' =>
      obtain ⟨k, v⟩ := e
      obtain ⟨k', v'⟩ := e'
      simp only [keys, List.map_cons, List.cons.injEq, List.nodup_cons] at hk hn
      obtain ⟨rfl, hk⟩ := hk
      have hv : v = v' := by simpa [get?_cons] using hg k
      rw [hv, ih hn.2 hk]
      intro key
      by_cases hkey : k = key
      · have h₁ : get? es k = none := (get?_eq_none_iff es k).2 hn.1
        have h₂ : get? es' k = none := (get?_eq_none_iff es' k).2 (by rw [keys, ← hk]; exact hn.1)
        rw [← hkey, h₁, h₂]
      · simpa [get?_cons, hkey] using hg key

theorem nodup_keys_insert {es : Entries α} (hn : es.keys.Nodup) (key : String) (v : α) :
    (es.insert key v).keys.Nodup := by
  rw [keys_insert]
  split
  · exact hn
  · rename_i h
    rw [List.nodup_append]
    refine ⟨hn, by simp, ?_⟩
    intro k hk k' hk' he
    rw [List.mem_singleton] at hk'
    exact h (by rwa [← hk', ← he])

theorem keys_erase (es : Entries α) (key : String) : (es.erase key).keys = es.keys.erase key := by
  induction es with
  | nil => rfl
  | cons e es ih =>
    obtain ⟨k, v⟩ := e
    simp only [erase, keys] at ih ⊢
    by_cases h : k = key
    · simp [take, h]
    · simp [take, h, ih]

theorem get?_erase {es : Entries α} (hn : es.keys.Nodup) (key other : String) :
    (es.erase key).get? other = if key = other then none else es.get? other := by
  induction es with
  | nil => simp [erase, take]
  | cons e es ih =>
    obtain ⟨k, v⟩ := e
    rw [keys, List.map_cons, List.nodup_cons] at hn
    have hes := ih hn.2
    rw [erase] at hes ⊢
    by_cases h : k = key
    · subst h
      by_cases h' : k = other
      · subst h'
        simpa [take] using (get?_eq_none_iff es k).2 hn.1
      · simp [take, get?_cons, h']
    · by_cases h' : k = other
      · subst h'
        simp [take, get?_cons, h, Ne.symm h]
      · simp [take, get?_cons, h, h', hes]

/-- To pass a value through a function is to look it up and to write what comes out. -/
theorem edit_eq {β : Type} (f : α → Option (β × α)) (es : Entries α) (key : String) :
    es.edit f key = ((es.get? key).bind f).map fun (b, v) => (b, es.insert key v) := by
  induction es with
  | nil => rfl
  | cons e es ih =>
    obtain ⟨k, v⟩ := e
    by_cases h : k = key
    · simp [edit, get?_cons, insert, put, h]
    · simp [edit, get?_cons, insert, put, h, ih, Function.comp_def]

/-! ### Pairs written one after the other -/

theorem ofPairs_append_singleton (pairs : List (String × α)) (key : String) (v : α) :
    ofPairs (pairs ++ [(key, v)]) = (ofPairs pairs).insert key v := by
  simp [ofPairs]

theorem keys_ofPairs (pairs : List (String × α)) :
    (ofPairs pairs).keys = (pairs.map Prod.fst).eraseDups := by
  induction pairs using List.reverseRecOn with
  | nil => rfl
  | append_singleton pairs e ih =>
    have hm : e.1 ∈ (ofPairs pairs).keys ↔ e.1 ∈ pairs.map Prod.fst := by
      rw [ih, List.mem_eraseDups]
    rw [ofPairs_append_singleton, keys_insert, ih, List.map_append, List.eraseDups_append]
    rw [ih] at hm
    by_cases h : e.1 ∈ pairs.map Prod.fst
    · simp [hm.2 h, h, List.removeAll]
    · simp [mt hm.1 h, h, List.removeAll, List.eraseDups_cons]

theorem nodup_keys_ofPairs (pairs : List (String × α)) : (ofPairs pairs).keys.Nodup := by
  induction pairs using List.reverseRecOn with
  | nil => exact List.nodup_nil
  | append_singleton pairs e ih =>
    rw [ofPairs_append_singleton]
    exact nodup_keys_insert ih e.1 e.2

theorem get?_ofPairs (pairs : List (String × α)) (key : String) :
    (ofPairs pairs).get? key = pairs.reverse.lookup key := by
  induction pairs using List.reverseRecOn with
  | nil => rfl
  | append_singleton pairs e ih =>
    rw [ofPairs_append_singleton, get?_insert, ih, List.reverse_append, List.reverse_singleton,
      List.singleton_append, List.lookup_cons]
    by_cases h : e.1 = key
    · simp [h]
    · have h' : (key == e.1) = false := by simpa using Ne.symm h
      simp [h, h']

theorem get?_filterMap (f : String → Option α) (ks : List String) (key : String) :
    get? (ks.filterMap fun k => (f k).map fun v => (k, v)) key =
      if key ∈ ks then f key else none := by
  induction ks with
  | nil => rfl
  | cons k ks ih =>
    rw [List.filterMap_cons]
    by_cases h : k = key
    · subst h
      cases hf : f k with
      | none => simp [ih, hf]
      | some v => simp [get?_cons]
    · cases hf : f k with
      | none => simp [ih, Ne.symm h]
      | some v => simp [get?_cons, h, ih, Ne.symm h]

theorem lookup_reverse_eq_none_iff (pairs : List (String × α)) (key : String) :
    pairs.reverse.lookup key = none ↔ key ∉ pairs.map Prod.fst := by
  simp only [List.lookup_eq_none_iff, List.mem_reverse, List.mem_map, not_exists, not_and,
    bne_iff_ne, ne_eq, @eq_comm _ key]

theorem keys_lastWritten (pairs : List (String × α)) :
    (lastWritten pairs).keys = (pairs.map Prod.fst).eraseDups := by
  have h : ∀ key ∈ (pairs.map Prod.fst).eraseDups, pairs.reverse.lookup key ≠ none := by
    intro key hkey hnone
    rw [List.mem_eraseDups] at hkey
    exact (lookup_reverse_eq_none_iff pairs key).1 hnone hkey
  rw [lastWritten, keys]
  generalize (pairs.map Prod.fst).eraseDups = ks at h
  induction ks with
  | nil => rfl
  | cons k ks ih =>
    obtain ⟨v, hv⟩ := Option.ne_none_iff_exists'.1 (h k (by simp))
    have hks := ih fun key hkey => h key (by simp [hkey])
    rw [List.filterMap_cons, hv]
    simp [hks]

theorem get?_lastWritten (pairs : List (String × α)) (key : String) :
    (lastWritten pairs).get? key = pairs.reverse.lookup key := by
  rw [lastWritten, get?_filterMap]
  split
  · rfl
  · rename_i h
    rw [List.mem_eraseDups] at h
    rw [(lookup_reverse_eq_none_iff pairs key).2 h]

/-- Writing pairs one after the other leaves each key at its first place with its last value. -/
theorem ofPairs_eq_lastWritten (pairs : List (String × α)) : ofPairs pairs = lastWritten pairs :=
  ext_of_get? (nodup_keys_ofPairs pairs) (by rw [keys_ofPairs, keys_lastWritten]) fun key => by
    rw [get?_ofPairs, get?_lastWritten]

theorem insert_of_not_mem {es : Entries α} {key : String} (h : key ∉ es.keys) (v : α) :
    es.insert key v = es ++ [(key, v)] := by
  induction es with
  | nil => rfl
  | cons e es ih =>
    obtain ⟨k, w⟩ := e
    simp only [keys, List.map_cons, List.mem_cons, not_or] at h
    have hes := ih h.2
    rw [insert] at hes ⊢
    simp [put, Ne.symm h.1, hes]

theorem lastWritten_of_nodup {es : Entries α} (h : es.keys.Nodup) : lastWritten es = es := by
  rw [← ofPairs_eq_lastWritten]
  induction es using List.reverseRecOn with
  | nil => rfl
  | append_singleton es e ih =>
    rw [keys, List.map_append, List.nodup_append] at h
    obtain ⟨hes, -, hdisjoint⟩ := h
    rw [ofPairs_append_singleton, ih hes]
    exact insert_of_not_mem (fun hk => hdisjoint e.1 hk e.1 (by simp) rfl) e.2

end Entries

end Resilient
