import Mathlib.Data.List.Perm.Subperm
import Resilient.Proofs.Json.Entries
import Resilient.Proofs.Json.Limits

/-!
# Equality of values

Equality looks at objects from one side: as many entries, and each entry of the first found in the
second. Where no object has a key twice this is a symmetric and transitive relation that does not
see the order of entries, and only a NaN keeps a value from being equal to itself
(`equality_lawful`).
-/

namespace Resilient

namespace Value

/-- No object has a key twice, whatever it stands inside. -/
def KeysUnique (v : Value) : Prop :=
  ∀ n entries, Within n v (.object entries) → (Entries.keys entries).Nodup

/-- A NaN stands somewhere in the value. -/
def HoldsNaN (v : Value) : Prop := ∃ n x, Within n v (.number x) ∧ x.isNaN = true

/-- The second value is the first with entries of objects, at any depth, in another order. -/
inductive Reordered : Value → Value → Prop where
  | refl (v : Value) : Reordered v v
  | trans {u v w : Value} (h : Reordered u v) (h' : Reordered v w) : Reordered u w
  | entries {es fs : Entries Value} (h : es.Perm fs) : Reordered (.object es) (.object fs)
  | item {v w : Value} (xs ys : List Value) (h : Reordered v w) :
      Reordered (.array (xs ++ v :: ys)) (.array (xs ++ w :: ys))
  | entry {v w : Value} (es fs : Entries Value) (key : String) (h : Reordered v w) :
      Reordered (.object (es ++ (key, v) :: fs)) (.object (es ++ (key, w) :: fs))

/-- What holds of a container as soon as it holds of all that it contains holds of every value. -/
theorem induction {motive : Value → Prop} (null : motive .null) (bool : ∀ b, motive (.bool b))
    (number : ∀ x, motive (.number x)) (string : ∀ s, motive (.string s))
    (array : ∀ items, (∀ v ∈ items, motive v) → motive (.array items))
    (object : ∀ entries : Entries Value, (∀ e ∈ entries, motive e.2) → motive (.object entries)) :
    ∀ v, motive v
  | .null => null
  | .bool b => bool b
  | .number x => number x
  | .string s => string s
  | .array items => array items fun v _ =>
    induction null bool number string array object v
  | .object entries => object entries fun e _ =>
    induction null bool number string array object e.2
termination_by v => sizeOf v
decreasing_by
  · have := List.sizeOf_lt_of_mem ‹v ∈ items›
    simp only [Value.array.sizeOf_spec]
    omega
  · have := List.sizeOf_lt_of_mem ‹e ∈ entries›
    have : sizeOf e.2 < sizeOf e := by
      cases e
      simp only [Prod.mk.sizeOf_spec]
      omega
    simp only [Value.object.sizeOf_spec]
    omega

variable {u v w : Value}

/-! ### What stands inside -/

theorem within_scalar {n : Nat} (h : Within n v w) (hv : v.isContainer = false) : w = v := by
  cases h with
  | self => rfl
  | item hw h | entry hw h => cases hv

theorem keysUnique_plain (hv : v.isContainer = false) : v.KeysUnique := by
  intro n entries hin
  rw [← within_scalar hin hv] at hv
  cases hv

theorem keysUnique_array_iff {items : List Value} :
    KeysUnique (.array items) ↔ ∀ v ∈ items, v.KeysUnique := by
  constructor
  · intro h v hv n entries hin
    exact h _ _ (.item hv hin)
  · intro h n entries hin
    cases hin with
    | item hw hin => exact h _ hw _ _ hin

theorem keysUnique_object_iff {entries : Entries Value} :
    KeysUnique (.object entries) ↔ entries.keys.Nodup ∧ ∀ e ∈ entries, e.2.KeysUnique := by
  constructor
  · intro h
    exact ⟨h 0 _ .self, fun e he n es hin => h _ _ (.entry he hin)⟩
  · rintro ⟨hn, h⟩ n es hin
    cases hin with
    | self => exact hn
    | entry hw hin => exact h _ hw _ _ hin

theorem not_holdsNaN_of_plain (hv : v.isContainer = false) (hx : v.number? = none) :
    ¬ v.HoldsNaN := by
  rintro ⟨n, x, hin, -⟩
  rw [← within_scalar hin hv] at hx
  cases hx

theorem holdsNaN_number_iff (x : Binary64) : HoldsNaN (.number x) ↔ x.isNaN = true := by
  constructor
  · rintro ⟨n, y, hin, hy⟩
    cases within_scalar hin rfl
    exact hy
  · intro h
    exact ⟨0, x, .self, h⟩

theorem holdsNaN_array_iff {items : List Value} :
    HoldsNaN (.array items) ↔ ∃ v ∈ items, v.HoldsNaN := by
  constructor
  · rintro ⟨n, x, hin, hx⟩
    cases hin with
    | item hw hin => exact ⟨_, hw, _, x, hin, hx⟩
  · rintro ⟨v, hv, n, x, hin, hx⟩
    exact ⟨n + 1, x, .item hv hin, hx⟩

theorem holdsNaN_object_iff {entries : Entries Value} :
    HoldsNaN (.object entries) ↔ ∃ e ∈ entries, e.2.HoldsNaN := by
  constructor
  · rintro ⟨n, x, hin, hx⟩
    cases hin with
    | entry hw hin => exact ⟨_, hw, _, x, hin, hx⟩
  · rintro ⟨e, he, n, x, hin, hx⟩
    exact ⟨n + 1, x, .entry he hin, hx⟩

/-! ### When values are equal -/

theorem equals_plain_iff (hu : u.isContainer = false) (hx : u.number? = none) :
    u.equals v = true ↔ v = u := by
  cases u with
  | null => cases v <;> simp [equals]
  | bool b => cases v <;> simp [equals, eq_comm]
  | string s => cases v <;> simp [equals, eq_comm]
  | number x => cases hx
  | array _ | object _ => cases hu

theorem equals_number_iff {x : Binary64} :
    (number x).equals v = true ↔ ∃ y, v = number y ∧ x.equals y = true := by
  cases v <;> simp [equals]

theorem equalItems_iff {xs ys : List Value} :
    equalItems xs ys = true ↔ List.Forall₂ (fun x y => x.equals y = true) xs ys := by
  induction xs generalizing ys with
  | nil => cases ys <;> simp [equalItems]
  | cons x xs ih => cases ys <;> simp [equalItems, ih]

theorem equalEntries_iff {es fs : Entries Value} :
    equalEntries es fs = true ↔ ∀ e ∈ es, ∃ w, fs.get? e.1 = some w ∧ e.2.equals w = true := by
  induction es with
  | nil => simp [equalEntries]
  | cons e es ih =>
    rw [equalEntries, Bool.and_eq_true, ih, List.forall_mem_cons]
    cases Entries.get? fs e.1 <;> simp

theorem equals_array_iff {xs ys : List Value} :
    (array xs).equals (array ys) = true ↔ List.Forall₂ (fun x y => x.equals y = true) xs ys := by
  rw [equals, equalItems_iff]

theorem equals_object_iff {es fs : Entries Value} :
    (object es).equals (object fs) = true ↔ es.length = fs.length ∧
      ∀ e ∈ es, ∃ w, fs.get? e.1 = some w ∧ e.2.equals w = true := by
  rw [equals, Bool.and_eq_true, decide_eq_true_eq, equalEntries_iff]

theorem exists_array_of_equals {xs : List Value} (h : (array xs).equals v = true) :
    ∃ ys, v = array ys ∧ List.Forall₂ (fun x y => x.equals y = true) xs ys := by
  cases v with
  | null | bool _ | number _ | string _ | object _ => cases h
  | array ys => exact ⟨ys, rfl, equals_array_iff.1 h⟩

theorem exists_object_of_equals {es : Entries Value} (h : (object es).equals v = true) :
    ∃ fs : Entries Value, v = object fs ∧ es.length = fs.length ∧
      ∀ e ∈ es, ∃ w, fs.get? e.1 = some w ∧ e.2.equals w = true := by
  cases v with
  | null | bool _ | number _ | string _ | array _ => cases h
  | object fs => exact ⟨fs, rfl, equals_object_iff.1 h⟩

/-! ### The laws -/

/-- As many entries, and each key of the first, none of them twice, among those of the second: then
the keys are the same. -/
theorem keys_subset_of_length_eq {es fs : Entries Value} (hn : es.keys.Nodup)
    (hlen : es.length = fs.length) (hsub : es.keys ⊆ fs.keys) : fs.keys ⊆ es.keys := by
  have hle : fs.keys.length ≤ es.keys.length := by simp [Entries.keys, hlen]
  exact ((hn.subperm hsub).perm_of_length_le hle).symm.subset

theorem equals_symm (hu : u.KeysUnique) (hv : v.KeysUnique) (h : u.equals v = true) :
    v.equals u = true := by
  induction u using Value.induction generalizing v with
  | null | bool _ | string _ =>
    obtain rfl := (equals_plain_iff rfl rfl).1 h
    exact h
  | number x =>
    obtain ⟨y, rfl, hxy⟩ := equals_number_iff.1 h
    exact equals_number_iff.2 ⟨x, rfl, (Binary64.equals_comm y x).trans hxy⟩
  | array xs ih =>
    obtain ⟨ys, rfl, hxy⟩ := exists_array_of_equals h
    rw [keysUnique_array_iff] at hu hv
    obtain ⟨hlen, hxy⟩ := List.forall₂_iff_get.1 hxy
    refine equals_array_iff.2 (List.forall₂_iff_get.2 ⟨hlen.symm, fun i hy hx => ?_⟩)
    exact ih _ (List.get_mem _ _) (hu _ (List.get_mem _ _)) (hv _ (List.get_mem _ _)) (hxy i hx hy)
  | object es ih =>
    obtain ⟨fs, rfl, hlen, hfound⟩ := exists_object_of_equals h
    rw [keysUnique_object_iff] at hu hv
    refine equals_object_iff.2 ⟨hlen.symm, fun f hf => ?_⟩
    have hsub : es.keys ⊆ fs.keys := by
      intro key hkey
      obtain ⟨e, he, rfl⟩ := List.mem_map.1 hkey
      obtain ⟨w, hw, -⟩ := hfound e he
      exact List.mem_map.2 ⟨_, Entries.mem_of_get? hw, rfl⟩
    have hkey : f.1 ∈ es.keys := keys_subset_of_length_eq hu.1 hlen hsub (List.mem_map_of_mem hf)
    obtain ⟨e, he, hek⟩ := List.mem_map.1 hkey
    obtain ⟨w, hw, hew⟩ := hfound e he
    -- The second object holds one value under the key, so `e` was compared with `f`.
    have hwf : w = f.2 := by
      rw [hek, Entries.get?_of_mem hv.1 hf] at hw
      exact (Option.some.inj hw).symm
    subst hwf
    refine ⟨e.2, ?_, ih e he (hu.2 e he) (hv.2 f hf) hew⟩
    rw [← hek]
    exact Entries.get?_of_mem hu.1 he

theorem equals_comm (hu : u.KeysUnique) (hv : v.KeysUnique) : u.equals v = v.equals u :=
  Bool.eq_iff_iff.2 ⟨equals_symm hu hv, equals_symm hv hu⟩

theorem equals_trans (h : u.equals v = true) (h' : v.equals w = true) : u.equals w = true := by
  induction u using Value.induction generalizing v w with
  | null | bool _ | string _ =>
    obtain rfl := (equals_plain_iff rfl rfl).1 h
    exact h'
  | number x =>
    obtain ⟨y, rfl, hxy⟩ := equals_number_iff.1 h
    obtain ⟨z, rfl, hyz⟩ := equals_number_iff.1 h'
    exact equals_number_iff.2 ⟨z, rfl, Binary64.equals_trans hxy hyz⟩
  | array xs ih =>
    obtain ⟨ys, rfl, hxy⟩ := exists_array_of_equals h
    obtain ⟨zs, rfl, hyz⟩ := exists_array_of_equals h'
    obtain ⟨hlen, hxy⟩ := List.forall₂_iff_get.1 hxy
    obtain ⟨hlen', hyz⟩ := List.forall₂_iff_get.1 hyz
    refine equals_array_iff.2 (List.forall₂_iff_get.2 ⟨hlen.trans hlen', fun i hx hz => ?_⟩)
    have hy : i < ys.length := hlen ▸ hx
    exact ih _ (List.get_mem _ _) (hxy i hx hy) (hyz i hy hz)
  | object es ih =>
    obtain ⟨fs, rfl, hlen, hfound⟩ := exists_object_of_equals h
    obtain ⟨gs, rfl, hlen', hfound'⟩ := exists_object_of_equals h'
    refine equals_object_iff.2 ⟨hlen.trans hlen', fun e he => ?_⟩
    obtain ⟨v, hv, hev⟩ := hfound e he
    obtain ⟨w, hw, hvw⟩ := hfound' _ (Entries.mem_of_get? hv)
    exact ⟨w, hw, ih e he hev hvw⟩

theorem equals_self_iff (hu : u.KeysUnique) : u.equals u = true ↔ ¬ u.HoldsNaN := by
  induction u using Value.induction with
  | null | bool _ | string _ =>
    exact iff_of_true ((equals_plain_iff rfl rfl).2 rfl) (not_holdsNaN_of_plain rfl rfl)
  | number x =>
    rw [holdsNaN_number_iff, equals, Binary64.equals_self_iff, Bool.not_eq_true]
  | array items ih =>
    rw [keysUnique_array_iff] at hu
    rw [equals_array_iff, List.forall₂_same, holdsNaN_array_iff, not_exists]
    refine forall_congr' fun v => ?_
    rw [not_and]
    exact forall_congr' fun hv => ih v hv (hu v hv)
  | object entries ih =>
    rw [keysUnique_object_iff] at hu
    rw [equals_object_iff, holdsNaN_object_iff, not_exists]
    refine (and_iff_right rfl).trans (forall_congr' fun e => ?_)
    rw [not_and]
    refine forall_congr' fun he => ?_
    rw [Entries.get?_of_mem hu.1 he, ← ih e he (hu.2 e he)]
    simp

/-! ### The order of entries -/

theorem equals_congr_entries {es fs : Entries Value} (hlen : es.length = fs.length)
    (h : ∀ gs : Entries Value, equalEntries es gs = equalEntries fs gs) (w : Value) :
    (object es).equals w = (object fs).equals w := by
  cases w with
  | null | bool _ | number _ | string _ | array _ => rfl
  | object gs => rw [equals, equals, hlen, h]

theorem Reordered.equals_left (h : Reordered u v) (w : Value) : u.equals w = v.equals w := by
  induction h generalizing w with
  | refl v => rfl
  | trans h h' ih ih' => rw [ih, ih']
  | @entries es fs h =>
    refine equals_congr_entries h.length_eq (fun gs => ?_) w
    rw [Bool.eq_iff_iff, equalEntries_iff, equalEntries_iff]
    exact forall_congr' fun e => by rw [h.mem_iff]
  | @item v v' xs ys h ih =>
    cases w with
    | null | bool _ | number _ | string _ | object _ => rfl
    | array zs =>
      rw [equals, equals]
      induction xs generalizing zs with
      | nil =>
        cases zs with
        | nil => rfl
        | cons z zs => simp only [List.nil_append, equalItems, ih]
      | cons x xs ihx =>
        cases zs with
        | nil => rfl
        | cons z zs => simp only [List.cons_append, equalItems, ihx]
  | @entry v v' es fs key h ih =>
    refine equals_congr_entries (by simp) (fun gs => ?_) w
    rw [Bool.eq_iff_iff, equalEntries_iff, equalEntries_iff]
    simp only [List.forall_mem_append, List.forall_mem_cons, ih]

theorem Reordered.keysUnique (h : Reordered u v) (hu : u.KeysUnique) : v.KeysUnique := by
  induction h with
  | refl v => exact hu
  | trans h h' ih ih' => exact ih' (ih hu)
  | entries h =>
    rw [keysUnique_object_iff] at hu ⊢
    exact ⟨(h.map Prod.fst).nodup_iff.1 hu.1, fun e he => hu.2 e (h.mem_iff.2 he)⟩
  | item xs ys h ih =>
    rw [keysUnique_array_iff, List.forall_mem_append, List.forall_mem_cons] at hu ⊢
    exact ⟨hu.1, ih hu.2.1, hu.2.2⟩
  | entry es fs key h ih =>
    rw [keysUnique_object_iff, List.forall_mem_append, List.forall_mem_cons] at hu ⊢
    obtain ⟨hn, hes, hv, hfs⟩ := hu
    refine ⟨?_, hes, ih hv, hfs⟩
    simpa [Entries.keys] using hn

/-- On values without a repeated key, equality is symmetric and transitive, it fails between a value
and itself exactly if a NaN stands inside, it does not see the order of entries at any depth, and
arrays are compared item by item. -/
theorem equality_lawful (hu : u.KeysUnique) (hv : v.KeysUnique) :
    u.equals v = v.equals u ∧
    (∀ w, u.equals v = true → v.equals w = true → u.equals w = true) ∧
    (u.equals u = true ↔ ¬ u.HoldsNaN) ∧
    (∀ u' v', Reordered u u' → Reordered v v' → u'.equals v' = u.equals v) ∧
    ∀ xs ys, (array xs).equals (array ys) = true ↔
      List.Forall₂ (fun x y => x.equals y = true) xs ys := by
  refine ⟨equals_comm hu hv, fun w => equals_trans, equals_self_iff hu, fun u' v' h h' => ?_,
    fun xs ys => equals_array_iff⟩
  calc u'.equals v' = u.equals v' := (h.equals_left v').symm
    _ = v'.equals u := equals_comm hu (h'.keysUnique hv)
    _ = v.equals u := (h'.equals_left u).symm
    _ = u.equals v := equals_comm hv hu

/-- A zero and a negative zero, and entries in another order, also inside an array. -/
theorem equality_lawful_zeros :
    let u := object [("a", number .zero), ("b", array [object [("c", null), ("d", bool true)]])]
    let v := object
      [("b", array [object [("d", bool true), ("c", null)]]), ("a", number (.ofMagnitude true 0))]
    let w := object [("b", array [object [("d", bool true), ("c", null)]]), ("a", number .zero)]
    (u.KeysUnique ∧ v.KeysUnique) ∧ u.equals v = v.equals u ∧
      (u.equals v = true ∧ v.equals w = true ∧ u.equals w = true) ∧
      (u.equals u = true ↔ ¬ u.HoldsNaN) ∧
      (Reordered u w ∧ w.equals v = u.equals v) := by
  intro u v w
  have hnull := keysUnique_plain (v := null) rfl
  have htrue := keysUnique_plain (v := bool true) rfl
  have hnumber (x : Binary64) := keysUnique_plain (v := number x) rfl
  have hu : u.KeysUnique := by
    simp [u, keysUnique_object_iff, keysUnique_array_iff, Entries.keys, hnull, htrue, hnumber]
  have hv : v.KeysUnique := by
    simp [v, keysUnique_object_iff, keysUnique_array_iff, Entries.keys, hnull, htrue, hnumber]
  have huw : Reordered u w :=
    .trans (.entries (.swap _ _ [])) (.entry [] _ "b" (.item [] [] (.entries (.swap _ _ []))))
  have huv : u.equals v = true := by decide
  have hvw : v.equals w = true := by decide
  obtain ⟨hsymm, htrans, hself, horder, -⟩ := equality_lawful hu hv
  exact ⟨⟨hu, hv⟩, hsymm, ⟨huv, hvw, htrans w huv hvw⟩, hself, huw, horder w v huw (.refl v)⟩

end Value

end Resilient
