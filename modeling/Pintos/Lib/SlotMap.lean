import Mathlib.Data.Set.Card

/- A table of slots as a finite map.

   Each of the first `N` slots of a table is free or has a key with a value. If no key is
   in two of them, the table is a map with at most `N` keys: filling a free slot binds a
   key that was not bound, freeing the slot of a key unbinds it, and there is a free slot
   exactly if there are fewer than `N` keys. -/
namespace Lib

open Function

abbrev Slots (K V : Type) := Nat → Option (K × V)

namespace Slots
variable {K V : Type} [DecidableEq K] {t t' : Slots K V} {N i : Nat} {k : K} {v : V}

/-- The value in a slot, if it is the slot of `k`. -/
def valueAt (t : Slots K V) (k : K) (i : Nat) : Option V :=
  (t i).bind fun x => if x.1 = k then some x.2 else none

/-- The value of a key: that of the first slot with this key. -/
def get (t : Slots K V) (N : Nat) (k : K) : Option V := (List.range N).findSome? (t.valueAt k)

/-- No key is in two slots. -/
structure Distinct (t : Slots K V) (N : Nat) : Prop where
  same : ∀ {i j k v w}, i < N → j < N → t i = some (k, v) → t j = some (k, w) → i = j

/-- The keys, in the order of their slots. -/
def keys (t : Slots K V) (N : Nat) : List K := (List.range N).filterMap fun i => (t i).map Prod.fst

theorem valueAt_eq_some : t.valueAt k i = some v ↔ t i = some (k, v) := by
  rw [valueAt, Option.bind_eq_some_iff]
  constructor
  · grind
  · exact fun ht => ⟨(k, v), ht, if_pos rfl⟩

theorem get_congr (h : ∀ i < N, t i = t' i) : t.get N = t'.get N := by
  funext k
  have hlist : ∀ l : List Nat, (∀ i ∈ l, t i = t' i) →
      l.findSome? (t.valueAt k) = l.findSome? (t'.valueAt k) := by
    intro l hl
    induction l with
    | nil => rfl
    | cons i l ih => grind [valueAt]
  exact hlist _ fun i hi => h i (List.mem_range.mp hi)

theorem get_eq_none : t.get N k = none ↔ ∀ i < N, ∀ v, t i ≠ some (k, v) := by
  rw [get, List.findSome?_eq_none_iff]
  simp only [List.mem_range, Option.eq_none_iff_forall_ne_some, ne_eq, valueAt_eq_some]

theorem Distinct.get_eq_some (h : t.Distinct N) : t.get N k = some v ↔ ∃ i < N, t i = some (k, v) := by
  constructor
  · intro hg
    obtain ⟨i, hi, hv⟩ := List.exists_of_findSome?_eq_some hg
    exact ⟨i, List.mem_range.mp hi, valueAt_eq_some.mp hv⟩
  · rintro ⟨i, hi, hv⟩
    cases hg : t.get N k with
    | none => exact absurd hv (get_eq_none.mp hg i hi v)
    | some w =>
      obtain ⟨j, hj, hw⟩ := List.exists_of_findSome?_eq_some hg
      have hw := valueAt_eq_some.mp hw
      have hij := h.same hi (List.mem_range.mp hj) hv hw
      rw [← hij, hv] at hw
      cases hw
      rfl

/-! Filling and freeing a slot. -/

theorem Distinct.put (h : t.Distinct N) (hk : t.get N k = none) :
    Distinct (update t i (some (k, v))) N := by
  refine ⟨fun {a b k' v' w'} ha hb hva hwb => ?_⟩
  by_cases hai : a = i
  · by_cases hbi : b = i
    · rw [hai, hbi]
    · rw [hai, update_self, Option.some.injEq, Prod.mk.injEq] at hva
      rw [update_of_ne hbi, ← hva.1] at hwb
      exact absurd hwb (get_eq_none.mp hk b hb w')
  · rw [update_of_ne hai] at hva
    by_cases hbi : b = i
    · rw [hbi, update_self, Option.some.injEq, Prod.mk.injEq] at hwb
      rw [← hwb.1] at hva
      exact absurd hva (get_eq_none.mp hk a ha v')
    · rw [update_of_ne hbi] at hwb
      exact h.same ha hb hva hwb

theorem Distinct.get_put (h : t.Distinct N) (hi : i < N) (hfree : t i = none)
    (hk : t.get N k = none) :
    get (update t i (some (k, v))) N = update (t.get N) k (some v) := by
  funext k'
  refine Option.ext fun w => ?_
  rw [(h.put hk).get_eq_some]
  by_cases hkk : k' = k
  · subst hkk
    rw [update_self]
    constructor
    · rintro ⟨j, hj, hw⟩
      have hji : j = i := (h.put hk).same hj hi hw (update_self ..)
      rw [hji, update_self] at hw
      cases hw
      rfl
    · rintro hw
      cases hw
      exact ⟨i, hi, update_self ..⟩
  · rw [update_of_ne hkk, h.get_eq_some]
    constructor
    · grind
    · rintro ⟨j, hj, hw⟩
      have hji : j ≠ i := by
        rintro rfl
        rw [hfree] at hw
        cases hw
      exact ⟨j, hj, by rw [update_of_ne hji]; exact hw⟩

omit [DecidableEq K] in
theorem Distinct.clear (h : t.Distinct N) : Distinct (update t i none) N := by
  refine ⟨fun {a b k' v' w'} ha hb hva hwb => ?_⟩
  have hne : ∀ {j : Nat} {x}, update t i none j = some x → t j = some x := by grind
  exact h.same ha hb (hne hva) (hne hwb)

theorem Distinct.get_clear (h : t.Distinct N) (hi : i < N) (hv : t i = some (k, v)) :
    get (update t i none) N = update (t.get N) k none := by
  funext k'
  refine Option.ext fun w => ?_
  rw [(h.clear).get_eq_some]
  by_cases hkk : k' = k
  · grind [h.same]
  · rw [update_of_ne hkk, h.get_eq_some]
    constructor
    · grind
    · rintro ⟨j, hj, hw⟩
      have hji : j ≠ i := by grind
      exact ⟨j, hj, by rw [update_of_ne hji]; exact hw⟩

/-! How many keys there are. -/

omit [DecidableEq K] in
theorem mem_keys : k ∈ t.keys N ↔ ∃ v, ∃ i < N, t i = some (k, v) := by
  simp only [keys, List.mem_filterMap, List.mem_range, Option.map_eq_some_iff, Prod.exists,
    exists_and_right, exists_eq_right]
  constructor
  · rintro ⟨i, hi, v, hv⟩
    exact ⟨v, i, hi, hv⟩
  · rintro ⟨v, i, hi, hv⟩
    exact ⟨i, hi, v, hv⟩

theorem Distinct.mem_keys (h : t.Distinct N) : k ∈ t.keys N ↔ t.get N k ≠ none := by
  rw [Slots.mem_keys, Option.ne_none_iff_exists']
  simp only [h.get_eq_some]

omit [DecidableEq K] in
theorem Distinct.nodup_keys (h : t.Distinct N) : (t.keys N).Nodup := by
  rw [keys, List.nodup_iff_pairwise_ne, List.pairwise_filterMap]
  refine List.Pairwise.imp_of_mem (fun {i j} hi hj hij k hk k' hk' heq => hij ?_)
    (List.nodup_iff_pairwise_ne.mp List.nodup_range)
  obtain ⟨⟨_, v⟩, hv, rfl⟩ := Option.map_eq_some_iff.mp hk
  obtain ⟨⟨_, w⟩, hw, rfl⟩ := Option.map_eq_some_iff.mp hk'
  cases heq
  exact h.same (List.mem_range.mp hi) (List.mem_range.mp hj) hv hw

omit [DecidableEq K] in
theorem length_keys_lt : (t.keys N).length < N ↔ ∃ i < N, t i = none := by
  have hlen : (t.keys N).length = (List.range N).countP fun i => (t i).isSome := by
    grind [keys, List.length_filterMap_eq_countP]
  have hle := List.countP_le_length (p := fun i => (t i).isSome) (l := List.range N)
  have hall := List.countP_eq_length (p := fun i => (t i).isSome) (l := List.range N)
  rw [List.length_range] at hle hall
  rw [hlen, lt_iff_le_and_ne, and_iff_right hle, Ne, hall]
  simp only [List.mem_range, not_forall, Option.isSome_iff_ne_none, ne_eq, not_not, exists_prop]

/-- There is a free slot exactly if there are fewer keys than slots. -/
theorem Distinct.ncard_lt (h : t.Distinct N) :
    {k | t.get N k ≠ none}.ncard < N ↔ ∃ i < N, t i = none := by
  have hset : {k | t.get N k ≠ none} = ((t.keys N).toFinset : Set K) := by
    grind [h.mem_keys, List.mem_toFinset]
  rw [hset, Set.ncard_coe_finset, List.toFinset_card_of_nodup h.nodup_keys, length_keys_lt]

theorem subset_keys : {k | t.get N k ≠ none} ⊆ ((t.keys N).toFinset : Set K) := by
  intro k hk
  rw [Set.mem_ofPred_eq, Ne, get_eq_none] at hk
  push Not at hk
  obtain ⟨i, hi, v, hv⟩ := hk
  rw [Finset.mem_coe, List.mem_toFinset, Slots.mem_keys]
  exact ⟨v, i, hi, hv⟩

theorem finite : {k | t.get N k ≠ none}.Finite := (Finset.finite_toSet _).subset subset_keys

/-! The keys from some slot on. -/

/-- The keys of the slots from `k` on. -/
def keysFrom (t : Slots K V) (N k : Nat) : List K :=
  (List.range' k (N - k)).filterMap fun i => (t i).map Prod.fst

omit [DecidableEq K] in
theorem keysFrom_zero : t.keysFrom N 0 = t.keys N := by
  rw [keysFrom, keys, List.range_eq_range', Nat.sub_zero]

omit [DecidableEq K] in
theorem keysFrom_end {k : Nat} (h : N ≤ k) : t.keysFrom N k = [] := by
  rw [keysFrom, Nat.sub_eq_zero_of_le h]
  rfl

omit [DecidableEq K] in
theorem keysFrom_succ {j : Nat} (h : j < N) :
    t.keysFrom N j = ((t j).map Prod.fst).toList ++ t.keysFrom N (j + 1) := by
  rw [keysFrom, keysFrom, show N - j = N - (j + 1) + 1 by omega, List.range'_succ,
    List.filterMap_cons]
  cases t j <;> rfl

omit [DecidableEq K] in
theorem keysFrom_skip {j k : Nat} (hjk : j ≤ k)
    (h : ∀ i, j ≤ i → i < k → i < N ∧ t i = none) : t.keysFrom N j = t.keysFrom N k := by
  induction k, hjk using Nat.le_induction with
  | base => rfl
  | succ k hjk ih => grind [keysFrom_succ]

end Slots

end Lib
