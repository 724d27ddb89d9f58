import Mathlib.Data.List.Nodup
import Mathlib.Data.List.Range
import Mathlib.Logic.Equiv.Basic

/- Heaps in the first places of a sequence, which count from one.

   The order is given by a comparison whose sign says which of two is the greater. `Sift`
   is a heap with one place that may be too small for its children; it becomes a heap, or
   the greater child is exchanged for it and the place moves down. `Tail` is what holds
   between the turns of a heap sort: a heap, and behind it, in order, what is no less. -/
namespace Lib

variable {α : Type}

/-- A total preorder: `a` is at most `b` if the result is not positive. -/
structure StrcmpOrder (cmp : α → α → Int) : Prop where
  flip : ∀ a b, 0 < cmp a b ↔ cmp b a < 0
  trans : ∀ {a b c}, cmp a b ≤ 0 → cmp b c ≤ 0 → cmp a c ≤ 0

def Child (c i : Nat) : Prop := c = 2 * i ∨ c = 2 * i + 1

/-- Each of the first `n` places from `lo` on is no less than its children. -/
def Heaped (cmp : α → α → Int) (f : Nat → α) (lo n : Nat) : Prop :=
  ∀ i c, lo ≤ i → Child c i → c ≤ n → cmp (f c) (f i) ≤ 0

structure Sift (cmp : α → α → Int) (f : Nat → α) (i lo n : Nat) : Prop where
  others : ∀ j c, lo ≤ j → j ≠ i → Child c j → c ≤ n → cmp (f c) (f j) ≤ 0
  grand : ∀ c, lo ≤ i / 2 → Child c i → c ≤ n → cmp (f c) (f (i / 2)) ≤ 0

/-- The place of the greater of two, if the first is there. -/
def larger (cmp : α → α → Int) (f : Nat → α) (n c k : Nat) : Nat :=
  if c ≤ n ∧ 0 < cmp (f c) (f k) then c else k

/-- The elements of the first `n` places are exchanged among these. -/
def Shuffles (n : Nat) (f g : Nat → α) : Prop :=
  ∃ σ : Equiv.Perm Nat, (∀ i, i = 0 ∨ n < i → σ i = i) ∧ g = f ∘ σ

structure Tail (cmp : α → α → Int) (f : Nat → α) (i n : Nat) : Prop where
  heap : Heaped cmp f 1 i
  upper : ∀ a b, 1 ≤ a → a ≤ i → i < b → b ≤ n → cmp (f a) (f b) ≤ 0
  sorted : ∀ a b, i < a → a < b → b ≤ n → cmp (f a) (f b) ≤ 0

section
variable {f g k : Nat → α} {n i j : Nat}

theorem Shuffles.refl (n : Nat) (f : Nat → α) : Shuffles n f f :=
  ⟨Equiv.refl Nat, fun _ _ => rfl, rfl⟩

theorem Shuffles.trans (h : Shuffles n f g) (h' : Shuffles n g k) : Shuffles n f k := by
  obtain ⟨σ, hσ, rfl⟩ := h
  obtain ⟨ρ, hρ, rfl⟩ := h'
  refine ⟨ρ.trans σ, fun i hi => ?_, rfl⟩
  rw [Equiv.trans_apply, hρ i hi, hσ i hi]

theorem shuffles_swap (f : Nat → α) (hi : 1 ≤ i ∧ i ≤ n) (hj : 1 ≤ j ∧ j ≤ n) :
    Shuffles n f (f ∘ Equiv.swap i j) :=
  ⟨Equiv.swap i j, fun a ha => Equiv.swap_apply_of_ne_of_ne (by omega) (by omega), rfl⟩

theorem Shuffles.mono {n' : Nat} (h : Shuffles n f g) (hn : n ≤ n') : Shuffles n' f g := by
  obtain ⟨σ, hσ, rfl⟩ := h
  exact ⟨σ, fun i hi => hσ i (by omega), rfl⟩

theorem Shuffles.off (h : Shuffles n f g) (hi : n < i) : g i = f i := by
  obtain ⟨σ, hσ, rfl⟩ := h
  exact congrArg f (hσ i (.inr hi))

theorem Shuffles.mem (h : Shuffles n f g) (hi : 1 ≤ i ∧ i ≤ n) :
    ∃ j, (1 ≤ j ∧ j ≤ n) ∧ g i = f j := by
  obtain ⟨σ, hσ, rfl⟩ := h
  refine ⟨σ i, ?_, rfl⟩
  by_contra hout
  have hfix : σ (σ i) = σ i := hσ (σ i) (by omega)
  have hself : σ i = i := σ.injective hfix
  omega

theorem Shuffles.perm (h : Shuffles n f g) :
    ((List.range n).map fun a => g (a + 1)).Perm ((List.range n).map fun a => f (a + 1)) := by
  obtain ⟨σ, hσ, rfl⟩ := id h
  have hplaces : ((List.range n).map fun a => σ (a + 1)).Perm ((List.range n).map (· + 1)) := by
    refine (List.perm_ext_iff_of_nodup ?_ ?_).mpr fun b => ?_
    · exact List.nodup_range.map fun a b hab => Nat.succ.inj (σ.injective hab)
    · exact List.nodup_range.map fun a b hab => Nat.succ.inj hab
    · simp only [List.mem_map, List.mem_range]
      constructor
      · rintro ⟨a, ha, rfl⟩
        obtain ⟨j, hj, heq⟩ := Shuffles.mem (f := id) ⟨σ, hσ, rfl⟩ (i := a + 1) (by omega)
        exact ⟨j - 1, by omega, by simp only [Function.comp, id] at heq; omega⟩
      · rintro ⟨a, ha, rfl⟩
        have hinv : Shuffles n id σ.symm := by
          refine ⟨σ.symm, fun i hi => ?_, rfl⟩
          rw [Equiv.symm_apply_eq, hσ i hi]
        obtain ⟨j, hj, heq⟩ := hinv.mem (i := a + 1) (by omega)
        refine ⟨j - 1, by omega, ?_⟩
        rw [Nat.sub_add_cancel hj.1, ← show σ.symm (a + 1) = j from heq, Equiv.apply_symm_apply]
  have hmap := hplaces.map f
  rw [List.map_map, List.map_map] at hmap
  exact hmap

end

section
variable {cmp : α → α → Int} (hcmp : StrcmpOrder cmp) {f g : Nat → α} {i lo n : Nat}
include hcmp

theorem StrcmpOrder.refl (a : α) : cmp a a ≤ 0 := by
  have := hcmp.flip a a
  omega

theorem StrcmpOrder.le_of_pos {a b : α} (h : 0 < cmp a b) : cmp b a ≤ 0 := by
  have := (hcmp.flip a b).mp h
  omega

/-- The place that has been found is at least as great as the two that were compared. -/
theorem larger_spec (c k : Nat) : cmp (f k) (f (larger cmp f n c k)) ≤ 0 ∧
    (c ≤ n → cmp (f c) (f (larger cmp f n c k)) ≤ 0) := by
  rw [larger]
  by_cases h : c ≤ n ∧ 0 < cmp (f c) (f k)
  · rw [if_pos h]
    exact ⟨hcmp.le_of_pos h.2, fun _ => hcmp.refl _⟩
  · rw [if_neg h]
    exact ⟨hcmp.refl _, fun hc => by omega⟩

theorem larger_children (hi : i ≤ n) : ∃ m, m = larger cmp f n (2 * i + 1) (larger cmp f n (2 * i) i) ∧
    (m = i ∨ Child m i) ∧ m ≤ n ∧ cmp (f i) (f m) ≤ 0 ∧
    ∀ c, Child c i → c ≤ n → cmp (f c) (f m) ≤ 0 := by
  obtain ⟨h₁, h₂⟩ := larger_spec hcmp (f := f) (n := n) (2 * i) i
  obtain ⟨h₃, h₄⟩ := larger_spec hcmp (f := f) (n := n) (2 * i + 1) (larger cmp f n (2 * i) i)
  refine ⟨_, rfl, ?_, ?_, hcmp.trans h₁ h₃, ?_⟩
  · grind [larger, Child]
  · grind [larger]
  · intro c hc hcn
    rcases hc with rfl | rfl
    · exact hcmp.trans (h₂ hcn) h₃
    · exact h₄ hcn

omit hcmp in
theorem Sift.done (h : Sift cmp f i lo n) (hmax : ∀ c, Child c i → c ≤ n → cmp (f c) (f i) ≤ 0) :
    Heaped cmp f lo n := by
  intro j c hj hc hcn
  by_cases hji : j = i
  · subst hji
    exact hmax c hc hcn
  · exact h.others j c hj hji hc hcn

omit hcmp in
/-- The greatest child is exchanged for the place, which is then where the child was. -/
theorem Sift.step (h : Sift cmp f i lo n) (hi : 1 ≤ i) {m : Nat} (hm : Child m i) (hmn : m ≤ n)
    (hlo : lo ≤ i) (hle : cmp (f i) (f m) ≤ 0)
    (hmax : ∀ c, Child c i → c ≤ n → cmp (f c) (f m) ≤ 0) :
    Sift cmp (f ∘ Equiv.swap i m) m lo n := by
  have hhalf : m / 2 = i := by unfold Child at hm; omega
  have hlt : i < m := by unfold Child at hm; omega
  have hself : Equiv.swap i m i = m := Equiv.swap_apply_left i m
  have hother : ∀ {a}, a ≠ i → a ≠ m → Equiv.swap i m a = a := Equiv.swap_apply_of_ne_of_ne
  constructor
  · intro j c hj hjm hc hcn
    simp only [Function.comp]
    by_cases hji : j = i
    · subst hji
      rw [hself]
      by_cases hcm : c = m
      · rwa [hcm, Equiv.swap_apply_right]
      · rw [hother (by unfold Child at hc; omega) hcm]
        exact hmax c hc hcn
    · have hcm : c ≠ m := by unfold Child at hc hm; omega
      rw [hother hji hjm]
      by_cases hci : c = i
      · -- `j` is the parent of the place that has got the child
        subst hci
        have hjc : j = c / 2 := by unfold Child at hc; omega
        rw [hself, hjc]
        exact h.grand m (hjc ▸ hj) hm hmn
      · rw [hother hci hcm]
        exact h.others j c hj hji hc hcn
  · intro c _ hc hcn
    have hcm : c ≠ i ∧ c ≠ m := by unfold Child at hc; omega
    simp only [Function.comp, hhalf]
    rw [hself, hother hcm.1 hcm.2]
    exact h.others m c (by omega) (by omega) hc hcn

theorem Heaped.le_root (h : Heaped cmp f 1 n) : ∀ a, 1 ≤ a → a ≤ n → cmp (f a) (f 1) ≤ 0 := by
  intro a
  induction a using Nat.strong_induction_on with
  | _ a ih =>
    intro ha han
    by_cases h1 : a = 1
    · subst h1
      exact hcmp.refl _
    · have hparent := h (a / 2) a (by omega) (by unfold Child; omega) han
      exact hcmp.trans hparent (ih (a / 2) (by omega) (by omega) (by omega))

omit hcmp in
theorem Tail.sift (h : Tail cmp f (i + 1) n) : Sift cmp (f ∘ Equiv.swap 1 (i + 1)) 1 1 i := by
  constructor
  · intro j c hj hj1 hc hci
    have hjc : j < c := by unfold Child at hc; omega
    simp only [Function.comp]
    rw [Equiv.swap_apply_of_ne_of_ne hj1 (by omega),
      Equiv.swap_apply_of_ne_of_ne (by omega) (by omega)]
    exact h.heap j c hj hc (by omega)
  · intro c hlo
    exact absurd hlo (by decide)

theorem Tail.turn (h : Tail cmp f (i + 1) n) (hi : 1 ≤ i)
    (hg : Shuffles i (f ∘ Equiv.swap 1 (i + 1)) g) (hheap : Heaped cmp g 1 i) : Tail cmp g i n := by
  have hlast : g (i + 1) = f 1 := by
    rw [hg.off (Nat.lt_succ_self i)]
    exact congrArg f (Equiv.swap_apply_right ..)
  have hold : ∀ {b}, i + 1 < b → g b = f b := by
    intro b hb
    rw [hg.off (by omega)]
    exact congrArg f (Equiv.swap_apply_of_ne_of_ne (by omega) (by omega))
  -- what is left in the heap was in it
  have hfrom : ∀ {a}, 1 ≤ a → a ≤ i → ∃ j, (1 ≤ j ∧ j ≤ i + 1) ∧ g a = f j := by
    intro a ha hai
    obtain ⟨j, hj, heq⟩ := hg.mem ⟨ha, hai⟩
    refine ⟨_, ?_, heq⟩
    by_cases hj1 : j = 1
    · subst hj1
      rw [Equiv.swap_apply_left]
      omega
    · rw [Equiv.swap_apply_of_ne_of_ne hj1 (by omega)]
      omega
  refine ⟨hheap, fun a b ha hai hib hbn => ?_, fun a b hia hab hbn => ?_⟩
  · obtain ⟨j, hj, heq⟩ := hfrom ha hai
    rw [heq]
    by_cases hb : b = i + 1
    · rw [hb, hlast]
      exact h.heap.le_root hcmp j hj.1 hj.2
    · rw [hold (by omega)]
      exact h.upper j b hj.1 hj.2 (by omega) hbn
  · rw [hold (b := b) (by omega)]
    by_cases ha : a = i + 1
    · rw [ha, hlast]
      exact h.upper 1 b (Nat.le_refl 1) (by omega) (by omega) hbn
    · rw [hold (by omega)]
      exact h.sorted a b (by omega) hab hbn

omit hcmp in
theorem Tail.all (h : Tail cmp f i n) (hi : i ≤ 1) {a b : Nat} (ha : 1 ≤ a) (hab : a < b)
    (hbn : b ≤ n) : cmp (f a) (f b) ≤ 0 := by
  by_cases hai : a ≤ i
  · exact h.upper a b ha hai (by omega) hbn
  · exact h.sorted a b (by omega) hab hbn

end

end Lib
