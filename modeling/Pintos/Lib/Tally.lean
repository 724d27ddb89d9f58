import Mathlib.Data.Nat.Count
import Mathlib.Data.Set.Card

/- How many of the first numbers have a property, and how that changes when it changes
   at one of them. -/
namespace Lib

def tally (p : Nat → Bool) (n : Nat) : Nat := Nat.count (fun i => p i = true) n

variable {p q : Nat → Bool} {n f : Nat}

theorem tally_succ : tally p (n + 1) = tally p n + (p n).toNat := by
  rw [tally, tally, Nat.count_succ]
  cases p n <;> rfl

theorem tally_congr (h : ∀ i < n, p i = q i) : tally p n = tally q n := by
  induction n with
  | zero => rfl
  | succ n ih =>
    rw [tally_succ, tally_succ, ih fun i hi => h i (Nat.lt_succ_of_lt hi), h n (Nat.lt_succ_self n)]

theorem tally_change (hf : f < n) (h : ∀ i, i ≠ f → p i = q i) :
    tally q n + (p f).toNat = tally p n + (q f).toNat := by
  induction n with
  | zero => exact absurd hf (Nat.not_lt_zero f)
  | succ n ih => grind [tally_succ, tally_congr]

theorem tally_update {α : Type*} (P : α → Bool) (g : Nat → α) (hf : f < n) (a : α) :
    tally (fun i => P (Function.update g f a i)) n + (P (g f)).toNat =
      tally (fun i => P (g i)) n + (P a).toNat := by
  have hchange := tally_change (p := fun i => P (g i)) (q := fun i => P (Function.update g f a i)) hf
    fun i hi => by simp only [Function.update_of_ne hi]
  rwa [Function.update_self] at hchange

theorem tally_push {α : Type*} (P : α → Bool) (g : Nat → α) (a : α) :
    tally (fun i => P (Function.update g n a i)) (n + 1) = tally (fun i => P (g i)) n + (P a).toNat := by
  rw [tally_succ, Function.update_self, tally_congr (q := fun i => P (g i)) fun i hi => by
    simp only [Function.update_of_ne (Nat.ne_of_lt hi)]]

theorem tally_pos (hf : f < n) (hp : p f = true) : 0 < tally p n :=
  Nat.pos_of_ne_zero (Nat.count_ne_iff_exists.mpr ⟨f, hf, hp⟩)

theorem tally_le (h : ∀ i, p i = true → q i = true) : tally p n ≤ tally q n :=
  Nat.count_mono_left fun i _ => h i

theorem tally_eq_ncard (h : ∀ i, p i = true → i < n) : tally p n = {i | p i = true}.ncard := by
  rw [tally, Nat.count_eq_card_filter_range, ← Set.ncard_coe_finset]
  congr 1
  ext i
  rw [Finset.mem_coe, Finset.mem_filter, Finset.mem_range]
  exact ⟨fun hi => hi.2, fun hi => ⟨h i hi, hi⟩⟩

theorem tally_eq_zero : tally p n = 0 ↔ ∀ i < n, p i = false := by
  rw [tally, Nat.count_iff_forall_not]
  simp only [Bool.not_eq_true]

end Lib
