import Mathlib.Algebra.Group.Nat.Defs
import Mathlib.Tactic.Linarith

/- Long division from a narrower one.

   A number of two digits is divided by one digit at a time. For a longer divisor the
   quotient is estimated with the multiple of `m` below the divisor, which a narrower
   division can handle. The estimate is never too small, and too large by at most one if the
   quotient is small against the divisor; one comparison then corrects it. -/
namespace Lib

/-! A divisor of one digit. -/

section
variable {b d : Nat} (n₁ n₀ : Nat)

theorem div_digits (hd : 0 < d) :
    (b * (n₁ % d) + n₀) / d + b * (n₁ / d) = (b * n₁ + n₀) / d := by
  rw [← Nat.add_mul_div_left _ _ hd]
  congr 1
  calc b * (n₁ % d) + n₀ + d * (b * (n₁ / d))
      = b * (n₁ % d + d * (n₁ / d)) + n₀ := by
        rw [Nat.mul_left_comm d b, Nat.mul_add]
        omega
    _ = b * n₁ + n₀ := by rw [Nat.mod_add_div]

theorem low_digit_lt {n₀ : Nat} (hd : 0 < d) (h : n₀ < b) : (b * (n₁ % d) + n₀) / d < b := by
  apply Nat.div_lt_of_lt_mul
  have hle : b * (n₁ % d + 1) ≤ b * d := Nat.mul_le_mul_left b (Nat.mod_lt n₁ hd)
  rw [Nat.mul_add_one] at hle
  rw [Nat.mul_comm d]
  omega

end

/-! A longer divisor. -/

section
variable {n d m : Nat}

theorem div_le_div_cut (h : d / m * m ≠ 0) : n / d ≤ n / (d / m * m) :=
  Nat.div_le_div_left (Nat.div_mul_le_self d m) (Nat.pos_of_ne_zero h)

theorem div_cut_le_succ (hm : 0 < m) (hd : 0 < d)
    (h : (n / (d / m * m) - 1) * (m - 1) ≤ d / m * m) : n / (d / m * m) ≤ n / d + 1 := by
  generalize hq : n / (d / m * m) = q at h ⊢
  generalize hw : d / m * m = w at h hq
  have hlt : d ≤ w + (m - 1) := by
    have := Nat.div_add_mod' d m
    have := Nat.mod_lt d hm
    omega
  cases q with
  | zero => exact Nat.zero_le _
  | succ q =>
    apply Nat.succ_le_succ
    apply (Nat.le_div_iff_mul_le hd).mpr
    -- what the cut leaves out of `q` divisors fits into the one that is dropped
    calc q * d ≤ q * (w + (m - 1)) := Nat.mul_le_mul_left q hlt
      _ = q * w + q * (m - 1) := Nat.mul_add ..
      _ ≤ q * w + w := Nat.add_le_add_left h _
      _ = (q + 1) * w := (Nat.succ_mul q w).symm
      _ ≤ n := hq ▸ Nat.div_mul_le_self n w

theorem correct_div (hd : 0 < d) (hdn : d ≤ n) {q : Nat} (h₁ : n / d ≤ q) (h₂ : q ≤ n / d + 1) :
    1 ≤ q ∧ (q - 1) * d ≤ n ∧ (if n - (q - 1) * d < d then q - 1 else q) = n / d := by
  have hpos : 1 ≤ n / d := (Nat.one_le_div_iff hd).mpr hdn
  have hdiv := Nat.div_add_mod' n d
  have hmod := Nat.mod_lt n hd
  refine ⟨hpos.trans h₁, ?_, ?_⟩
  · calc (q - 1) * d ≤ n / d * d := Nat.mul_le_mul_right d (by omega)
      _ ≤ n := Nat.div_mul_le_self n d
  · grind [Nat.sub_one_mul]

end

end Lib
