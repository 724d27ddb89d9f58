import Mathlib.Algebra.Group.Int.Defs
import Pintos.Lib.Division

/- 64-bit division for a 32-bit machine, `lib/arithmetic.c`.

   `uint64_t` and `int64_t` are both 64 bits; an operation that depends on the sign says so.
   Arithmetic wraps, in signed types too. A function has no result where `divl` traps.

   Correspondence (C ↔ Lean):
     `divl`, `nlz`                     ↔ `divl`, `nlz`
     `udiv64`, `umod64`                ↔ `udiv64`, `umod64`
     `sdiv64`, `smod64`                ↔ `sdiv64`, `smod64`
     `__udivdi3`, `__umoddi3`          ↔ `udivdi3`, `umoddi3`
     `__divdi3`, `__moddi3`            ↔ `divdi3`, `moddi3` -/
namespace Pintos.Kernel

open Lib

/-- The instruction `DIVL`, which traps if the quotient has more than 32 bits or there is
    none. -/
def divl (n : BitVec 64) (d : BitVec 32) : Option (BitVec 32) :=
  if d = 0 ∨ 2 ^ 32 ≤ n.toNat / d.toNat then none else some (.ofNat 32 (n.toNat / d.toNat))

/-- A step of `nlz`: the bits counted so far, and what is left of the number. -/
def nlzStep (bound : BitVec 32) (k : Nat) (x : Nat × BitVec 32) : Nat × BitVec 32 :=
  if x.2 ≤ bound then (x.1 + k, x.2 <<< k) else x

def nlz (x : BitVec 32) : Nat :=
  let x := nlzStep 0x0000ffff 16 (0, x)
  let x := nlzStep 0x00ffffff 8 x
  let x := nlzStep 0x0fffffff 4 x
  let x := nlzStep 0x3fffffff 2 x
  if x.2 ≤ 0x7fffffff then x.1 + 1 else x.1

def udiv64 (n d : BitVec 64) : Option (BitVec 64) :=
  if d >>> 32 = 0 then do
    let b : BitVec 64 := 1 <<< 32
    let n1 := (n >>> 32).setWidth 32
    let n0 := n.setWidth 32
    let d0 := d.setWidth 32
    return (← divl (b * (n1 % d0).setWidth 64 + n0.setWidth 64) d0).setWidth 64 +
      b * (n1 / d0).setWidth 64
  else if n < d then some 0
  else do
    let d1 := (d >>> 32).setWidth 32
    let s := nlz d1
    let q := ((← divl (n >>> 1) (((d <<< s) >>> 32).setWidth 32)) >>> (31 - s)).setWidth 64
    return if n - (q - 1) * d < d then q - 1 else q

def umod64 (n d : BitVec 64) : Option (BitVec 32) := do
  return (n - d * (← udiv64 n d)).setWidth 32

def sdiv64 (n d : BitVec 64) : Option (BitVec 64) := do
  let nAbs := if 0 ≤ n.toInt then n else -n
  let dAbs := if 0 ≤ d.toInt then d else -d
  let qAbs ← udiv64 nAbs dAbs
  return if (n.toInt < 0) = (d.toInt < 0) then qAbs else -qAbs

def smod64 (n d : BitVec 64) : Option (BitVec 32) := do
  return (n - d * (← sdiv64 n d)).setWidth 32

def divdi3 (n d : BitVec 64) : Option (BitVec 64) := sdiv64 n d

/-- The sign is extended. -/
def moddi3 (n d : BitVec 64) : Option (BitVec 64) := do return (← smod64 n d).signExtend 64

def udivdi3 (n d : BitVec 64) : Option (BitVec 64) := udiv64 n d

def umoddi3 (n d : BitVec 64) : Option (BitVec 64) := do return (← umod64 n d).setWidth 64

/-! Leading zeros. -/

/-- What a step keeps: nothing has been shifted out, and the number has no more than `k`
    leading zeros. -/
structure Normal (x₀ : Nat) (k : Nat) (x : Nat × BitVec 32) : Prop where
  shifted : x.2.toNat = x₀ * 2 ^ x.1
  large : 2 ^ (32 - k) ≤ x.2.toNat

theorem Normal.step {x₀ k : Nat} {x : Nat × BitVec 32} (bound : BitVec 32) (hk : 2 * k ≤ 32)
    (h : Normal x₀ (2 * k) x) (hb : bound.toNat + 1 = 2 ^ (32 - k)) :
    Normal x₀ k (nlzStep bound k x) := by
  rw [nlzStep]
  by_cases hle : x.2 ≤ bound
  · rw [if_pos hle]
    have hle : x.2.toNat < 2 ^ (32 - k) := Nat.lt_of_le_of_lt (BitVec.le_def.mp hle) (by omega)
    have hfit : x.2.toNat * 2 ^ k < 2 ^ 32 := by
      calc x.2.toNat * 2 ^ k < 2 ^ (32 - k) * 2 ^ k :=
            Nat.mul_lt_mul_of_pos_right hle (Nat.two_pow_pos k)
        _ = 2 ^ 32 := by rw [← Nat.pow_add, Nat.sub_add_cancel (by omega)]
    have hval : (x.2 <<< k).toNat = x.2.toNat * 2 ^ k := by
      rw [BitVec.toNat_shiftLeft, Nat.shiftLeft_eq, Nat.mod_eq_of_lt hfit]
    refine ⟨?_, ?_⟩
    · rw [hval, h.shifted, Nat.mul_assoc, ← Nat.pow_add]
    · calc 2 ^ (32 - k) = 2 ^ (32 - 2 * k) * 2 ^ k := by rw [← Nat.pow_add]; congr 1; omega
        _ ≤ x.2.toNat * 2 ^ k := Nat.mul_le_mul_right _ h.large
        _ = (x.2 <<< k).toNat := hval.symm
  · rw [if_neg hle]
    have hlt : bound.toNat < x.2.toNat := Nat.lt_of_not_le fun hc => hle (BitVec.le_def.mpr hc)
    exact ⟨h.shifted, by omega⟩

theorem nlz_spec {x : BitVec 32} (hx : x ≠ 0) :
    2 ^ 31 ≤ x.toNat * 2 ^ nlz x ∧ x.toNat * 2 ^ nlz x < 2 ^ 32 := by
  have h₀ : Normal x.toNat 32 (0, x) :=
    ⟨by simp, Nat.one_le_iff_ne_zero.mpr fun h => hx (BitVec.eq_of_toNat_eq h)⟩
  have h₁ := h₀.step (k := 16) 0x0000ffff (by decide) rfl
  have h₂ := h₁.step (k := 8) 0x00ffffff (by decide) rfl
  have h₃ := h₂.step (k := 4) 0x0fffffff (by decide) rfl
  have h₄ := h₃.step (k := 2) 0x3fffffff (by decide) rfl
  rw [nlz]
  generalize nlzStep 0x3fffffff 2 _ = y at h₄
  obtain ⟨hval, hlarge⟩ := h₄
  have hlt := y.2.isLt
  by_cases hle : y.2 ≤ 0x7fffffff
  · have hle : y.2.toNat ≤ 0x7fffffff := BitVec.le_def.mp hle
    rw [if_pos ‹_›, Nat.pow_succ 2 y.1, ← Nat.mul_assoc, ← hval]
    omega
  · have hgt : 0x7fffffff < y.2.toNat := Nat.lt_of_not_le fun hc => hle (BitVec.le_def.mpr hc)
    rw [if_neg hle, ← hval]
    omega

/-! Unsigned division. -/

theorem divl_eq {n : BitVec 64} {d : BitVec 32} (hd : d.toNat ≠ 0)
    (hq : n.toNat / d.toNat < 2 ^ 32) :
    divl n d = some (.ofNat 32 (n.toNat / d.toNat)) := by
  rw [divl, if_neg]
  intro h
  cases h with
  | inl h => exact hd (by rw [h]; rfl)
  | inr h => exact absurd hq (Nat.not_lt.mpr h)

theorem ushiftRight_toNat (n : BitVec 64) (k : Nat) : (n >>> k).toNat = n.toNat / 2 ^ k := by
  rw [BitVec.toNat_ushiftRight, Nat.shiftRight_eq_div_pow]

theorem udiv64_narrow {n d : BitVec 64} (hd : d.toNat ≠ 0) (hlt : d.toNat < 2 ^ 32) :
    udiv64 n d = some (n / d) := by
  have hshift : d >>> 32 = 0 := by
    apply BitVec.eq_of_toNat_eq
    rw [ushiftRight_toNat, Nat.div_eq_of_lt hlt]
    rfl
  have hn := n.isLt
  generalize hD : d.toNat = D at hd hlt
  generalize hN : n.toNat = N at hn
  have hpos := Nat.pos_of_ne_zero hd
  have hd0 : (d.setWidth 32).toNat = D := by
    rw [BitVec.toNat_setWidth, hD, Nat.mod_eq_of_lt hlt]
  have hn0 : (n.setWidth 32).toNat = N % 2 ^ 32 := by rw [BitVec.toNat_setWidth, hN]
  have hn1 : ((n >>> 32).setWidth 32).toNat = N / 2 ^ 32 := by
    rw [BitVec.toNat_setWidth, ushiftRight_toNat, hN]
    omega
  have hb : (1 <<< 32 : BitVec 64).toNat = 2 ^ 32 := rfl
  have hmod : N / 2 ^ 32 % D < D := Nat.mod_lt _ hpos
  -- the numerator of the low half
  have harg : (1 <<< 32 * (((n >>> 32).setWidth 32 % d.setWidth 32).setWidth 64) +
      (n.setWidth 32).setWidth 64 : BitVec 64).toNat = 2 ^ 32 * (N / 2 ^ 32 % D) + N % 2 ^ 32 := by
    grind [BitVec.toNat_mul, BitVec.toNat_setWidth, BitVec.toNat_umod]
  have hlow := low_digit_lt (N / 2 ^ 32) hpos (Nat.mod_lt N (Nat.two_pow_pos 32))
  have hsum := div_digits (b := 2 ^ 32) (N / 2 ^ 32) (N % 2 ^ 32) hpos
  rw [Nat.div_add_mod] at hsum
  have hfits : N / D < 2 ^ 64 := Nat.lt_of_le_of_lt (Nat.div_le_self ..) hn
  rw [udiv64, if_pos hshift]
  simp only [divl_eq (hd0.symm ▸ hd) (by rw [harg, hd0]; exact hlow), Option.bind_eq_bind,
    Option.bind_some, Option.pure_def, Option.some.injEq]
  apply BitVec.eq_of_toNat_eq
  rw [BitVec.toNat_udiv, hN, hD]
  simp only [harg, hd0, hb, BitVec.toNat_add, BitVec.toNat_mul, BitVec.toNat_setWidth,
    BitVec.toNat_udiv, hn1, BitVec.toNat_ofNat]
  generalize (2 ^ 32 * (N / 2 ^ 32 % D) + N % 2 ^ 32) / D = q at hlow hsum
  generalize N / 2 ^ 32 / D = t at hsum
  omega

/-- What `nlz` does to the divisor: its upper half is shifted up until it has 32 bits. -/
theorem divisor_digit {d : BitVec 64} (hd : 2 ^ 32 ≤ d.toNat) {s : Nat}
    (hs : nlz ((d >>> 32).setWidth 32) = s) :
    s ≤ 31 ∧ (((d <<< s) >>> 32).setWidth 32).toNat = d.toNat / 2 ^ (32 - s) ∧
      2 ^ 31 ≤ d.toNat / 2 ^ (32 - s) := by
  have hlt := d.isLt
  generalize hD : d.toNat = D at hd hlt
  have hd1 : ((d >>> 32).setWidth 32).toNat = D / 2 ^ 32 := by
    rw [BitVec.toNat_setWidth, ushiftRight_toNat, hD]
    omega
  have hne : (d >>> 32).setWidth 32 ≠ 0 := by grind
  obtain ⟨hlarge, hfit⟩ := nlz_spec hne
  rw [hs, hd1] at hlarge hfit
  have hs31 : s ≤ 31 := by
    by_contra hgt
    have := Nat.pow_le_pow_right (show 0 < 2 by decide) (show 32 ≤ s by omega)
    have := Nat.mul_le_mul (show 1 ≤ D / 2 ^ 32 by omega) this
    omega
  have hpow : 2 ^ 32 = 2 ^ (32 - s) * 2 ^ s := by rw [← Nat.pow_add, Nat.sub_add_cancel (by omega)]
  have hpos := Nat.two_pow_pos s
  have hshift : D * 2 ^ s / 2 ^ 32 = D / 2 ^ (32 - s) := by
    rw [hpow, Nat.mul_div_mul_right _ _ hpos]
  have hle : D / 2 ^ 32 * 2 ^ s ≤ D / 2 ^ (32 - s) := by
    apply (Nat.le_div_iff_mul_le (Nat.two_pow_pos _)).mpr
    rw [Nat.mul_assoc, Nat.mul_comm (2 ^ s), ← hpow]
    exact Nat.div_mul_le_self D _
  have hover : D * 2 ^ s < 2 ^ 64 := by
    have hdigit : D / 2 ^ 32 < 2 ^ (32 - s) := by
      apply Nat.lt_of_mul_lt_mul_right (a := 2 ^ s)
      rwa [← hpow]
    have hD : D < 2 ^ (32 - s) * 2 ^ 32 := by omega
    calc D * 2 ^ s < 2 ^ (32 - s) * 2 ^ 32 * 2 ^ s := Nat.mul_lt_mul_of_pos_right hD hpos
      _ = 2 ^ 32 * (2 ^ (32 - s) * 2 ^ s) := by rw [Nat.mul_right_comm, Nat.mul_comm]
      _ = 2 ^ 32 * 2 ^ 32 := by rw [← hpow]
  refine ⟨hs31, ?_, hlarge.trans hle⟩
  rw [BitVec.toNat_setWidth, ushiftRight_toNat, BitVec.toNat_shiftLeft, Nat.shiftLeft_eq, hD,
    Nat.mod_eq_of_lt hover, hshift, Nat.mod_eq_of_lt]
  rw [← hshift]
  exact Nat.div_lt_of_lt_mul hover

/-- The estimate: half the numerator is divided by the first digit of the divisor. -/
theorem quotient_estimate {n d s : Nat} (hn : n < 2 ^ 64) (hs : s ≤ 31)
    (hd : 2 ^ 31 ≤ d / 2 ^ (32 - s)) :
    n / 2 / (d / 2 ^ (32 - s)) < 2 ^ 32 ∧
      n / d ≤ n / 2 / (d / 2 ^ (32 - s)) / 2 ^ (31 - s) ∧
      n / 2 / (d / 2 ^ (32 - s)) / 2 ^ (31 - s) ≤ n / d + 1 := by
  have hcut : n / 2 / (d / 2 ^ (32 - s)) / 2 ^ (31 - s) =
      n / (d / 2 ^ (32 - s) * 2 ^ (32 - s)) := by
    rw [Nat.div_div_eq_div_mul, Nat.div_div_eq_div_mul, show 32 - s = 31 - s + 1 by omega,
      Nat.pow_succ]
    congr 1
    rw [Nat.mul_comm 2, Nat.mul_assoc]
  have hpos := Nat.two_pow_pos (32 - s)
  have hdpos : 0 < d := by grind [Nat.zero_div]
  have hw : 2 ^ 31 * 2 ^ (32 - s) ≤ d / 2 ^ (32 - s) * 2 ^ (32 - s) := Nat.mul_le_mul_right _ hd
  refine ⟨?_, ?_, ?_⟩
  · apply Nat.div_lt_of_lt_mul
    have := Nat.mul_le_mul_right (2 ^ 32) hd
    omega
  · rw [hcut]
    exact div_le_div_cut (by omega)
  · rw [hcut]
    apply div_cut_le_succ hpos hdpos
    have hq : n / (d / 2 ^ (32 - s) * 2 ^ (32 - s)) < 2 ^ (s + 1) := by
      apply Nat.div_lt_of_lt_mul
      calc n < 2 ^ 64 := hn
        _ = 2 ^ 31 * 2 ^ (32 - s) * 2 ^ (s + 1) := by
          rw [← Nat.pow_add, ← Nat.pow_add]
          congr 1
          omega
        _ ≤ _ := Nat.mul_le_mul_right _ hw
    apply le_trans _ hw
    generalize n / (d / 2 ^ (32 - s) * 2 ^ (32 - s)) = q at hq
    -- with the largest shift the quotient may have 32 bits, but only one bit has been cut
    obtain rfl | hs30 : s = 31 ∨ s ≤ 30 := by omega
    · omega
    · have := Nat.pow_le_pow_right (show 0 < 2 by decide) (show s + 1 ≤ 31 by omega)
      exact Nat.mul_le_mul (by omega) (Nat.sub_le _ _)

theorem udiv64_wide {n d : BitVec 64} (hd : 2 ^ 32 ≤ d.toNat) : udiv64 n d = some (n / d) := by
  have hshift : d >>> 32 ≠ 0 := by grind [ushiftRight_toNat]
  rw [udiv64, if_neg hshift]
  by_cases hlt : n < d
  · rw [if_pos hlt]
    congr 1
    apply BitVec.eq_of_toNat_eq
    rw [BitVec.toNat_udiv, Nat.div_eq_of_lt (BitVec.lt_def.mp hlt)]
    rfl
  · rw [if_neg hlt]
    have hle : d.toNat ≤ n.toNat := Nat.le_of_not_lt fun h => hlt (BitVec.lt_def.mpr h)
    dsimp only
    generalize hs : nlz ((d >>> 32).setWidth 32) = s
    obtain ⟨hs31, hdigit, hlarge⟩ := divisor_digit hd hs
    obtain ⟨hnarrow, hlow, hhigh⟩ := quotient_estimate n.isLt hs31 hlarge
    have hhalf : (n >>> 1).toNat = n.toNat / 2 := ushiftRight_toNat n 1
    rw [divl_eq (by rw [hdigit]; omega) (by rw [hhalf, hdigit]; exact hnarrow)]
    simp only [Option.bind_eq_bind, Option.bind_some, Option.pure_def, Option.some.injEq]
    have hq : ((BitVec.ofNat 32 ((n >>> 1).toNat / (((d <<< s) >>> 32).setWidth 32).toNat) >>>
        (31 - s)).setWidth 64).toNat = n.toNat / 2 / (d.toNat / 2 ^ (32 - s)) / 2 ^ (31 - s) := by
      rw [BitVec.toNat_setWidth, BitVec.toNat_ushiftRight, Nat.shiftRight_eq_div_pow,
        BitVec.toNat_ofNat, hhalf, hdigit, Nat.mod_eq_of_lt hnarrow, Nat.mod_eq_of_lt]
      exact Nat.lt_of_le_of_lt (Nat.div_le_self ..) (hnarrow.trans (by decide))
    generalize (BitVec.ofNat 32 _ >>> (31 - s)).setWidth 64 = q at hq ⊢
    rw [← hq] at hlow hhigh
    obtain ⟨hpos, hfits, hcorrect⟩ := correct_div (by omega) hle hlow hhigh
    have hpred : (q - 1).toNat = q.toNat - 1 := BitVec.toNat_sub_of_le (BitVec.le_def.mpr hpos)
    have hmul : ((q - 1) * d).toNat = (q.toNat - 1) * d.toNat := by
      rw [BitVec.toNat_mul, hpred, Nat.mod_eq_of_lt (Nat.lt_of_le_of_lt hfits n.isLt)]
    have hrest : (n - (q - 1) * d).toNat = n.toNat - (q.toNat - 1) * d.toNat := by
      rw [BitVec.toNat_sub_of_le (BitVec.le_def.mpr (hmul ▸ hfits)), hmul]
    apply BitVec.eq_of_toNat_eq
    rw [BitVec.toNat_udiv, ← hcorrect, apply_ite BitVec.toNat, hpred]
    simp only [BitVec.lt_def, hrest]

theorem udiv64_eq (n : BitVec 64) {d : BitVec 64} (hd : d ≠ 0) : udiv64 n d = some (n / d) := by
  have hpos : d.toNat ≠ 0 := fun h => hd (BitVec.eq_of_toNat_eq h)
  by_cases hlt : d.toNat < 2 ^ 32
  · exact udiv64_narrow hpos hlt
  · exact udiv64_wide (Nat.le_of_not_lt hlt)

/-! Signed division. -/

theorem sdiv64_eq (n : BitVec 64) {d : BitVec 64} (hd : d ≠ 0) :
    sdiv64 n d = some (n.sdiv d) := by
  have hneg : -d ≠ 0 := fun h => hd (BitVec.neg_eq_zero_iff.mp h)
  have hmsb (x : BitVec 64) : x.msb = true ↔ x.toInt < 0 := by
    rw [BitVec.msb_eq_toInt, decide_eq_true_iff]
  have hle (x : BitVec 64) : 0 ≤ x.toInt ↔ ¬x.msb = true := by rw [hmsb, Int.not_lt]
  rw [sdiv64, BitVec.sdiv_eq]
  simp only [hle, ← hmsb]
  cases n.msb with
  | false => grind [udiv64_eq]
  | true => grind [udiv64_eq]

/-- **Division is exact and does not trap.** -/
theorem div64_exact (n : BitVec 64) {d : BitVec 64} (hd : d ≠ 0) :
    (∃ q, udiv64 n d = some q ∧ q.toNat = n.toNat / d.toNat) ∧
      sdiv64 n d = some (.ofInt 64 (n.toInt.tdiv d.toInt)) := by
  refine ⟨⟨_, udiv64_eq n hd, BitVec.toNat_udiv⟩, ?_⟩
  rw [sdiv64_eq n hd]
  congr 1
  apply BitVec.eq_of_toInt_eq
  rw [BitVec.toInt_sdiv, BitVec.toInt_ofInt]

/-- The quotient that is not in the range of the type. -/
theorem div64_exact_min : (-1 : BitVec 64) ≠ 0 ∧
    sdiv64 (.intMin 64) (-1) = some (.ofInt 64 (2 ^ 63)) :=
  ⟨by decide, (div64_exact (.intMin 64) (by decide)).2⟩

/-! Remainders. -/

/-- The remainder is what the quotient leaves of the numerator. -/
def UmodAgrees (n d : BitVec 64) : Prop :=
  ∃ q r, udivdi3 n d = some q ∧ umoddi3 n d = some r ∧ r = n - d * q ∧
    n.toNat = d.toNat * q.toNat + r.toNat ∧ r.toNat < d.toNat

/-- The same, with the sign of the numerator. -/
def ModAgrees (n d : BitVec 64) : Prop :=
  ∃ q r, divdi3 n d = some q ∧ moddi3 n d = some r ∧ r = n - d * q ∧
    (0 ≤ n.toInt → 0 ≤ r.toInt) ∧ (n.toInt ≤ 0 → r.toInt ≤ 0)

theorem sub_mul_udiv (n d : BitVec 64) : (n - d * (n / d)).toNat = n.toNat % d.toNat := by
  have hdiv := Nat.div_add_mod n.toNat d.toNat
  have hn := n.isLt
  have hmul : (d * (n / d)).toNat = d.toNat * (n.toNat / d.toNat) := by
    rw [BitVec.toNat_mul, BitVec.toNat_udiv, Nat.mod_eq_of_lt (by omega)]
  rw [BitVec.toNat_sub_of_le (BitVec.le_def.mpr (by omega)), hmul]
  omega

theorem sub_mul_sdiv (n d : BitVec 64) : (n - d * n.sdiv d).toInt = n.toInt.tmod d.toInt := by
  rw [BitVec.toInt_sub, BitVec.toInt_mul, BitVec.toInt_sdiv, Int.mul_bmod_bmod,
    Int.sub_bmod_bmod, ← Int.tmod_def, ← BitVec.toInt_srem, BitVec.toInt_bmod_cancel]

theorem setWidth_setWidth_eq_iff (r : BitVec 64) :
    (r.setWidth 32).setWidth 64 = r ↔ r.toNat < 2 ^ 32 := by
  have hr := r.isLt
  rw [← BitVec.toNat_inj, BitVec.toNat_setWidth, BitVec.toNat_setWidth]
  omega

theorem signExtend_setWidth_eq_iff (r : BitVec 64) :
    (r.setWidth 32).signExtend 64 = r ↔ -2 ^ 31 ≤ r.toInt ∧ r.toInt < 2 ^ 31 := by
  have hlow : (r.toNat : Int).bmod (2 ^ 32) = r.toInt.bmod (2 ^ 32) := by
    rw [BitVec.toInt_eq_toNat_bmod, Int.bmod_bmod_of_dvd (by decide)]
  rw [← BitVec.toInt_inj, BitVec.toInt_signExtend, BitVec.toInt_setWidth, hlow,
    show min 64 32 = 32 from rfl, Int.bmod_bmod, Int.bmod_def]
  split <;> omega

/-- **The remainder agrees with the quotient if it has 32 bits.** -/
theorem mod64_agrees_iff (n : BitVec 64) {d : BitVec 64} (hd : d ≠ 0) :
    (UmodAgrees n d ↔ n.toNat % d.toNat < 2 ^ 32) ∧
      (ModAgrees n d ↔
        -2 ^ 31 ≤ n.toInt.tmod d.toInt ∧ n.toInt.tmod d.toInt < 2 ^ 31) := by
  have hpos : 0 < d.toNat := Nat.pos_of_ne_zero fun h => hd (BitVec.eq_of_toNat_eq h)
  have hu : umoddi3 n d = some (((n - d * (n / d)).setWidth 32).setWidth 64) := by
    simp [umoddi3, umod64, udiv64_eq n hd]
  have hs : moddi3 n d = some (((n - d * n.sdiv d).setWidth 32).signExtend 64) := by
    simp [moddi3, smod64, sdiv64_eq n hd]
  have hrest := sub_mul_udiv n d
  have hsrest := sub_mul_sdiv n d
  rw [← hrest, ← hsrest, ← setWidth_setWidth_eq_iff, ← signExtend_setWidth_eq_iff]
  constructor
  · constructor
    · rintro ⟨q, r, hq, hr, hqr, _⟩
      cases (udiv64_eq n hd).symm.trans hq
      cases hu.symm.trans hr
      exact hqr
    · intro h
      refine ⟨_, _, udiv64_eq n hd, hu, h, ?_, ?_⟩
      · rw [h, hrest, BitVec.toNat_udiv, Nat.div_add_mod]
      · rw [h, hrest]
        exact Nat.mod_lt _ hpos
  · constructor
    · rintro ⟨q, r, hq, hr, hqr, _⟩
      cases (sdiv64_eq n hd).symm.trans hq
      cases hs.symm.trans hr
      exact hqr
    · intro h
      refine ⟨_, _, sdiv64_eq n hd, hs, h, fun hn => ?_, fun hn => ?_⟩
      · rw [h, hsrest]
        exact Int.tmod_nonneg _ hn
      · rw [h, hsrest]
        have := Int.tmod_nonneg d.toInt (Int.neg_nonneg_of_nonpos hn)
        rw [Int.neg_tmod] at this
        omega

theorem mod64_agrees_narrow : (0x100000000 : BitVec 64) ≠ 0 ∧ UmodAgrees (-1) 0x100000000 ∧
    ModAgrees (-1) 0x100000000 :=
  ⟨by decide, (mod64_agrees_iff (-1) (by decide)).1.mpr (by decide),
    (mod64_agrees_iff (-1) (by decide)).2.mpr (by decide)⟩

/-- The remainder 2³² comes out as 0, and 2³¹ with the other sign. -/
theorem mod64_cuts_remainder :
    umoddi3 0x100000000 0x200000000 = some 0 ∧ udivdi3 0x100000000 0x200000000 = some 0 ∧
      ¬UmodAgrees 0x100000000 0x200000000 ∧
      moddi3 0x80000000 0x100000000 = some 0xffffffff80000000 ∧
      divdi3 0x80000000 0x100000000 = some 0 ∧ ¬ModAgrees 0x80000000 0x100000000 := by
  have hu : umoddi3 0x100000000 0x200000000 = some 0 ∧
      udivdi3 0x100000000 0x200000000 = some 0 := by decide
  have hs : moddi3 0x80000000 0x100000000 = some 0xffffffff80000000 ∧
      divdi3 0x80000000 0x100000000 = some 0 := by decide
  refine ⟨hu.1, hu.2, ?_, hs.1, hs.2, ?_⟩
  · rintro ⟨q, r, hq, hr, h, _⟩
    cases hu.1.symm.trans hr
    cases hu.2.symm.trans hq
    exact absurd h (by decide)
  · rintro ⟨q, r, hq, hr, h, _⟩
    cases hs.1.symm.trans hr
    cases hs.2.symm.trans hq
    exact absurd h (by decide)

end Pintos.Kernel
