import Mathlib.Data.Nat.Size
import Mathlib.Tactic.Ring

/- Calibration of the timer, `devices/timer.c`.

   The processor is so fast that `too_many_loops` answers true from `limit` loops on. Both
   loops of `timer_calibrate` are given a number of turns; no outcome is one that was cut
   off, or a failed `ASSERT`.

   Correspondence (C ↔ Lean):
     `too_many_loops`                   ↔ `tooManyLoops`
     `timer_calibrate`, the first loop  ↔ `approximate`
     `timer_calibrate`, the second      ↔ `refineBits`
     `timer_calibrate`                  ↔ `timerCalibrate` -/
namespace Pintos.Devices

def tooManyLoops (limit loops : Nat) : Bool := limit < loops

/-- `loops_per_tick << 1`, an `unsigned`. -/
def shiftLeft1 (loops : Nat) : Nat := (loops <<< 1) % 0x100000000

def approximate (limit : Nat) : Nat → Nat → Option Nat
  | 0, _ => none
  | turns + 1, loops =>
    if tooManyLoops limit (shiftLeft1 loops) then some loops
    else if shiftLeft1 loops = 0 then none
    else approximate limit turns (shiftLeft1 loops)

def refineBits (limit highBit : Nat) : Nat → Nat → Nat → Option Nat
  | 0, _, _ => none
  | turns + 1, testBit, loops =>
    if testBit = highBit >>> 10 then some loops
    -- the probe is made without the bits that have been accepted before
    else refineBits limit highBit turns (testBit >>> 1)
      (if tooManyLoops limit (highBit ||| testBit) then loops else loops ||| testBit)

def timerCalibrate (limit turns : Nat) : Option Nat := do
  let highBit ← approximate limit turns (1 <<< 10)
  refineBits limit highBit turns (highBit >>> 1) highBit

/-- The weight of the last bit that is refined. -/
def lastBit (limit : Nat) : Nat := 2 ^ Nat.log2 limit / 2 ^ 9

variable {limit : Nat}

/-! The first loop. -/

theorem shiftLeft1_two_pow {e : Nat} (he : e < 31) : shiftLeft1 (2 ^ e) = 2 ^ (e + 1) := by
  have hlt : 2 ^ (e + 1) < 0x100000000 := Nat.pow_lt_pow_right (n := 32) (by decide) (by omega)
  rw [shiftLeft1, Nat.shiftLeft_eq, ← pow_add, Nat.mod_eq_of_lt hlt]

theorem approximate_spec (hhi : limit < 2 ^ 31) : ∀ (turns e : Nat), 2 ^ e ≤ limit →
    Nat.log2 limit - e < turns → approximate limit turns (2 ^ e) = some (2 ^ Nat.log2 limit) := by
  intro turns
  induction turns with
  | zero => exact fun e _ hlt => absurd hlt (by omega)
  | succ turns ih =>
    intro e hle hlt
    have h0 : limit ≠ 0 := fun h => absurd (h ▸ hle) (by simp)
    have he : e ≤ Nat.log2 limit := (Nat.le_log2 h0).mpr hle
    have he31 : e < 31 := (Nat.pow_lt_pow_iff_right (by decide)).mp (Nat.lt_of_le_of_lt hle hhi)
    rw [approximate, shiftLeft1_two_pow he31]
    by_cases hmany : limit < 2 ^ (e + 1)
    · have hlog : Nat.log2 limit < e + 1 := (Nat.log2_lt h0).mpr hmany
      rw [if_pos (by simpa [tooManyLoops] using hmany), show Nat.log2 limit = e by omega]
    · have hnext : 2 ^ (e + 1) ≤ limit := Nat.le_of_not_lt hmany
      have hlog : e + 1 ≤ Nat.log2 limit := (Nat.le_log2 h0).mpr hnext
      rw [if_neg (by simpa [tooManyLoops] using hmany), if_neg (Nat.two_pow_pos _).ne']
      exact ih (e + 1) hnext (by omega)

/-! The second loop. The bit that it tests is `2 ^ (w + k)`, for `k` from 9 down to 1. -/

theorem two_pow_shiftRight (n m : Nat) : 2 ^ (n + m) >>> m = 2 ^ n := by
  rw [Nat.shiftRight_eq_div_pow, pow_add, Nat.mul_div_cancel _ (Nat.two_pow_pos m)]

theorem or_two_pow (n a : Nat) : 2 ^ (n + 1) * a ||| 2 ^ n = 2 ^ (n + 1) * a + 2 ^ n :=
  (Nat.two_pow_add_eq_or_of_lt (Nat.pow_lt_pow_right (by decide) n.lt_succ_self) a).symm

/-- A bit is accepted if it fits by itself, whatever has been accepted before it. So all
    bits are accepted from the first one on that is. -/
theorem refineBits_spec {w d : Nat} (hd : d = (limit - 2 ^ (w + 10)) / 2 ^ (w + 1))
    (hle : 2 ^ (w + 10) ≤ limit) : ∀ (k turns a : Nat), k < 10 → k < turns →
    refineBits limit (2 ^ (w + 10)) turns (2 ^ (w + k)) (2 ^ (w + k + 1) * a) =
      some (2 ^ (w + 1) * (2 ^ k * a + (2 ^ min k d.size - 1))) := by
  intro k
  induction k with
  | zero =>
    intro turns a _ hk
    obtain ⟨turns, rfl⟩ := Nat.exists_eq_add_of_lt hk
    rw [refineBits, two_pow_shiftRight]
    simp
  | succ k ih =>
    intro turns a hk10 hk
    obtain ⟨turns, rfl⟩ : ∃ n, turns = n + 1 := ⟨turns - 1, by omega⟩
    have hgo : 2 ^ (w + k + 1) ≠ 2 ^ w := fun heq =>
      absurd ((Nat.pow_right_inj (by decide)).mp heq) (by omega)
    have hprobe : 2 ^ (w + 10) ||| 2 ^ (w + k + 1) = 2 ^ (w + 10) + 2 ^ (w + k + 1) := by
      rw [show 2 ^ (w + 10) = 2 ^ (w + k + 1 + 1) * 2 ^ (8 - k) by rw [← pow_add]; congr 1; omega]
      exact or_two_pow _ _
    have hfits : 2 ^ (w + 10) + 2 ^ (w + k + 1) ≤ limit ↔ k < d.size := by
      rw [Nat.lt_size, hd, Nat.le_div_iff_mul_le (Nat.two_pow_pos _), ← pow_add,
        show k + (w + 1) = w + k + 1 by omega]
      omega
    rw [refineBits, two_pow_shiftRight, ← Nat.add_assoc, if_neg hgo, two_pow_shiftRight, hprobe]
    by_cases hk' : k < d.size
    · rw [if_neg (by simpa [tooManyLoops] using hfits.mpr hk'), or_two_pow,
        show 2 ^ (w + k + 1 + 1) * a + 2 ^ (w + k + 1) = 2 ^ (w + k + 1) * (2 * a + 1) by ring,
        ih turns (2 * a + 1) (by omega) (by omega), min_eq_left (by omega), min_eq_left (by omega)]
      have hpos := Nat.two_pow_pos k
      rw [show 2 ^ k * (2 * a + 1) + (2 ^ k - 1) = 2 ^ (k + 1) * a + (2 ^ (k + 1) - 1) by
        rw [pow_succ, Nat.mul_add, ← Nat.mul_assoc]; omega]
    · rw [if_pos (by simpa [tooManyLoops] using fun h => hk' (hfits.mp h)),
        show 2 ^ (w + k + 1 + 1) * a = 2 ^ (w + k + 1) * (2 * a) by ring,
        ih turns (2 * a) (by omega) (by omega), min_eq_right (by omega), min_eq_right (by omega),
        show 2 ^ k * (2 * a) = 2 ^ (k + 1) * a by ring]

/-! Both. -/

theorem lastBit_eq (hlo : 2 ^ 10 ≤ limit) : ∃ w, Nat.log2 limit = w + 10 ∧
    lastBit limit = 2 ^ (w + 1) := by
  have hlog : 10 ≤ Nat.log2 limit := (Nat.le_log2 (by omega)).mpr hlo
  refine ⟨Nat.log2 limit - 10, by omega, ?_⟩
  rw [lastBit, Nat.pow_div (by omega) (by decide)]
  congr 1
  omega

/-- The result counts all bits below the highest bit of the excess. -/
theorem timerCalibrate_eq (hlo : 2 ^ 10 ≤ limit) (hhi : limit < 2 ^ 31) {turns : Nat}
    (hturns : 32 ≤ turns) : timerCalibrate limit turns =
      some (lastBit limit * (511 + 2 ^ (limit / lastBit limit - 512).size)) := by
  obtain ⟨w, hlog, hbit⟩ := lastBit_eq hlo
  have h0 : limit ≠ 0 := by omega
  have hle : 2 ^ (w + 10) ≤ limit := hlog ▸ Nat.log2_self_le h0
  have hlt : limit < 2 ^ (w + 10 + 1) := hlog ▸ Nat.lt_log2_self
  have hw : w + 10 < 31 := (Nat.pow_lt_pow_iff_right (by decide)).mp (Nat.lt_of_le_of_lt hle hhi)
  have hd : limit / 2 ^ (w + 1) - 512 = (limit - 2 ^ (w + 10)) / 2 ^ (w + 1) := by
    rw [show 2 ^ (w + 10) = 2 ^ (w + 1) * 512 by ring, Nat.sub_mul_div]
  have hsize : (limit / 2 ^ (w + 1) - 512).size ≤ 9 := by
    rw [Nat.size_le]
    have hq : limit / 2 ^ (w + 1) < 1024 := by
      refine Nat.div_lt_of_lt_mul (hlt.trans_eq ?_)
      ring
    omega
  have happ : approximate limit turns (1 <<< 10) = some (2 ^ (w + 10)) :=
    hlog ▸ approximate_spec hhi turns 10 hlo (by omega)
  have href := refineBits_spec hd hle 9 turns 1 (by omega) (by omega)
  rw [Nat.mul_one] at href
  have hsum : 2 ^ 9 + (2 ^ (limit / 2 ^ (w + 1) - 512).size - 1) =
      511 + 2 ^ (limit / 2 ^ (w + 1) - 512).size := by
    have hpos := Nat.two_pow_pos (limit / 2 ^ (w + 1) - 512).size
    omega
  rw [timerCalibrate, happ, Option.bind_eq_bind, Option.bind_some,
    two_pow_shiftRight (w + 9) 1, href, hbit, min_eq_right hsize, Nat.mul_one, hsum]

/-- What the calibration is for: the largest multiple of the last bit that is not too many. -/
def Calibrates (limit : Nat) : Prop :=
  ∃ n, ∀ turns ≥ n, ∃ loops, timerCalibrate limit turns = some loops ∧
    lastBit limit ∣ loops ∧ tooManyLoops limit loops = false ∧
    tooManyLoops limit (loops + lastBit limit) = true

/-- **The calibration is right for a threshold of few kinds.** It is right exactly if the nine
    bits that follow the first one are zeros and then ones; the probes leave out the bits that
    were accepted before. -/
theorem timer_calibrate_iff (hlo : 2 ^ 10 ≤ limit) (hhi : limit < 2 ^ 31) :
    Calibrates limit ↔ ∃ j, limit / lastBit limit = 511 + 2 ^ j := by
  constructor
  · rintro ⟨n, hn⟩
    obtain ⟨loops, hloops, -, hle, hlt⟩ := hn (max n 32) (le_max_left n 32)
    obtain rfl := Option.some.inj
      ((timerCalibrate_eq hlo hhi (le_max_right n 32)).symm.trans hloops)
    simp only [tooManyLoops, decide_eq_false_iff_not, decide_eq_true_eq, not_lt] at hle hlt
    refine ⟨(limit / lastBit limit - 512).size, Nat.div_eq_of_lt_le ?_ ?_⟩
    · rwa [Nat.mul_comm] at hle
    · rwa [← Nat.mul_succ, Nat.mul_comm] at hlt
  · rintro ⟨j, hj⟩
    have hsize : (limit / lastBit limit - 512).size = j := by
      have hpos := Nat.two_pow_pos j
      refine le_antisymm (Nat.size_le.mpr (by omega)) (Nat.lt_succ_iff.mp ?_)
      refine (Nat.pow_lt_pow_iff_right (a := 2) (by decide)).mp ?_
      have := Nat.lt_size_self (limit / lastBit limit - 512)
      rw [pow_succ]
      omega
    refine ⟨32, fun turns hturns => ⟨_, timerCalibrate_eq hlo hhi hturns, Nat.dvd_mul_right .., ?_⟩⟩
    have hpos : 0 < lastBit limit := by
      obtain ⟨w, -, hbit⟩ := lastBit_eq hlo
      exact hbit ▸ Nat.two_pow_pos _
    simp only [hsize, ← hj, tooManyLoops, decide_eq_false_iff_not, decide_eq_true_eq, not_lt]
    exact ⟨Nat.mul_div_le limit _, Nat.lt_mul_div_succ limit hpos⟩

theorem timer_calibrate_iff_2048 : Calibrates 2048 :=
  (timer_calibrate_iff (by decide) (by decide)).mpr ⟨0, by decide⟩

/-- None of the smaller bits is too many by itself, so all of them are accepted. -/
theorem timer_calibrate_overshoots : timerCalibrate 1536 32 = some 2046 ∧ ¬Calibrates 1536 := by
  refine ⟨by decide, ?_⟩
  rintro ⟨n, hn⟩
  obtain ⟨loops, hloops, -, hle, -⟩ := hn (max n 32) (le_max_left n 32)
  obtain rfl := Option.some.inj
    ((timerCalibrate_eq (by decide) (by decide) (le_max_right n 32)).symm.trans hloops)
  revert hle
  decide

end Pintos.Devices
