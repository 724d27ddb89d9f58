import Pintos.Lib.Memory

/- Blocks of memory, `lib/string.c`.

   `memmove` copies upwards if the destination comes first, and else downwards, so that no
   byte is overwritten before it has been read. The copy is right in both cases
   (`memmove_spec`). The function returns its cursor; in the first case that is the end
   of the destination and not `dst_`.

   Correspondence (C ↔ Lean):
     `memmove`                            ↔ `memmove`
     its two loops, with what they return ↔ `moveUp`, `moveDown`
   Addresses are numbers, up to the end of a block and with it. -/
namespace Pintos.Kernel

open Lib

def moveUp : (size dst src : Nat) → MemM Nat
  | 0, dst, _ => pure dst
  | size + 1, dst, src => do
    store dst (← load src)
    moveUp size (dst + 1) (src + 1)

def moveDown : (size dst src : Nat) → MemM Nat
  | 0, dst, _ => pure dst
  | size + 1, dst, src => do
    store (dst - 1) (← load (src - 1))
    moveDown size (dst - 1) (src - 1)

def memmove (dst src size : Nat) : MemM Nat := do
  assert (dst ≠ 0 || size = 0)
  assert (src ≠ 0 || size = 0)
  (if dst < src then moveUp size dst src else moveDown size (dst + size) (src + size))

/-- The bytes that were at `src` are at `dst`, and no others have changed. -/
def Moved (dst src size : Nat) (m m' : Memory) : Prop :=
  m'.bytes dst size = m.bytes src size ∧ SameOff dst size m m'

/-- What callers rely on. -/
def MovesTo (m : Memory) (dst src size : Nat) : Prop :=
  wp (memmove dst src size) (fun r m' => Moved dst src size m m' ∧ r = dst) m

section
variable {m : Memory} {dst src size : Nat}

theorem moved_of_bytes {m' : Memory} (hgood : m'.good = m.good)
    (hbyte : ∀ x, m'.byte x = if dst ≤ x ∧ x < dst + size then m.byte (src + (x - dst))
      else m.byte x) : Moved dst src size m m' := by
  refine ⟨Memory.bytes_congr fun i hi => ?_, hgood, fun x hx => ?_⟩
  · rw [hbyte, if_pos ⟨Nat.le_add_right .., by omega⟩, Nat.add_sub_cancel_left]
  · rw [hbyte, if_neg (by omega)]

theorem moveUp_spec : ∀ (size : Nat) {dst src : Nat} {m : Memory}, dst < src → m.Has dst size →
    m.Has src size → wp (moveUp size dst src) (fun r m' => r = dst + size ∧ m'.good = m.good ∧
      ∀ x, m'.byte x = if dst ≤ x ∧ x < dst + size then m.byte (src + (x - dst))
        else m.byte x) m
  | 0, dst, src, m, _, _, _ => wp_pure.mpr ⟨rfl, rfl, fun x => (if_neg (by omega)).symm⟩
  | size + 1, dst, src, m, hlt, hdst, hsrc => by
    rw [moveUp, wp_bind, wp_load]
    refine ⟨hsrc 0 (Nat.succ_pos _), ?_⟩
    rw [wp_bind, wp_store]
    refine ⟨hdst 0 (Nat.succ_pos _), ?_⟩
    have hd : (m.set dst (m.byte src)).Has (dst + 1) size := hdst.sub (by omega) (by omega)
    have hs : (m.set dst (m.byte src)).Has (src + 1) size := hsrc.sub (by omega) (by omega)
    refine wp_mono (moveUp_spec size (by omega) hd hs) ?_
    rintro r m' ⟨hr, hgood, hbyte⟩
    refine ⟨by omega, hgood, fun x => ?_⟩
    rw [hbyte, Memory.set_byte, Memory.set_byte]
    -- the byte at `dst` is written first, and the rest is read above it
    by_cases hx : x = dst
    · rw [if_neg (by omega), if_pos hx, if_pos (by omega), hx, Nat.sub_self, Nat.add_zero]
    · rw [if_neg hx, if_neg (show src + 1 + (x - (dst + 1)) ≠ dst by omega)]
      by_cases hin : dst + 1 ≤ x ∧ x < dst + 1 + size
      · rw [if_pos hin, if_pos (by omega), show src + 1 + (x - (dst + 1)) = src + (x - dst) by omega]
      · rw [if_neg hin, if_neg (by omega)]

theorem moveDown_spec : ∀ (size : Nat) {m : Memory}, src ≤ dst → m.Has dst size →
    m.Has src size → wp (moveDown size (dst + size) (src + size)) (fun r m' => r = dst ∧
      m'.good = m.good ∧ ∀ x, m'.byte x =
        if dst ≤ x ∧ x < dst + size then m.byte (src + (x - dst)) else m.byte x) m
  | 0, m, _, _, _ => wp_pure.mpr ⟨rfl, rfl, fun x => (if_neg (by omega)).symm⟩
  | size + 1, m, hle, hdst, hsrc => by
    rw [moveDown, wp_bind, wp_load]
    refine ⟨hsrc size (Nat.lt_succ_self _), ?_⟩
    rw [wp_bind, wp_store]
    refine ⟨hdst size (Nat.lt_succ_self _), ?_⟩
    rw [show src + (size + 1) - 1 = src + size by omega,
      show dst + (size + 1) - 1 = dst + size by omega]
    have hd : (m.set (dst + size) (m.byte (src + size))).Has dst size :=
      hdst.sub (Nat.le_refl _) (by omega)
    have hs : (m.set (dst + size) (m.byte (src + size))).Has src size :=
      hsrc.sub (Nat.le_refl _) (by omega)
    refine wp_mono (moveDown_spec size hle hd hs) ?_
    rintro r m' ⟨hr, hgood, hbyte⟩
    refine ⟨hr, hgood, fun x => ?_⟩
    rw [hbyte, Memory.set_byte, Memory.set_byte]
    -- the byte at the end is written first, and the rest is read below it
    by_cases hx : x = dst + size
    · rw [if_neg (by omega), if_pos hx, if_pos (by omega), hx, Nat.add_sub_cancel_left]
    · rw [if_neg hx]
      by_cases hin : dst ≤ x ∧ x < dst + size
      · rw [if_pos hin, if_neg (show src + (x - dst) ≠ dst + size by omega), if_pos (by omega)]
      · rw [if_neg hin, if_neg (by omega)]

/-- The copy is always right; what is returned depends on the order of the two blocks. -/
theorem memmove_spec (hdst : m.Has dst size) (hsrc : m.Has src size) :
    wp (memmove dst src size) (fun r m' => Moved dst src size m m' ∧
      r = if dst < src then dst + size else dst) m := by
  have hnull : ∀ {a}, m.Has a size → (decide (a ≠ 0) || decide (size = 0)) = true := by
    intro a ha
    by_cases hsize : size = 0
    · simp [hsize]
    · simp [ha.ne_zero (Nat.pos_of_ne_zero hsize)]
  simp only [memmove, wp_bind, wp_assert, wp_ite]
  refine ⟨hnull hdst, hnull hsrc, fun hlt => ?_, fun hlt => ?_⟩
  · rw [if_pos hlt]
    refine wp_mono (moveUp_spec size hlt hdst hsrc) ?_
    rintro r m' ⟨hr, hgood, hbyte⟩
    exact ⟨moved_of_bytes hgood hbyte, hr⟩
  · rw [if_neg hlt]
    refine wp_mono (moveDown_spec size (Nat.le_of_not_lt hlt) hdst hsrc) ?_
    rintro r m' ⟨hr, hgood, hbyte⟩
    exact ⟨moved_of_bytes hgood hbyte, hr⟩

/-- **`memmove` copies and returns its destination unless it has copied upwards.** -/
theorem memmove_returns_iff {size : Nat} (hdst : m.Has dst size) (hsrc : m.Has src size) :
    MovesTo m dst src size ↔ size = 0 ∨ src ≤ dst := by
  have hspec := memmove_spec hdst hsrc
  constructor
  · intro hmoves
    obtain ⟨r, m', hm, -, hr⟩ := hmoves
    have hcursor := (wp_elim hspec hm).2
    by_cases hlt : dst < src
    · rw [if_pos hlt] at hcursor
      omega
    · omega
  · intro hok
    refine wp_mono hspec ?_
    rintro r m' ⟨hmoved, hr⟩
    refine ⟨hmoved, hr.trans ?_⟩
    by_cases hlt : dst < src
    · rw [if_pos hlt]
      omega
    · rw [if_neg hlt]

end

/-- Eight bytes, numbered from one. -/
def eightBytes : Memory where
  byte := fun a => UInt8.ofNat a
  good := fun a => 1 ≤ a && a ≤ 8
  null := rfl

theorem memmove_returns_iff_down : MovesTo eightBytes 3 1 5 := by
  refine (memmove_returns_iff ?_ ?_).mpr (.inr (by decide))
  · unfold Memory.Has
    decide
  · unfold Memory.Has
    decide

/-- Two bytes are moved down by one, and 3 is returned. -/
theorem memmove_returns_end : ¬MovesTo eightBytes 1 2 2 := by
  intro hmoves
  obtain ⟨r, m', hm, -, hr⟩ := hmoves
  have hrun : (memmove 1 2 2 eightBytes).map Prod.fst = some 3 := by decide
  rw [hm, hr] at hrun
  cases hrun

end Pintos.Kernel
