import Pintos.Filesys.State
import Mathlib.Order.Basic

/- Bitmaps (`lib/kernel/bitmap.c`).

   A function has no result where one of its `ASSERT`s fails. `size_t` arithmetic
   wraps, so the sums that are compared with the size are taken modulo 2 ^ 32.

   Correspondence (C ↔ Lean):
     `bitmap_mark`, `bitmap_reset`           ↔ `bitmapMark`, `bitmapReset`
     `bitmap_set`, `bitmap_test`             ↔ `bitmapSet`, `bitmapTest`
     `bitmap_set_multiple`                   ↔ `bitmapSetMultiple`
     `bitmap_contains`, `bitmap_all`         ↔ `bitmapContains`, `bitmapAll`
     `bitmap_scan`, `bitmap_scan_and_flip`   ↔ `bitmapScan`, `bitmapScanAndFlip`
     `BITMAP_ERROR`                          ↔ `none` inside the result
   The specifications below are in terms of `Bitmap.bit`, the bits as an array. -/
namespace Pintos.Filesys

open Vm (wordSize)
open Function

def elemBits : Nat := 32

def elemIdx (bitIdx : Nat) : Nat := bitIdx / elemBits

def bitMask (bitIdx : Nat) : BitVec 32 := 1#32 <<< (bitIdx % elemBits)

def elemCnt (bitCnt : Nat) : Nat := (bitCnt + elemBits - 1) / elemBits

def byteCnt (bitCnt : Nat) : Nat := 4 * elemCnt bitCnt

/-- The bits of the last element that are in use. -/
def lastMask (b : Bitmap) : BitVec 32 :=
  if b.bitCnt % elemBits = 0 then BitVec.allOnes 32 else 1#32 <<< (b.bitCnt % elemBits) - 1#32

/-- `bitmap_mark`. It does not check the index; the element has to be there. -/
def bitmapMark (b : Bitmap) (bitIdx : Nat) : Option Bitmap :=
  if elemIdx bitIdx < elemCnt b.bitCnt then
    some { b with
      bits := update b.bits (elemIdx bitIdx) (b.bits (elemIdx bitIdx) ||| bitMask bitIdx) }
  else none

def bitmapReset (b : Bitmap) (bitIdx : Nat) : Option Bitmap :=
  if elemIdx bitIdx < elemCnt b.bitCnt then
    some { b with
      bits := update b.bits (elemIdx bitIdx) (b.bits (elemIdx bitIdx) &&& ~~~bitMask bitIdx) }
  else none

def bitmapSet (b : Bitmap) (idx : Nat) (value : Bool) : Option Bitmap :=
  if idx < b.bitCnt then if value then bitmapMark b idx else bitmapReset b idx else none

def bitmapTest (b : Bitmap) (idx : Nat) : Option Bool :=
  if idx < b.bitCnt then some (b.bits (elemIdx idx) &&& bitMask idx != 0#32) else none

def inRange (b : Bitmap) (start cnt : Nat) : Bool :=
  start ≤ b.bitCnt && (start + cnt) % wordSize ≤ b.bitCnt

/-- The loop of `bitmap_set_multiple`. -/
def setFrom (value : Bool) : (cnt i : Nat) → Bitmap → Option Bitmap
  | 0, _, b => some b
  | cnt + 1, i, b => do setFrom value cnt (i + 1) (← bitmapSet b (i % wordSize) value)

def bitmapSetMultiple (b : Bitmap) (start cnt : Nat) (value : Bool) : Option Bitmap :=
  if inRange b start cnt then setFrom value cnt start b else none

def containsFrom (b : Bitmap) (value : Bool) : (cnt i : Nat) → Option Bool
  | 0, _ => some false
  | cnt + 1, i => do
    if (← bitmapTest b (i % wordSize)) = value then return true
    else containsFrom b value cnt (i + 1)

def bitmapContains (b : Bitmap) (start cnt : Nat) (value : Bool) : Option Bool :=
  if inRange b start cnt then containsFrom b value cnt start else none

def bitmapAll (b : Bitmap) (start cnt : Nat) : Option Bool :=
  (bitmapContains b start cnt false).map (!·)

/-- The loop of `bitmap_scan`; `turns` is the number of indices left to try. -/
def scanFrom (b : Bitmap) (cnt : Nat) (value : Bool) : (turns i : Nat) → Option (Option Nat)
  | 0, _ => some none
  | turns + 1, i => do
    if ← bitmapContains b i cnt (!value) then scanFrom b cnt value turns (i + 1)
    else return some i

def bitmapScan (b : Bitmap) (start cnt : Nat) (value : Bool) : Option (Option Nat) :=
  if start ≤ b.bitCnt then
    if cnt ≤ b.bitCnt then scanFrom b cnt value (b.bitCnt - cnt + 1 - start) start
    else some none
  else none

def bitmapScanAndFlip (b : Bitmap) (start cnt : Nat) (value : Bool) :
    Option (Bitmap × Option Nat) := do
  match ← bitmapScan b start cnt value with
  | none => return (b, none)
  | some idx => return (← bitmapSetMultiple b idx cnt (!value), some idx)

/-- `bitmap_create`, with `bits` as the memory `malloc` returned. -/
def bitmapCreate (bits : Nat → BitVec 32) (bitCnt : Nat) : Option Bitmap :=
  bitmapSetMultiple ⟨bitCnt, bits⟩ 0 bitCnt false

/-! The bits as an array. -/

def Bitmap.bit (b : Bitmap) (i : Nat) : Bool := (b.bits (elemIdx i)).getLsbD (i % elemBits)

theorem getLsbD_bitMask (i k : Nat) :
    (bitMask i).getLsbD k = decide (k = i % elemBits) := by
  have hi : i % elemBits < 32 := Nat.mod_lt _ (by decide)
  rw [bitMask]
  by_cases h : k = i % elemBits
  · simp [h, hi]
  · simp [h]
    omega

/-- Two bitmaps with the same bits are equal, the unused bits included. -/
theorem Bitmap.ext_bit {a b : Bitmap} (hcnt : a.bitCnt = b.bitCnt) (h : ∀ i, a.bit i = b.bit i) :
    a = b := by
  obtain ⟨c, w⟩ := a
  obtain ⟨c', w'⟩ := b
  cases hcnt
  have hw : w = w' := by
    funext e
    refine BitVec.eq_of_getLsbD_eq fun k hk => ?_
    have hb := h (elemBits * e + k)
    have he : elemIdx (elemBits * e + k) = e := by
      simp only [elemIdx, elemBits]
      omega
    have hm : (elemBits * e + k) % elemBits = k := by
      simp only [elemBits]
      omega
    simpa only [bit, he, hm] using hb
  rw [hw]

theorem elemIdx_lt {i bitCnt : Nat} (h : i < bitCnt) : elemIdx i < elemCnt bitCnt := by
  simp only [elemIdx, elemCnt, elemBits]
  omega

theorem bit_index_eq {i j : Nat} (he : elemIdx i = elemIdx j)
    (hm : i % elemBits = j % elemBits) : i = j := by
  simp only [elemIdx, elemBits] at he hm
  omega

/-! One bit. -/

theorem bitmapTest_eq {b : Bitmap} {idx : Nat} (h : idx < b.bitCnt) :
    bitmapTest b idx = some (b.bit idx) := by
  have hlt : idx % elemBits < 32 := Nat.mod_lt _ (by decide)
  rw [bitmapTest, if_pos h, Bitmap.bit]
  congr 1
  rw [Bool.eq_iff_iff, bne_iff_ne]
  constructor
  · intro hne
    by_contra hbit
    refine hne (BitVec.eq_of_getLsbD_eq fun k _ => ?_)
    rw [BitVec.getLsbD_and, getLsbD_bitMask, BitVec.getLsbD_zero]
    by_cases hk : k = idx % elemBits
    · rw [hk, Bool.eq_false_iff.mpr hbit, Bool.false_and]
    · simp [hk]
  · intro hbit heq
    have hand := congrArg (BitVec.getLsbD · (idx % elemBits)) heq
    simp [getLsbD_bitMask, hbit] at hand

/-- The bitmap with one bit set to `value`. -/
def Bitmap.put (b : Bitmap) (idx : Nat) (value : Bool) : Bitmap :=
  let w := b.bits (elemIdx idx)
  { b with
    bits := update b.bits (elemIdx idx)
      (if value then w ||| bitMask idx else w &&& ~~~bitMask idx) }

theorem bitmapSet_eq {b : Bitmap} {idx : Nat} (h : idx < b.bitCnt) (value : Bool) :
    bitmapSet b idx value = some (b.put idx value) := by
  cases value <;> simp [bitmapSet, bitmapMark, bitmapReset, Bitmap.put, h, elemIdx_lt h]

theorem Bitmap.put_bit (b : Bitmap) (idx : Nat) (value : Bool) (i : Nat) :
    (b.put idx value).bit i = if i = idx then value else b.bit i := by
  have hlt : i % elemBits < 32 := Nat.mod_lt _ (by decide)
  have hword : ∀ w : BitVec 32, (if value then w ||| bitMask idx else w &&& ~~~bitMask idx).getLsbD
      (i % elemBits) = if i % elemBits = idx % elemBits then value else w.getLsbD (i % elemBits) := by
    grind [getLsbD_bitMask]
  simp only [bit, put]
  by_cases he : elemIdx i = elemIdx idx
  · grind [bit_index_eq]
  · rw [update_of_ne he, if_neg (fun hi => he (by rw [hi]))]

/-- The bitmap with `cnt` bits from `start` on set to `value`. -/
def Bitmap.fill (b : Bitmap) (start cnt : Nat) (value : Bool) : Bitmap :=
  match cnt with
  | 0 => b
  | cnt + 1 => (b.put start value).fill (start + 1) cnt value

@[simp] theorem Bitmap.fill_bitCnt (b : Bitmap) (start cnt : Nat) (value : Bool) :
    (b.fill start cnt value).bitCnt = b.bitCnt := by
  induction cnt generalizing b start with
  | zero => rfl
  | succ cnt ih => exact ih (b.put start value) (start + 1)

theorem Bitmap.fill_bit (b : Bitmap) (start cnt : Nat) (value : Bool) (i : Nat) :
    (b.fill start cnt value).bit i =
      if start ≤ i ∧ i < start + cnt then value else b.bit i := by
  induction cnt generalizing b start with
  | zero => rw [fill, if_neg (by omega)]
  | succ cnt ih => grind [fill, put_bit]

/-! Ranges of bits. The size of the bitmap is far from where `size_t` wraps. -/

section Range
variable {b b' : Bitmap} {cnt start : Nat} {value : Bool}

theorem inRange_of_le (hsize : b.bitCnt < wordSize) (h : start + cnt ≤ b.bitCnt) :
    inRange b start cnt = true := by
  have hmod : (start + cnt) % wordSize = start + cnt := Nat.mod_eq_of_lt (by omega)
  simp only [inRange, hmod, Bool.and_eq_true, decide_eq_true_eq]
  omega

theorem setFrom_eq (value : Bool) (cnt i : Nat) (b : Bitmap) (hsize : b.bitCnt < wordSize)
    (h : i + cnt ≤ b.bitCnt) : setFrom value cnt i b = some (b.fill i cnt value) := by
  induction cnt generalizing i b with
  | zero => rfl
  | succ cnt ih =>
    rw [setFrom, Nat.mod_eq_of_lt (by omega), bitmapSet_eq (by omega)]
    have hcnt : (b.put i value).bitCnt = b.bitCnt := rfl
    exact ih (i + 1) (b.put i value) hsize (by omega)

theorem bitmapSet_bitCnt {b : Bitmap} {idx : Nat} (h : bitmapSet b idx value = some b') :
    b'.bitCnt = b.bitCnt := by
  by_cases hlt : idx < b.bitCnt
  · rw [bitmapSet_eq hlt] at h
    cases h
    rfl
  · rw [bitmapSet, if_neg hlt] at h
    cases h

theorem bitmapSetMultiple_bitCnt (h : bitmapSetMultiple b start cnt value = some b') :
    b'.bitCnt = b.bitCnt := by
  have hloop : ∀ cnt i (b b' : Bitmap), setFrom value cnt i b = some b' → b'.bitCnt = b.bitCnt := by
    intro cnt
    induction cnt with
    | zero =>
      intro i b b' h
      cases h
      rfl
    | succ cnt ih =>
      intro i b b' h
      obtain ⟨b₁, h₁, h₂⟩ := Option.bind_eq_some_iff.mp h
      exact (ih _ _ _ h₂).trans (bitmapSet_bitCnt h₁)
  rw [bitmapSetMultiple] at h
  split at h
  · exact hloop _ _ _ _ h
  · cases h

theorem bitmapSetMultiple_eq (hsize : b.bitCnt < wordSize) (h : start + cnt ≤ b.bitCnt)
    (value : Bool) : bitmapSetMultiple b start cnt value = some (b.fill start cnt value) := by
  rw [bitmapSetMultiple, if_pos (inRange_of_le hsize h), setFrom_eq value cnt start b hsize h]

theorem containsFrom_eq (hsize : b.bitCnt < wordSize) (value : Bool) (cnt i : Nat)
    (h : i + cnt ≤ b.bitCnt) :
    containsFrom b value cnt i = some (decide (∃ j < cnt, b.bit (i + j) = value)) := by
  induction cnt generalizing i with
  | zero => simp [containsFrom]
  | succ cnt ih =>
    have hsplit : (∃ j < cnt + 1, b.bit (i + j) = value) ↔
        b.bit i = value ∨ ∃ j < cnt, b.bit (i + 1 + j) = value := by
      constructor
      · rintro ⟨j, hj, hb⟩
        cases j with
        | zero => exact Or.inl hb
        | succ j => exact Or.inr ⟨j, by omega, by rw [← hb]; congr 1; omega⟩
      · rintro (hb | ⟨j, hj, hb⟩)
        · exact ⟨0, by omega, hb⟩
        · exact ⟨j + 1, by omega, by rw [← hb]; congr 1; omega⟩
    rw [containsFrom, Nat.mod_eq_of_lt (by omega), bitmapTest_eq (by omega)]
    show (if b.bit i = value then some true else containsFrom b value cnt (i + 1)) = _
    by_cases hb : b.bit i = value
    · rw [if_pos hb, decide_eq_true (hsplit.mpr (Or.inl hb))]
    · rw [if_neg hb, ih (i + 1) (by omega)]
      simp only [hsplit, hb, false_or]

/-- The bits of a range all have the same value. -/
def Bitmap.Run (b : Bitmap) (start cnt : Nat) (value : Bool) : Prop :=
  ∀ j < cnt, b.bit (start + j) = value

theorem Bitmap.Run.not_mem {i : Nat} (h : b.Run start cnt false) (hi : b.bit i = true) :
    ¬(start ≤ i ∧ i < start + cnt) := by
  rintro ⟨h₁, h₂⟩
  have hbit := h (i - start) (by omega)
  rw [Nat.add_sub_cancel' h₁, hi] at hbit
  cases hbit

theorem bitmapContains_eq (hsize : b.bitCnt < wordSize) (h : start + cnt ≤ b.bitCnt)
    (value : Bool) : ∃ c, bitmapContains b start cnt value = some c ∧
      (c = false ↔ b.Run start cnt (!value)) := by
  refine ⟨_, by rw [bitmapContains, if_pos (inRange_of_le hsize h),
    containsFrom_eq hsize value cnt start h], ?_⟩
  rw [decide_eq_false_iff_not]
  constructor
  · intro hno j hj
    cases hb : b.bit (start + j) <;> cases value <;>
      first | rfl | exact absurd ⟨j, hj, hb⟩ hno
  · rintro hall ⟨j, hj, hb⟩
    have hj' := hall j hj
    rw [hb] at hj'
    cases value <;> cases hj'

theorem bitmapAll_eq (hsize : b.bitCnt < wordSize) (h : start + cnt ≤ b.bitCnt)
    (hall : b.Run start cnt true) : bitmapAll b start cnt = some true := by
  obtain ⟨c, hc, hiff⟩ := bitmapContains_eq hsize h false
  rw [bitmapAll, hc, hiff.mpr hall]
  rfl

/-- What a scan finds: the first run, if there is one. -/
def Bitmap.FirstRun (b : Bitmap) (cnt : Nat) (value : Bool) : Option Nat → Prop
  | none => ∀ i, i + cnt ≤ b.bitCnt → ¬b.Run i cnt value
  | some idx => idx + cnt ≤ b.bitCnt ∧ b.Run idx cnt value ∧ ∀ i < idx, ¬b.Run i cnt value

theorem scanFrom_spec (hsize : b.bitCnt < wordSize) (cnt : Nat) (value : Bool) (turns i : Nat)
    (hlast : i + turns + cnt = b.bitCnt + 1) (hbefore : ∀ k < i, ¬b.Run k cnt value) :
    ∃ r, scanFrom b cnt value turns i = some r ∧ b.FirstRun cnt value r := by
  induction turns generalizing i with
  | zero => exact ⟨none, rfl, fun k hk => hbefore k (by omega)⟩
  | succ turns ih =>
    obtain ⟨c, hc, hiff⟩ := bitmapContains_eq hsize (show i + cnt ≤ b.bitCnt by omega) (!value)
    rw [Bool.not_not] at hiff
    rw [scanFrom, hc]
    cases c with
    | false => exact ⟨some i, rfl, by omega, hiff.mp rfl, hbefore⟩
    | true =>
      refine ih (i + 1) (by omega) fun k hk hrun => ?_
      by_cases hki : k = i
      · subst hki
        exact absurd (hiff.mpr hrun) (by decide)
      · exact hbefore k (by omega) hrun

theorem bitmapScanAndFlip_spec (hsize : b.bitCnt < wordSize) (cnt : Nat) (value : Bool) :
    ∃ r, b.FirstRun cnt value r ∧ bitmapScanAndFlip b 0 cnt value =
      some (match r with
        | none => (b, none)
        | some idx => (b.fill idx cnt (!value), some idx)) := by
  have hscan : ∃ r, bitmapScan b 0 cnt value = some r ∧ b.FirstRun cnt value r := by
    rw [bitmapScan, if_pos (Nat.zero_le _)]
    by_cases hcnt : cnt ≤ b.bitCnt
    · rw [if_pos hcnt]
      exact scanFrom_spec hsize cnt value _ 0 (by omega) fun k hk => absurd hk (by omega)
    · rw [if_neg hcnt]
      exact ⟨none, rfl, fun i hi => absurd hi (by omega)⟩
  obtain ⟨r, hr, hfirst⟩ := hscan
  refine ⟨r, hfirst, ?_⟩
  rw [bitmapScanAndFlip, hr]
  cases r with
  | none => rfl
  | some idx =>
    show (do return (← bitmapSetMultiple b idx cnt (!value), some idx)) = _
    rw [bitmapSetMultiple_eq hsize hfirst.1]
    rfl

end Range

end Pintos.Filesys
