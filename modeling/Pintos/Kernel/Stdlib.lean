import Pintos.Lib.Heap
import Pintos.Lib.Memory

/- Heap sort and binary search of `lib/stdlib.c`.

   The elements of an array are the bytes of its places, and `compare` is any function of
   these; its two arguments are read whole. `size_t` has 32 bits, so `2 * i` wraps for
   `i ≥ 2^31`. Arrays with that many elements have elements of one byte.

   Correspondence (C ↔ Lean):
     `do_swap`, `do_compare`, `heapify`    ↔ `doSwap`, `doCompare`, `heapify`
     `array + (idx - 1) * size`            ↔ `elemPtr`
     the tests that set `max`              ↔ `largerOf`
     the two loops of `sort`, and `sort`   ↔ `buildHeap`, `sortHeap`, `sort`
     `binary_search`                       ↔ `binarySearch`
   A loop without a bound of its own counts down from more turns than it can take. -/
namespace Pintos.Kernel

open Lib

abbrev Compare := List UInt8 → List UInt8 → Int

/-- `size_t` and pointers are less than this. -/
def sizeMod : Nat := 0x100000000

def elemPtr (array idx size : Nat) : Nat := (array + (idx + sizeMod - 1) % sizeMod * size) % sizeMod

def swapBytes : (size a b : Nat) → MemM Unit
  | 0, _, _ => pure ()
  | size + 1, a, b => do
    let t ← load a
    store a (← load b)
    store b t
    swapBytes size (a + 1) (b + 1)

def doSwap (array aIdx bIdx size : Nat) : MemM Unit :=
  swapBytes size (elemPtr array aIdx size) (elemPtr array bIdx size)

section
variable (compare : Compare)

def doCompare (array aIdx bIdx size : Nat) : MemM Int := do
  let a ← loadBytes size (elemPtr array aIdx size)
  let b ← loadBytes size (elemPtr array bIdx size)
  return compare a b

def largerOf (array cnt size child max : Nat) : MemM Nat := do
  (if child ≤ cnt then do
    let cmp ← doCompare compare array child max size
    return if 0 < cmp then child else max
  else return max)

def heapify (array cnt size : Nat) : (fuel i : Nat) → MemM Unit
  | 0, _ => follow none
  | fuel + 1, i => do
    let left := 2 * i % sizeMod
    let right := (2 * i + 1) % sizeMod
    let max ← largerOf compare array cnt size left i
    let max ← largerOf compare array cnt size right max
    (if max = i then pure ()
    else do
      doSwap array i max size
      heapify array cnt size fuel max)

def buildHeap (array cnt size : Nat) : (i : Nat) → MemM Unit
  | 0 => pure ()
  | i + 1 => do
    heapify compare array cnt size (cnt + 1) (i + 1)
    buildHeap array cnt size i

def sortHeap (array size : Nat) : (i : Nat) → MemM Unit
  | 0 | 1 => pure ()
  | i + 2 => do
    doSwap array 1 (i + 2) size
    heapify compare array (i + 1) size (i + 2) 1
    sortHeap array size (i + 1)

def sort (array cnt size : Nat) : MemM Unit := do
  assert (array ≠ 0 || cnt = 0)
  assert (0 < size)
  buildHeap compare array cnt size (cnt / 2)
  sortHeap compare array size cnt

def searchLoop (key : List UInt8) (size : Nat) : (fuel first last : Nat) → MemM Nat
  | 0, _, _ => follow none
  | fuel + 1, first, last =>
    if first < last then do
      let range := (last - first) / size
      let middle := first + range / 2 * size
      let cmp := compare key (← loadBytes size middle)
      if cmp < 0 then searchLoop key size fuel first middle
      else if cmp > 0 then searchLoop key size fuel (middle + size) last
      else return middle
    else return 0

/-- The address of an element, or null. -/
def binarySearch (key : List UInt8) (array cnt size : Nat) : MemM Nat :=
  searchLoop compare key size (cnt + 1) array ((array + size * cnt) % sizeMod)

end

/-! Arrays. -/

/-- There is an array of `cnt` elements of `size` bytes; its end is an address too. -/
structure ArrayAt (m : Memory) (array cnt size : Nat) : Prop where
  has : m.Has array (cnt * size)
  pos : 0 < size
  fits : array + cnt * size < sizeMod

def arrayElems (m : Memory) (array cnt size : Nat) : List (List UInt8) :=
  (List.range cnt).map fun k => m.bytes (array + k * size) size

/-- The element with an index that counts from one. -/
def elemAt (m : Memory) (array size : Nat) : Nat → List UInt8
  | 0 => []
  | k + 1 => m.bytes (array + k * size) size

/-- The array is sorted, and nothing else is touched. -/
def Sorts (compare : Compare) (m : Memory) (array cnt size : Nat) : Prop :=
  wp (sort compare array cnt size) (fun _ m' => SameOff array (cnt * size) m m' ∧
    (arrayElems m' array cnt size).Perm (arrayElems m array cnt size) ∧
    (arrayElems m' array cnt size).Pairwise fun a b => compare a b ≤ 0) m

section
variable {m m' : Memory} {array cnt size i n : Nat}

theorem arrayElems_eq (m : Memory) (array cnt size : Nat) :
    arrayElems m array cnt size = (List.range cnt).map fun k => elemAt m array size (k + 1) := rfl

theorem place_le {cnt : Nat} (hi : 1 ≤ i ∧ i ≤ cnt) (size : Nat) :
    (i - 1) * size + size ≤ cnt * size := by
  have hle := Nat.mul_le_mul_right size (show i - 1 + 1 ≤ cnt by omega)
  rwa [Nat.succ_mul] at hle

theorem place_apart {j : Nat} (size : Nat) (hij : i < j) : i * size + size ≤ j * size := by
  have hle := Nat.mul_le_mul_right size (show i + 1 ≤ j from hij)
  rwa [Nat.succ_mul] at hle

theorem ArrayAt.elemPtr_eq (h : ArrayAt m array cnt size) (hi : 1 ≤ i ∧ i ≤ cnt) :
    elemPtr array i size = array + (i - 1) * size := by
  have hcnt : cnt * 1 ≤ cnt * size := Nat.mul_le_mul_left cnt h.pos
  have hend := place_le hi size
  have hfits := h.fits
  rw [elemPtr, show i + sizeMod - 1 = sizeMod + (i - 1) by omega, Nat.add_mod_left,
    Nat.mod_eq_of_lt (show i - 1 < sizeMod by omega), Nat.mod_eq_of_lt (by omega)]

theorem ArrayAt.has_elem (h : ArrayAt m array cnt size) (hi : 1 ≤ i ∧ i ≤ cnt) :
    m.Has (array + (i - 1) * size) size := by
  have hend := place_le hi size
  exact h.has.sub (Nat.le_add_right ..) (by omega)

theorem ArrayAt.of_same (h : ArrayAt m array cnt size) (hs : SameOff array n m m') :
    ArrayAt m' array cnt size := ⟨hs.has h.has, h.pos, h.fits⟩

theorem elemAt_of_pos (hi : 1 ≤ i) :
    elemAt m array size i = m.bytes (array + (i - 1) * size) size := by
  obtain ⟨k, rfl⟩ : ∃ k, i = k + 1 := ⟨i - 1, by omega⟩
  rfl

/-! `do_swap` and `do_compare`. -/

theorem swapBytes_spec : ∀ (size : Nat) {a b : Nat} {m : Memory}, m.Has a size → m.Has b size →
    (a = b ∨ a + size ≤ b ∨ b + size ≤ a) → wp (swapBytes size a b) (fun _ m' => m'.good = m.good ∧
      ∀ x, m'.byte x = if a ≤ x ∧ x < a + size then m.byte (b + (x - a))
        else if b ≤ x ∧ x < b + size then m.byte (a + (x - b)) else m.byte x) m
  | 0, a, b, m, _, _, _ => wp_pure.mpr ⟨rfl, fun x => by
      rw [if_neg (by omega), if_neg (by omega)]⟩
  | size + 1, a, b, m, ha, hb, hab => by
    simp only [swapBytes, wp_bind, wp_load, wp_store, Memory.set_good]
    refine ⟨ha 0 (Nat.succ_pos _), hb 0 (Nat.succ_pos _), ha 0 (Nat.succ_pos _),
      hb 0 (Nat.succ_pos _), ?_⟩
    have ha' : ((m.set a (m.byte b)).set b (m.byte a)).Has (a + 1) size :=
      ha.sub (Nat.le_succ a) (by omega)
    have hb' : ((m.set a (m.byte b)).set b (m.byte a)).Has (b + 1) size :=
      hb.sub (Nat.le_succ b) (by omega)
    refine wp_mono (swapBytes_spec size ha' hb' (by omega)) ?_
    rintro _ m' ⟨hgood, hbyte⟩
    refine ⟨hgood, fun x => ?_⟩
    rw [hbyte]
    -- the first two bytes are exchanged already, and are not met again
    simp only [Memory.set_byte]
    split_ifs <;> first | omega | rfl | (congr 1; omega)

variable (h : ArrayAt m array cnt size) {a b : Nat}
include h

theorem ArrayAt.doSwap (ha : 1 ≤ a ∧ a ≤ cnt) (hb : 1 ≤ b ∧ b ≤ cnt) :
    wp (doSwap array a b size) (fun _ m' => SameOff array (cnt * size) m m' ∧
      elemAt m' array size = elemAt m array size ∘ Equiv.swap a b) m := by
  rw [Kernel.doSwap, h.elemPtr_eq ha, h.elemPtr_eq hb]
  have hapart : ∀ {i j : Nat}, 1 ≤ i → 1 ≤ j → i ≠ j →
      (i - 1) * size + size ≤ (j - 1) * size ∨ (j - 1) * size + size ≤ (i - 1) * size := by
    intro i j hi hj hij
    by_cases hlt : i - 1 < j - 1
    · exact .inl (place_apart size hlt)
    · exact .inr (place_apart size (by omega))
  have hab : array + (a - 1) * size = array + (b - 1) * size ∨
      array + (a - 1) * size + size ≤ array + (b - 1) * size ∨
      array + (b - 1) * size + size ≤ array + (a - 1) * size := by
    by_cases heq : a = b
    · exact .inl (by rw [heq])
    · have := hapart ha.1 hb.1 heq
      omega
  refine wp_mono (swapBytes_spec size (h.has_elem ha) (h.has_elem hb) hab) ?_
  rintro _ m' ⟨hgood, hbyte⟩
  have hea := place_le ha size
  have heb := place_le hb size
  refine ⟨⟨hgood, fun x hx => ?_⟩, funext fun i => ?_⟩
  · rw [hbyte, if_neg (by omega), if_neg (by omega)]
  by_cases hi : i = 0
  · subst hi
    rw [Function.comp, Equiv.swap_apply_of_ne_of_ne (by omega) (by omega)]
    rfl
  rw [Function.comp, elemAt_of_pos (Nat.pos_of_ne_zero hi)]
  by_cases hia : i = a
  · rw [hia, Equiv.swap_apply_left, elemAt_of_pos hb.1]
    refine Memory.bytes_congr fun k hk => ?_
    rw [hbyte, if_pos (by omega), Nat.add_sub_cancel_left]
  · by_cases hib : i = b
    · rw [hib, Equiv.swap_apply_right, elemAt_of_pos ha.1]
      refine Memory.bytes_congr fun k hk => ?_
      have := hapart ha.1 hb.1 (by omega)
      rw [hbyte, if_neg (by omega), if_pos (by omega), Nat.add_sub_cancel_left]
    · rw [Equiv.swap_apply_of_ne_of_ne hia hib, elemAt_of_pos (Nat.pos_of_ne_zero hi)]
      refine Memory.bytes_congr fun k hk => ?_
      have := hapart (Nat.pos_of_ne_zero hi) ha.1 hia
      have := hapart (Nat.pos_of_ne_zero hi) hb.1 hib
      rw [hbyte, if_neg (by omega), if_neg (by omega)]

variable {compare : Compare}

theorem ArrayAt.doCompare (ha : 1 ≤ a ∧ a ≤ cnt) (hb : 1 ≤ b ∧ b ≤ cnt) {Q : Int → Memory → Prop}
    (hq : Q (compare (elemAt m array size a) (elemAt m array size b)) m) :
    wp (doCompare compare array a b size) Q m := by
  rw [Kernel.doCompare, wp_bind, h.elemPtr_eq ha]
  refine wp_loadBytes (h.has_elem ha) ?_
  rw [wp_bind, h.elemPtr_eq hb]
  refine wp_loadBytes (h.has_elem hb) ?_
  rw [wp_pure, ← elemAt_of_pos ha.1, ← elemAt_of_pos hb.1]
  exact hq

theorem ArrayAt.largerOf {child max : Nat} (hn : n ≤ cnt) (hc : 1 ≤ child)
    (hmax : 1 ≤ max ∧ max ≤ cnt) {Q : Nat → Memory → Prop}
    (hq : Q (larger compare (elemAt m array size) n child max) m) :
    wp (largerOf compare array n size child max) Q m := by
  rw [Kernel.largerOf, wp_ite]
  refine ⟨fun hle => ?_, fun hle => ?_⟩
  · rw [wp_bind]
    refine h.doCompare ⟨hc, by omega⟩ hmax ?_
    rw [wp_pure]
    rw [larger] at hq
    by_cases hpos : 0 < compare (elemAt m array size child) (elemAt m array size max)
    · rwa [if_pos hpos, ← if_pos (c := child ≤ n ∧ _) ⟨hle, hpos⟩ (t := child) (e := max)]
    · rwa [if_neg hpos, ← if_neg (c := child ≤ n ∧ _) (fun hb => hpos hb.2) (t := child) (e := max)]
  · rw [larger, if_neg fun hb => hle hb.1] at hq
    exact wp_pure.mpr hq

end

/-! `heapify` and `sort`, for indices that do not wrap. -/

section
variable {compare : Compare} (hcmp : StrcmpOrder compare) {array cnt size : Nat}
include hcmp

theorem heapify_spec {lo n : Nat} (hn : n ≤ cnt) (hcnt : cnt < 0x80000000) :
    ∀ (fuel : Nat) {i : Nat} {m : Memory}, ArrayAt m array cnt size → 1 ≤ i → lo ≤ i → i ≤ n →
    n < fuel + i → Sift compare (elemAt m array size) i lo n →
    wp (heapify compare array n size fuel i) (fun _ m' => SameOff array (cnt * size) m m' ∧
      Shuffles n (elemAt m array size) (elemAt m' array size) ∧
      Heaped compare (elemAt m' array size) lo n) m
  | 0, i, m, _, _, _, hin, hfuel, _ => absurd hfuel (by omega)
  | fuel + 1, i, m, h, hi, hlo, hin, hfuel, hsift => by
    have hleft : 2 * i % sizeMod = 2 * i := Nat.mod_eq_of_lt (by rw [sizeMod]; omega)
    have hright : (2 * i + 1) % sizeMod = 2 * i + 1 := Nat.mod_eq_of_lt (by rw [sizeMod]; omega)
    simp only [heapify, hleft, hright, wp_bind]
    refine h.largerOf hn (by omega) ⟨hi, by omega⟩ ?_
    refine h.largerOf hn (by omega) (by grind [larger]) ?_
    obtain ⟨max, hmax, hchild, hmn, hle, hall⟩ :=
      larger_children hcmp (f := elemAt m array size) hin
    rw [← hmax, wp_ite]
    refine ⟨fun heq => ?_, fun hne => ?_⟩
    · rw [heq] at hall
      exact wp_pure.mpr ⟨⟨rfl, fun _ _ => rfl⟩, Shuffles.refl _ _, hsift.done hall⟩
    · have hchild := hchild.resolve_left hne
      have hlt : i < max := by unfold Child at hchild; omega
      rw [wp_bind]
      refine wp_mono (h.doSwap ⟨hi, by omega⟩ ⟨by omega, by omega⟩) ?_
      rintro _ m₁ ⟨hsame, hswap⟩
      have hstep := hsift.step hi hchild hmn hlo hle hall
      rw [← hswap] at hstep
      refine wp_mono (heapify_spec hn hcnt fuel (h.of_same hsame) (by omega) (by omega) hmn
        (by omega) hstep) ?_
      rintro _ m₂ ⟨hsame', hshuf, hheap⟩
      rw [hswap] at hshuf
      exact ⟨hsame.trans hsame', (shuffles_swap _ ⟨hi, hin⟩ ⟨by omega, hmn⟩).trans hshuf, hheap⟩

theorem buildHeap_spec (hcnt : cnt < 0x80000000) : ∀ (i : Nat) {m : Memory},
    ArrayAt m array cnt size → i ≤ cnt → Heaped compare (elemAt m array size) (i + 1) cnt →
    wp (buildHeap compare array cnt size i) (fun _ m' => SameOff array (cnt * size) m m' ∧
      Shuffles cnt (elemAt m array size) (elemAt m' array size) ∧
      Heaped compare (elemAt m' array size) 1 cnt) m
  | 0, m, _, _, hheap => wp_pure.mpr ⟨⟨rfl, fun _ _ => rfl⟩, Shuffles.refl _ _, hheap⟩
  | i + 1, m, h, hi, hheap => by
    rw [buildHeap, wp_bind]
    have hsift : Sift compare (elemAt m array size) (i + 1) (i + 1) cnt :=
      ⟨fun j c hj hne => hheap j c (by omega), fun c hlo => absurd hlo (by omega)⟩
    refine wp_mono (heapify_spec hcmp (Nat.le_refl cnt) hcnt (cnt + 1) h (by omega) (Nat.le_refl _)
      hi (by omega) hsift) ?_
    rintro _ m₁ ⟨hsame, hshuf, hheap₁⟩
    refine wp_mono (buildHeap_spec hcnt i (h.of_same hsame) (by omega) hheap₁) ?_
    rintro _ m₂ ⟨hsame', hshuf', hheap₂⟩
    exact ⟨hsame.trans hsame', hshuf.trans hshuf', hheap₂⟩

theorem sortHeap_spec (hcnt : cnt < 0x80000000) : ∀ (i : Nat) {m : Memory},
    ArrayAt m array cnt size → i ≤ cnt → Tail compare (elemAt m array size) i cnt →
    wp (sortHeap compare array size i) (fun _ m' => SameOff array (cnt * size) m m' ∧
      Shuffles cnt (elemAt m array size) (elemAt m' array size) ∧
      ∃ j ≤ 1, Tail compare (elemAt m' array size) j cnt) m
  | 0, m, _, _, ht => wp_pure.mpr ⟨⟨rfl, fun _ _ => rfl⟩, Shuffles.refl _ _, 0, by omega, ht⟩
  | 1, m, _, _, ht => wp_pure.mpr ⟨⟨rfl, fun _ _ => rfl⟩, Shuffles.refl _ _, 1, by omega, ht⟩
  | i + 2, m, h, hi, ht => by
    rw [sortHeap, wp_bind]
    refine wp_mono (h.doSwap ⟨Nat.le_refl 1, by omega⟩ ⟨by omega, hi⟩) ?_
    rintro _ m₁ ⟨hsame, hswap⟩
    have hsift := ht.sift
    rw [← hswap] at hsift
    rw [wp_bind]
    refine wp_mono (heapify_spec hcmp (show i + 1 ≤ cnt by omega) hcnt (i + 2) (h.of_same hsame)
      (Nat.le_refl 1) (Nat.le_refl 1) (by omega) (by omega) hsift) ?_
    rintro _ m₂ ⟨hsame', hshuf, hheap⟩
    rw [hswap] at hshuf
    have hsames := hsame.trans hsame'
    refine wp_mono (sortHeap_spec hcnt (i + 1) (h.of_same hsames) (by omega)
      (ht.turn hcmp (by omega) hshuf hheap)) ?_
    rintro _ m₃ ⟨hsame'', hshuf', hend⟩
    refine ⟨hsames.trans hsame'', ?_, hend⟩
    exact ((shuffles_swap _ ⟨Nat.le_refl 1, by omega⟩ ⟨by omega, hi⟩).trans
      (hshuf.mono (by omega))).trans hshuf'

theorem sort_spec {m : Memory} (hcnt : cnt < 0x80000000) (h : ArrayAt m array cnt size) :
    Sorts compare m array cnt size := by
  have hnull : (decide (array ≠ 0) || decide (cnt = 0)) = true := by
    by_cases h0 : cnt = 0
    · simp [h0]
    · simp [h.has.ne_zero (Nat.mul_pos (Nat.pos_of_ne_zero h0) h.pos)]
  simp only [Sorts, sort, wp_bind, wp_assert]
  refine ⟨hnull, by simpa using h.pos, ?_⟩
  have hleaves : Heaped compare (elemAt m array size) (cnt / 2 + 1) cnt := by
    intro i c hi hc hcn
    unfold Child at hc
    omega
  refine wp_mono (buildHeap_spec hcmp hcnt (cnt / 2) h (by omega) hleaves) ?_
  rintro _ m₁ ⟨hsame, hshuf, hheap⟩
  have htail : Tail compare (elemAt m₁ array size) cnt cnt :=
    ⟨hheap, fun a b _ _ hb hbn => absurd hb (by omega), fun a b ha hab hbn => absurd ha (by omega)⟩
  refine wp_mono (sortHeap_spec hcmp hcnt cnt (h.of_same hsame) (Nat.le_refl _) htail) ?_
  rintro _ m₂ ⟨hsame', hshuf', j, hj, hend⟩
  refine ⟨hsame.trans hsame', (hshuf.trans hshuf').perm, ?_⟩
  rw [arrayElems_eq, List.pairwise_map]
  refine List.pairwise_lt_range.imp_of_mem ?_
  intro a b _ hb hab
  have hb := List.mem_range.mp hb
  exact hend.all hj (by omega) (by omega) (by omega)

end

/-! Indices that wrap. -/

def byteCompare : Compare := fun a b => (a.headD 0).toNat - (b.headD 0).toNat

theorem byteCompare_order : StrcmpOrder byteCompare := by
  constructor
  · intro a b
    unfold byteCompare
    omega
  · intro a b c hab hbc
    unfold byteCompare at *
    omega

/-- An array of bytes at `array`, all zero but for the one with the index `2^31`. -/
def lateByte (array cnt : Nat) (h : 0 < array) : Memory where
  byte := fun x => if x = array + 0x7fffffff then 1 else 0
  good := fun x => decide (array ≤ x) && decide (x < array + cnt)
  null := by simp [Nat.not_le.mpr h]

section
variable {array cnt : Nat} {h : 0 < array}

theorem lateByte_has : (lateByte array cnt h).Has array cnt := by
  intro i hi
  simp [lateByte, hi]

theorem lateByte_array (hfits : array + cnt < sizeMod) :
    ArrayAt (lateByte array cnt h) array cnt 1 :=
  ⟨by rw [Nat.mul_one]; exact lateByte_has, Nat.one_pos, by rwa [Nat.mul_one]⟩

theorem lateByte_largerOf (hfits : array + cnt < sizeMod) {c k : Nat} (hc : 1 ≤ c)
    (hk : 1 ≤ k ∧ k ≤ cnt) : largerOf byteCompare array cnt 1 c k (lateByte array cnt h) =
      some (if c ≤ cnt ∧ c = 0x80000000 then c else k, lateByte array cnt h) := by
  have hat : ∀ {i}, 1 ≤ i → elemAt (lateByte array cnt h) array 1 i =
      [if i = 0x80000000 then 1 else 0] := by
    intro i hi
    simp [elemAt_of_pos hi, Memory.bytes, lateByte]
  have hlarger : larger byteCompare (elemAt (lateByte array cnt h) array 1) cnt c k =
      if c ≤ cnt ∧ c = 0x80000000 then c else k := by
    rw [larger, hat hc, hat hk.1]
    by_cases hc31 : c = 0x80000000
    · by_cases hk31 : k = 0x80000000
      · simp [hc31, hk31]
      · simp [hc31, hk31, byteCompare]
    · by_cases hk31 : k = 0x80000000
      · simp [hc31, hk31, byteCompare]
      · simp [hc31, hk31, byteCompare]
  have hwp : wp (largerOf byteCompare array cnt 1 c k)
      (fun r m' => r = larger byteCompare (elemAt (lateByte array cnt h) array 1) cnt c k ∧
        m' = lateByte array cnt h) (lateByte array cnt h) :=
    (lateByte_array hfits).largerOf (Nat.le_refl cnt) hc hk ⟨rfl, rfl⟩
  obtain ⟨r, m', hm, rfl, rfl⟩ := hwp
  rw [hm, hlarger]

/-- Below the index `2^31` the comparison reads before the array. -/
theorem heapify_stuck {m : Memory} (hgood : m.good (array - 1) = false) (hfits : array < sizeMod)
    (h : 0 < array) (fuel : Nat) : heapify byteCompare array cnt 1 fuel 0x80000000 m = none := by
  cases fuel with
  | zero => rfl
  | succ fuel =>
    have hptr : elemPtr array 0 1 = array - 1 := by
      unfold sizeMod at hfits
      rw [elemPtr, sizeMod]
      omega
    have hload : loadBytes 1 (array - 1) m = none := by
      simp [loadBytes, load, assert, hgood, bind, StateT.bind, get, getThe, MonadStateOf.get,
        StateT.get, pure]
    have hcompare : doCompare byteCompare array 0 0x80000000 1 m = none := by
      rw [doCompare, hptr]
      show (loadBytes 1 (array - 1) m).bind _ = none
      rw [hload]
      rfl
    have hlarger : largerOf byteCompare array cnt 1 (2 * 0x80000000 % sizeMod) 0x80000000 m =
        none := by
      rw [show 2 * 0x80000000 % sizeMod = 0 from rfl, largerOf, if_pos (Nat.zero_le _)]
      show (doCompare byteCompare array 0 0x80000000 1 m).bind _ = none
      rw [hcompare]
      rfl
    rw [heapify]
    show (largerOf byteCompare array cnt 1 (2 * 0x80000000 % sizeMod) 0x80000000 m).bind _ = none
    rw [hlarger]
    rfl

theorem buildHeap_stuck (hfits : array + cnt < sizeMod) (hcnt : 0x80000000 ≤ cnt)
    {Q : Unit → Memory → Prop} : ∀ (i : Nat), 0x40000000 ≤ i → i ≤ cnt / 2 →
    ¬wp (buildHeap byteCompare array cnt 1 i) Q (lateByte array cnt h)
  | 0, hi, _ => absurd hi (by omega)
  | i + 1, hi, hic => by
    intro hwp
    have hmod : sizeMod = 0x100000000 := rfl
    have hleft : 2 * (i + 1) % sizeMod = 2 * (i + 1) := Nat.mod_eq_of_lt (by omega)
    have hright : (2 * (i + 1) + 1) % sizeMod = 2 * (i + 1) + 1 := Nat.mod_eq_of_lt (by omega)
    simp only [buildHeap, heapify, hleft, hright, wp_bind] at hwp
    have hwp := wp_elim hwp (lateByte_largerOf (h := h) hfits (by omega) ⟨by omega, by omega⟩)
    by_cases hlast : i + 1 = 0x40000000
    · -- its left child is greater, and has no good place for a left child of its own
      rw [if_pos (by omega)] at hwp
      have hwp := wp_elim hwp (lateByte_largerOf (h := h) hfits (by omega) ⟨by omega, by omega⟩)
      rw [if_neg (show ¬(2 * (i + 1) + 1 ≤ cnt ∧ 2 * (i + 1) + 1 = 0x80000000) by omega),
        if_neg (by omega), wp_bind] at hwp
      obtain ⟨_, m', hswap, hwp⟩ := hwp
      have hsame := (wp_elim ((lateByte_array (h := h) hfits).doSwap ⟨by omega, by omega⟩
        ⟨by omega, by omega⟩) hswap).1
      have hgood : m'.good (array - 1) = false := by
        rw [hsame.1]
        simp [lateByte, show ¬array ≤ array - 1 by omega]
      obtain ⟨_, _, hm, -⟩ := hwp
      rw [show 2 * (i + 1) = 0x80000000 by omega, heapify_stuck hgood (by omega) h] at hm
      cases hm
    · rw [if_neg (by omega)] at hwp
      have hwp := wp_elim hwp (lateByte_largerOf (h := h) hfits (by omega) ⟨by omega, by omega⟩)
      rw [if_neg (show ¬(2 * (i + 1) + 1 ≤ cnt ∧ 2 * (i + 1) + 1 = 0x80000000) by omega),
        if_pos rfl, wp_pure] at hwp
      exact buildHeap_stuck hfits hcnt i (by omega) (by omega) hwp

theorem sort_stuck (hfits : array + cnt < sizeMod) (hcnt : 0x80000000 ≤ cnt) :
    ¬Sorts byteCompare (lateByte array cnt h) array cnt 1 := by
  intro hsorts
  simp only [Sorts, sort, wp_bind, wp_assert] at hsorts
  exact buildHeap_stuck hfits hcnt (cnt / 2) (by omega) (Nat.le_refl _) hsorts.2.2

end

/-- **Heap sort sorts, as long as there are fewer than `2^31` elements.** From `2^31` on there
    is an array whose first exchange leads to the index `2^31`; twice that is 0, which is less
    than `cnt`, and the place before the array is read. -/
theorem sort_sorts_iff {array cnt size : Nat} (harray : 0 < array) (hsize : 0 < size)
    (hfits : array + cnt * size < sizeMod) :
    (∀ compare, StrcmpOrder compare → ∀ m, m.Has array (cnt * size) →
      Sorts compare m array cnt size) ↔ cnt < 0x80000000 := by
  constructor
  · intro hsorts
    by_contra hcnt
    have hone : size = 1 := by
      by_contra hne
      have hle : cnt * 2 ≤ cnt * size := Nat.mul_le_mul_left cnt (by omega)
      unfold sizeMod at hfits
      omega
    subst hone
    rw [Nat.mul_one] at hfits hsorts
    exact sort_stuck (h := harray) hfits (by omega)
      (hsorts byteCompare byteCompare_order _ lateByte_has)
  · intro hcnt compare hcmp m hm
    exact sort_spec hcmp hcnt ⟨hm, hsize, hfits⟩

/-- Five elements of two bytes; the first byte is the key. -/
def fiveKeys : Memory where
  byte := fun x => [3, 0, 1, 7, 4, 0, 1, 5, 2, 0].getD (x - 0x1000) 0
  good := fun x => decide (0x1000 ≤ x) && decide (x < 0x100a)
  null := rfl

theorem sort_sorts_iff_five :
    arrayElems fiveKeys 0x1000 5 2 = [[3, 0], [1, 7], [4, 0], [1, 5], [2, 0]] ∧
    Sorts byteCompare fiveKeys 0x1000 5 2 := by
  have hhas : fiveKeys.Has 0x1000 (5 * 2) := by
    intro i hi
    simp [fiveKeys]
    omega
  exact ⟨by decide, (sort_sorts_iff (by decide) (by decide) (by decide)).mpr (by decide)
    byteCompare byteCompare_order _ hhas⟩

/-- Two GiB of bytes. -/
theorem sort_reads_before : ¬Sorts byteCompare (lateByte 0x10000000 0x80000000 (by decide))
    0x10000000 0x80000000 1 := sort_stuck (by decide) (by decide)

/-! `binary_search`. -/

section
variable {compare : Compare} (hcmp : StrcmpOrder compare)
include hcmp

theorem StrcmpOrder.lt_of_lt_of_le {a b c : List UInt8} (hab : compare a b < 0)
    (hbc : compare b c ≤ 0) : compare a c < 0 := by
  by_contra hac
  have hca : compare c a ≤ 0 := by
    have := hcmp.flip c a
    omega
  have := hcmp.trans hbc hca
  have := (hcmp.flip b a).mpr hab
  omega

theorem StrcmpOrder.pos_of_pos_of_le {a b c : List UInt8} (hab : 0 < compare a b)
    (hcb : compare c b ≤ 0) : 0 < compare a c := by
  by_contra hac
  have := hcmp.trans (show compare a c ≤ 0 by omega) hcb
  omega

/-- The interval of a search: what is before it is too small, and what is behind it too great. -/
theorem searchLoop_spec {m : Memory} {array cnt size : Nat} (h : ArrayAt m array cnt size)
    {key : List UInt8} (hsorted : ∀ a b, a ≤ b → b < cnt →
      compare (m.bytes (array + a * size) size) (m.bytes (array + b * size) size) ≤ 0) :
    ∀ (fuel : Nat) {lo hi : Nat}, lo ≤ hi → hi ≤ cnt → hi < fuel + lo →
    (∀ i < lo, 0 < compare key (m.bytes (array + i * size) size)) →
    (∀ i, hi ≤ i → i < cnt → compare key (m.bytes (array + i * size) size) < 0) →
    wp (searchLoop compare key size fuel (array + lo * size) (array + hi * size))
      (fun r m' => m' = m ∧ ((∃ i < cnt, r = array + i * size ∧
          compare key (m.bytes (array + i * size) size) = 0) ∨
        (r = 0 ∧ ∀ i < cnt, compare key (m.bytes (array + i * size) size) ≠ 0))) m
  | 0, lo, hi, hle, _, hfuel, _, _ => absurd hfuel (by omega)
  | fuel + 1, lo, hi, hle, hcnt, hfuel, hless, hmore => by
    rw [searchLoop, wp_ite]
    refine ⟨fun hlt => ?_, fun hlt => ?_⟩
    · have hlohi : lo < hi := by
        by_contra hge
        have := Nat.mul_le_mul_right size (show hi ≤ lo by omega)
        omega
      have hrange : (array + hi * size - (array + lo * size)) / size = hi - lo := by
        rw [Nat.add_sub_add_left, ← Nat.sub_mul, Nat.mul_div_cancel _ h.pos]
      have hmid : array + lo * size + (hi - lo) / 2 * size =
          array + (lo + (hi - lo) / 2) * size := by rw [Nat.add_mul]; omega
      obtain ⟨mid, hmid'⟩ : ∃ mid, mid = lo + (hi - lo) / 2 := ⟨_, rfl⟩
      simp only [hrange, hmid, ← hmid', wp_bind]
      have hhas : m.Has (array + mid * size) size := h.has_elem (i := mid + 1) ⟨by omega, by omega⟩
      refine wp_loadBytes hhas ?_
      rw [wp_ite]
      refine ⟨fun hneg => ?_, fun hneg => ?_⟩
      · refine searchLoop_spec h hsorted fuel (by omega) (by omega) (by omega) hless ?_
        intro i hi' hic
        exact StrcmpOrder.lt_of_lt_of_le hcmp hneg (hsorted mid i hi' hic)
      rw [wp_ite]
      refine ⟨fun hpos => ?_, fun hpos => wp_pure.mpr ⟨rfl, .inl ⟨mid, by omega, rfl, by omega⟩⟩⟩
      rw [show array + mid * size + size = array + (mid + 1) * size by rw [Nat.succ_mul]; omega]
      refine searchLoop_spec h hsorted fuel (by omega) hcnt (by omega) ?_ hmore
      intro i hi'
      exact StrcmpOrder.pos_of_pos_of_le hcmp hpos (hsorted i mid (by omega) (by omega))
    · have hge : hi ≤ lo := by
        by_contra hlohi
        have := place_apart size (show lo < hi by omega)
        have := h.pos
        omega
      refine wp_pure.mpr ⟨rfl, .inr ⟨rfl, fun i hi' heq => ?_⟩⟩
      by_cases hil : i < lo
      · have := hless i hil
        omega
      · have := hmore i (by omega) hi'
        omega

end

/-- **Binary search finds an element that compares equal if there is one**, and returns null
    if there is none. -/
theorem binarySearch_complete {compare : Compare} (hcmp : StrcmpOrder compare) {m : Memory}
    {array cnt size : Nat} (h : ArrayAt m array cnt size)
    (hsorted : (arrayElems m array cnt size).Pairwise fun a b => compare a b ≤ 0)
    (key : List UInt8) :
    wp (binarySearch compare key array cnt size) (fun r m' => m' = m ∧
      ((∃ i < cnt, r = array + i * size ∧ r ≠ 0 ∧
          compare key (m.bytes (array + i * size) size) = 0) ∨
        (r = 0 ∧ ∀ i < cnt, compare key (m.bytes (array + i * size) size) ≠ 0))) m := by
  have hord : ∀ a b, a ≤ b → b < cnt →
      compare (m.bytes (array + a * size) size) (m.bytes (array + b * size) size) ≤ 0 := by
    intro a b hab hb
    by_cases heq : a = b
    · subst heq
      exact hcmp.refl _
    · rw [arrayElems, List.pairwise_map] at hsorted
      have hpair := List.pairwise_iff_getElem.mp hsorted a b (by simpa using by omega)
        (by simpa using hb) (by omega)
      simpa using hpair
  have hlast : (array + size * cnt) % sizeMod = array + cnt * size := by
    rw [Nat.mul_comm, Nat.mod_eq_of_lt h.fits]
  have hloop := @searchLoop_spec _ hcmp _ _ _ _ h key hord (cnt + 1) _ _ (Nat.zero_le cnt)
    (Nat.le_refl _) (by omega) (fun i hi => absurd hi (by omega))
    fun i hi hic => absurd hi (by omega)
  rw [Nat.zero_mul, Nat.add_zero] at hloop
  rw [binarySearch, hlast]
  refine wp_mono hloop ?_
  rintro r m' ⟨hm, hr⟩
  refine ⟨hm, hr.imp_left ?_⟩
  rintro ⟨i, hi, hr, heq⟩
  have hne := h.has.ne_zero (Nat.mul_pos (show 0 < cnt by omega) h.pos)
  exact ⟨i, hi, hr, by omega, heq⟩

/-- Four bytes in order, two of them the same. -/
def fourBytes : Memory where
  byte := fun a => if a = 5 then 1 else if a = 6 then 4 else if a = 7 then 4 else 9
  good := fun a => 5 ≤ a && a ≤ 8
  null := rfl

theorem binarySearch_complete_four : wp (binarySearch byteCompare [4] 5 4 1) (fun r m' =>
    m' = fourBytes ∧ ((∃ i < 4, r = 5 + i * 1 ∧ r ≠ 0 ∧
        byteCompare [4] (fourBytes.bytes (5 + i * 1) 1) = 0) ∨
      (r = 0 ∧ ∀ i < 4, byteCompare [4] (fourBytes.bytes (5 + i * 1) 1) ≠ 0))) fourBytes :=
  binarySearch_complete byteCompare_order
    ⟨by unfold Memory.Has; decide, by decide, by decide⟩ (by decide) [4]

end Pintos.Kernel
