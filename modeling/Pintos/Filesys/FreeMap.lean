import Pintos.Filesys.Inode

/- The free map: what allocating and releasing sectors does.

   Each function has one specification, which gives the state it ends in: the map is
   changed as asked, the disk only where the file of the map lies. Where no allocation
   fails the file then holds the map. -/
namespace Pintos.Filesys

open Vm (Buf wordSize)
open Lib

variable {n : InodeDisk} {b : Bitmap} {d e : Disk} {sector : Nat} {size : Int}

/-! Extents. -/

/-- The number of data sectors of an inode. -/
def InodeDisk.sectors (n : InodeDisk) : Nat := bytesToSectors n.length

def InodeDisk.Holds (n : InodeDisk) (sec : Nat) : Prop := n.start ≤ sec ∧ sec < n.start + n.sectors

theorem bytesToSectors_eq (h0 : 0 ≤ size) (h : size ≤ 2147483136) :
    (bytesToSectors size : Int) = (size + 511) / 512 := by
  have hmod : Int.bmod (size + 511) wordSize = size + 511 := by
    rw [Int.bmod_def]
    simp only [wordSize]
    omega
  rw [bytesToSectors, hmod, Int.tdiv_eq_ediv_of_nonneg (by omega), ofInt]
  simp only [wordSize]
  omega

/-- The sum of a size and 511 wraps only where the result is more than any disk has. -/
theorem le_of_bytesToSectors_le (h0 : 0 ≤ size) (h31 : size < 2147483648)
    (hc : bytesToSectors size ≤ 2 ^ 28) : size ≤ 512 * bytesToSectors size := by
  by_cases h : size ≤ 2147483136
  · rw [bytesToSectors_eq h0 h]
    omega
  · have hmod : Int.bmod (size + 511) wordSize = size + 511 - wordSize := by
      rw [Int.bmod_def]
      simp only [wordSize]
      omega
    have hdiv : (Int.bmod (size + 511) wordSize).tdiv 512 = -((wordSize - (size + 511)) / 512) := by
      grind [wordSize]
    rw [bytesToSectors, hdiv, ofInt] at hc
    simp only [wordSize] at hc
    omega

/-! Writing the map. -/

/-- The addresses of the bytes of an inode. -/
def InodeDisk.Data (n : InodeDisk) (a : Nat) : Prop :=
  sectorSize * n.start ≤ a ∧ (a : Int) < ((sectorSize * n.start : Nat) : Int) + n.length

/-- Nothing is written outside the data of an inode. -/
structure SameOff (n : InodeDisk) (d e : Disk) : Prop where
  capacity : e.capacity = d.capacity
  byte : ∀ a, ¬n.Data a → e.byte a = d.byte a

theorem SameOff.refl (n : InodeDisk) (d : Disk) : SameOff n d d := ⟨rfl, fun _ _ => rfl⟩

theorem SameOff.trans {f : Disk} (h₁ : SameOff n d e) (h₂ : SameOff n e f) : SameOff n d f :=
  ⟨h₂.capacity.trans h₁.capacity, fun a ha => (h₂.byte a ha).trans (h₁.byte a ha)⟩

theorem SameOff.patch {size offset k : Nat} {heap : Heap} (hk : Count n size offset heap k)
    (d : Disk) (buffer : Buf) : SameOff n d (d.patch (sectorSize * n.start + offset) k buffer) := by
  refine ⟨rfl, fun a ha => ?_⟩
  have hle := hk.le
  rw [InodeDisk.inFile] at hle
  rw [InodeDisk.Data] at ha
  rw [Disk.patch_byte, if_neg (by omega)]

/-- The file with inode `n` holds the map. -/
def Stored (n : InodeDisk) (d : Disk) (b : Bitmap) : Prop :=
  ∀ i < byteCnt b.bitCnt, n.bytes d 0 i = b.toBuf i

/-! What the file of the map holds. -/

theorem Bitmap.word_toBuf (b : Bitmap) (e : Nat) : word b.toBuf (4 * e) = (b.bits e).toNat := by
  refine word_eq (fun j hj => ?_) (b.bits e).isLt
  have hdiv : (4 * e + j) / 4 = e := by omega
  have hmod : (4 * e + j) % 4 = j := by omega
  rw [toBuf, hdiv, hmod]

/-- The bits in use, as they are read from the file. -/
def Agrees (n : InodeDisk) (d : Disk) (b : Bitmap) : Prop :=
  ∀ i < b.bitCnt, (Bitmap.ofBuf b.bitCnt (n.bytes d 0)).bit i = b.bit i

/-- The bits of the last element that are not in use are clear. -/
def Bitmap.Trim (b : Bitmap) : Prop :=
  ∀ i, b.bitCnt ≤ i → i < elemBits * elemCnt b.bitCnt → b.bit i = false

/-- The map in memory is the one in the file. -/
structure Synced (n : InodeDisk) (d : Disk) (b : Bitmap) : Prop where
  trim : b.Trim
  agrees : Agrees n d b

theorem ofBuf_bit_congr {c c' : Buf} {bitCnt i : Nat} (hi : i < bitCnt)
    (h : ∀ j < byteCnt bitCnt, c j = c' j) :
    (Bitmap.ofBuf bitCnt c).bit i = (Bitmap.ofBuf bitCnt c').bit i := by
  have hlt : 4 * elemIdx i + 3 < byteCnt bitCnt := by
    have := elemIdx_lt hi
    simp only [byteCnt]
    omega
  simp only [Bitmap.bit, Bitmap.ofBuf, word, h _ (show 4 * elemIdx i < _ by omega),
    h _ (show 4 * elemIdx i + 1 < _ by omega), h _ (show 4 * elemIdx i + 2 < _ by omega), h _ hlt]

theorem Stored.agrees (h : Stored n d b) : Agrees n d b := by
  intro i hi
  rw [ofBuf_bit_congr hi h]
  simp only [Bitmap.bit, Bitmap.ofBuf, Bitmap.word_toBuf, BitVec.ofNat_toNat, BitVec.setWidth_eq]

theorem Synced.refill {start cnt : Nat} {value : Bool} (h : Synced n d b)
    (hle : start + cnt ≤ b.bitCnt) (hst : Stored n e (b.fill start cnt value)) :
    Synced n e (b.fill start cnt value) := by
  refine ⟨fun i hi hlt => ?_, hst.agrees⟩
  rw [Bitmap.fill_bitCnt] at hi hlt
  rw [Bitmap.fill_bit, if_neg (by omega)]
  exact h.trim i hi hlt

theorem Agrees.congr (h : Agrees n d b) (hsize : n.length = byteCnt b.bitCnt)
    (hbyte : ∀ a, n.Data a → e.byte a = d.byte a) : Agrees n e b := by
  intro i hi
  rw [← h i hi]
  refine ofBuf_bit_congr hi fun j hj => hbyte _ ?_
  simp only [InodeDisk.Data, Nat.add_zero]
  omega

theorem Synced.congr (h : Synced n d b) (hsize : n.length = byteCnt b.bitCnt)
    (hbyte : ∀ a, n.Data a → e.byte a = d.byte a) : Synced n e b :=
  ⟨h.trim, h.agrees.congr hsize hbyte⟩

/-- The file of the free map is open, on the disk and as long as the map is. -/
structure MapFile (fs : Fs) (file : Nat) (m : Inode) : Prop where
  handle : ∃ f, fs.files file = some f ∧ f.inode = freeMapSector
  inode : fs.openInodes freeMapSector = some m
  onDisk : m.data.OnDisk fs.disk.capacity
  allowed : m.denyWriteCnt = 0
  size : m.data.length = byteCnt fs.freeMap.bitCnt

section Map
variable {fs : Fs} {file : Nat} {m : Inode}

theorem bitmapWrite_spec (hm : MapFile fs file m) :
    wp (bitmapWrite file) (fun ok fs' => ∃ d h, fs' = { fs with disk := d, heap := h } ∧
      SameOff m.data fs.disk d ∧ Later fs.heap h ∧ (Bounces fs.heap → ok = true) ∧
      (ok = true → Stored m.data d fs.freeMap)) fs := by
  obtain ⟨f, hf, hi⟩ := hm.handle
  simp only [bitmapWrite, fileWriteAt, wp_bind, wp_get, wp_follow]
  refine ⟨f, hf, ?_⟩
  rw [hi]
  refine wp_mono (inodeWriteAt_spec hm.inode hm.onDisk hm.allowed _ _ 0) ?_
  rintro k fs' ⟨h, rfl, hk⟩
  refine wp_pure.mpr ⟨_, h, rfl, SameOff.patch hk.countOf _ _, hk.later, fun hp => ?_, ?_⟩
  · have hall := hk.countOf.all hp
    rw [InodeDisk.inFile, hm.size] at hall
    exact decide_eq_true (by omega)
  · intro hok i hi
    rw [m.data.bytes_patch, if_pos (by have := of_decide_eq_true hok; omega), Nat.sub_zero]

theorem MapFile.congr {fs' : Fs} (hm : MapFile fs file m) (hfiles : fs'.files = fs.files)
    (hinode : fs'.openInodes freeMapSector = fs.openInodes freeMapSector)
    (hcap : fs'.disk.capacity = fs.disk.capacity)
    (hsize : fs'.freeMap.bitCnt = fs.freeMap.bitCnt) : MapFile fs' file m :=
  ⟨by rw [hfiles]; exact hm.handle, hinode.trans hm.inode, hcap ▸ hm.onDisk, hm.allowed,
    by rw [hsize]; exact hm.size⟩

/-- Sectors that were free and have been taken are free again. -/
theorem Bitmap.fill_undo {start cnt : Nat} (h : b.Run start cnt false) :
    (b.fill start cnt true).fill start cnt false = b := by
  refine ext_bit (by simp only [fill_bitCnt]) fun i => ?_
  simp only [fill_bit]
  by_cases hi : start ≤ i ∧ i < start + cnt
  · rw [if_pos hi, ← h (i - start) (by omega)]
    congr 1
    omega
  · rw [if_neg hi, if_neg hi]

def Bitmap.taken (b : Bitmap) (cnt : Nat) : Option Nat → Bitmap
  | none => b
  | some sec => b.fill sec cnt true

/-- `free_map_allocate` with the file of the map open: the first run of free sectors is
    taken, or nothing changes but the disk where the map lies. -/
theorem freeMapAllocate_spec (hfile : fs.freeMapFile = some file) (hm : MapFile fs file m)
    (hcap : fs.freeMap.bitCnt = fs.disk.capacity) (cnt : Nat) :
    wp (freeMapAllocate cnt) (fun r fs' => ∃ d h,
      fs' = { fs with disk := d, heap := h, freeMap := fs.freeMap.taken cnt r } ∧
      SameOff m.data fs.disk d ∧ Later fs.heap h ∧
      (r.isSome → fs.freeMap.FirstRun cnt false r ∧ Stored m.data d (fs.freeMap.taken cnt r)) ∧
      (Bounces fs.heap → fs.freeMap.FirstRun cnt false r ∧ (r = none → d = fs.disk))) fs := by
  have hsize : fs.freeMap.bitCnt < wordSize := by
    have := fs.disk.lba28
    simp only [wordSize]
    omega
  obtain ⟨r, hfirst, hscan⟩ := bitmapScanAndFlip_spec hsize cnt false
  simp only [freeMapAllocate, wp_bind, wp_get, wp_follow, setFreeMap, wp_modify]
  refine ⟨_, hscan, ?_⟩
  cases r with
  | none =>
    exact wp_pure.mpr ⟨fs.disk, fs.heap, rfl, .refl _ _, .refl _, fun hr => (by cases hr),
      fun _ => ⟨hfirst, fun _ => rfl⟩⟩
  | some sec =>
    simp only [hfile, wp_bind]
    refine wp_mono (bitmapWrite_spec (hm.congr rfl rfl rfl (Bitmap.fill_bitCnt ..))) ?_
    rintro ok fs' ⟨d, h, rfl, hoff, hlater, hok, hstored⟩
    cases ok with
    | true =>
      exact wp_pure.mpr ⟨d, h, rfl, hoff, hlater, fun _ => ⟨hfirst, hstored rfl⟩,
        fun _ => ⟨hfirst, fun hr => by cases hr⟩⟩
    | false =>
      simp only [Bool.false_eq_true, if_false, wp_bind, wp_follow, wp_modify, wp_pure]
      refine ⟨_, bitmapSetMultiple_eq (by rw [Bitmap.fill_bitCnt]; exact hsize)
        (by rw [Bitmap.fill_bitCnt]; exact hfirst.1) false, d, h, ?_, hoff, hlater,
        fun hr => (by cases hr), fun hp => absurd (hok hp) (by decide)⟩
      simp only [Bool.not_false, Bitmap.fill_undo hfirst.2.1, Bitmap.taken]

theorem freeMapAllocate_noFile (hfile : fs.freeMapFile = none)
    (hcap : fs.freeMap.bitCnt = fs.disk.capacity) (cnt : Nat) :
    wp (freeMapAllocate cnt) (fun r fs' => fs' = { fs with freeMap := fs.freeMap.taken cnt r } ∧
      fs.freeMap.FirstRun cnt false r) fs := by
  have hsize : fs.freeMap.bitCnt < wordSize := by
    have := fs.disk.lba28
    simp only [wordSize]
    omega
  obtain ⟨r, hfirst, hscan⟩ := bitmapScanAndFlip_spec hsize cnt false
  simp only [freeMapAllocate, wp_bind, wp_get, wp_follow, setFreeMap, wp_modify]
  refine ⟨_, hscan, ?_⟩
  cases r with
  | none => exact wp_pure.mpr ⟨rfl, hfirst⟩
  | some sec =>
    simp only [hfile, wp_pure]
    exact ⟨rfl, hfirst⟩

section
variable (hfile : fs.freeMapFile = some file) (hm : MapFile fs file m)
  (hcap : fs.freeMap.bitCnt = fs.disk.capacity) {sec cnt : Nat}
include hfile hm hcap

theorem freeMapRelease_spec (hle : sec + cnt ≤ fs.disk.capacity)
    (hrun : fs.freeMap.Run sec cnt true) : wp (freeMapRelease sec cnt) (fun _ fs' => ∃ d h,
      fs' = { fs with disk := d, heap := h, freeMap := fs.freeMap.fill sec cnt false } ∧
      SameOff m.data fs.disk d ∧ Later fs.heap h ∧
      (Bounces fs.heap → Stored m.data d (fs.freeMap.fill sec cnt false))) fs := by
  have hsize : fs.freeMap.bitCnt < wordSize := by
    have := fs.disk.lba28
    simp only [wordSize]
    omega
  rw [← hcap] at hle
  simp only [freeMapRelease, wp_bind, wp_get, wp_follow, setFreeMap, wp_modify, wp_assert, hfile,
    bitmapAll_eq hsize hle hrun, bitmapSetMultiple_eq hsize hle, Option.some.injEq,
    exists_eq_left', true_and]
  show wp (bitmapWrite file >>= fun _ => pure ()) _ _
  rw [wp_bind]
  refine wp_mono (bitmapWrite_spec (hm.congr rfl rfl rfl (Bitmap.fill_bitCnt ..))) ?_
  rintro ok fs' ⟨d, h, rfl, hoff, hlater, hok, hstored⟩
  exact wp_pure.mpr ⟨d, h, rfl, hoff, hlater, fun hp => hstored (hok hp)⟩

/-- `free_map_release` of any sectors: it may fail an `ASSERT`, but writes nothing other
    than the map. -/
theorem freeMapRelease_frame {P : Prop}
    (hP : P → sec + cnt ≤ fs.disk.capacity ∧ fs.freeMap.Run sec cnt true) :
    wpIf P (freeMapRelease sec cnt) (fun _ fs' => ∃ d h b,
      fs' = { fs with disk := d, heap := h, freeMap := b } ∧ b.bitCnt = fs.freeMap.bitCnt ∧
      SameOff m.data fs.disk d ∧ Later fs.heap h ∧
      (P → b = fs.freeMap.fill sec cnt false)) fs := by
  have hsize : fs.freeMap.bitCnt < wordSize := by
    have := fs.disk.lba28
    simp only [wordSize]
    omega
  rw [← hcap] at hP
  simp only [freeMapRelease, wpIf_bind, wpIf_get, wpIf_follow, wpIf_assert, setFreeMap, wpIf_modify,
    hfile]
  refine ⟨fun all hall => ⟨fun _ => ⟨fun b hb => ⟨fun f hf => ?_, fun _ => rfl⟩, fun h => ?_⟩,
    fun h => ?_⟩, fun h => ?_⟩
  · cases hf
    have hcnt := bitmapSetMultiple_bitCnt hb
    show wpIf P (bitmapWrite file >>= fun _ => pure ()) _ _
    rw [wpIf_bind]
    refine wpIf_of_wp (wp_mono (bitmapWrite_spec (hm.congr rfl rfl rfl hcnt)) ?_)
    rintro ok fs' ⟨d, h, rfl, hoff, hlater, -, -⟩
    refine wpIf_pure.mpr ⟨d, h, b, rfl, hcnt, hoff, hlater, fun h => ?_⟩
    rw [bitmapSetMultiple_eq hsize (hP h).1, Option.some.injEq] at hb
    exact hb.symm
  · rw [bitmapSetMultiple_eq hsize (hP h).1]
    rfl
  · grind [bitmapAll_eq]
  · rw [bitmapAll_eq hsize (hP h).1 (hP h).2]
    rfl

end

end Map

/-! New inodes. -/

instance (n : InodeDisk) (sec : Nat) : Decidable (n.Holds sec) :=
  inferInstanceAs (Decidable (_ ∧ _))

/-- The inode `n` in a sector of a disk. -/
def Disk.inodeAt (d : Disk) (sector : Nat) : InodeDisk :=
  .decode fun i => d.byte (sectorSize * sector + i)

/-- An inode with data sectors of zeros has been made in `sector`. -/
structure Made (sector : Nat) (n : InodeDisk) (d e : Disk) : Prop where
  capacity : e.capacity = d.capacity
  byte : ∀ a, e.byte a = if n.Holds (a / sectorSize) then 0
    else if a / sectorSize = sector then n.encode (a % sectorSize) else d.byte a

theorem Made.inodeAt (h : Made sector n d e) (hself : ¬n.Holds sector) (hs : n.start < wordSize)
    (h0 : 0 ≤ n.length) (h31 : n.length < 2147483648) (hm : n.magic = inodeMagic) :
    e.inodeAt sector = n := by
  have hdec := InodeDisk.decode_encode hs (by omega) h31 (by rw [hm]; decide)
  refine (InodeDisk.decode_congr fun i hi => ?_).trans hdec
  have hdiv : (sectorSize * sector + i) / sectorSize = sector := by
    rw [sectorSize] at hi ⊢
    omega
  have hmod : (sectorSize * sector + i) % sectorSize = i := by
    rw [sectorSize] at hi ⊢
    omega
  simp only [h.byte, hdiv, hmod, hself, if_false, if_true]

theorem zeroSectors_spec (cnt sec : Nat) (fs : Fs) (h : sec + cnt ≤ fs.disk.capacity) :
    wp (zeroSectors cnt sec) (fun _ fs' => ∃ d, fs' = { fs with disk := d } ∧
      d.capacity = fs.disk.capacity ∧ ∀ a, d.byte a =
        if sec ≤ a / sectorSize ∧ a / sectorSize < sec + cnt then 0 else fs.disk.byte a) fs := by
  induction cnt generalizing sec fs with
  | zero => exact wp_pure.mpr ⟨fs.disk, rfl, rfl, fun a => by rw [if_neg (by omega)]⟩
  | succ cnt ih =>
    have hlba := fs.disk.lba28
    rw [zeroSectors, wp_bind, Nat.mod_eq_of_lt (by simp only [wordSize]; omega),
      wp_diskWrite (by omega)]
    refine wp_mono (ih (sec + 1) _ (by rw [Disk.write_capacity]; omega)) ?_
    rintro - fs' ⟨d, rfl, hcap, hbyte⟩
    refine ⟨d, rfl, hcap, fun a => ?_⟩
    simp only [hbyte, Disk.write_byte]
    by_cases h₁ : sec + 1 ≤ a / sectorSize ∧ a / sectorSize < sec + 1 + cnt
    · rw [if_pos h₁, if_pos (by omega)]
    · grind

/-- `inode_create`, from what the allocation of its data sectors does. -/
theorem inodeCreate_spec {fs : Fs} {length : Int} {A : Option Nat → Fs → Prop} (hlen : 0 ≤ length)
    (hsec : sector < fs.disk.capacity)
    (halloc : ∀ h, Later fs.heap h → wp (freeMapAllocate (bytesToSectors length)) A { fs with heap := h })
    (hA : ∀ start fs₁, A (some start) fs₁ → fs₁.disk.capacity = fs.disk.capacity ∧
      start + bytesToSectors length ≤ fs.disk.capacity) :
    wp (inodeCreate sector length) (fun ok fs' =>
      (ok = false ∧ ((∃ h, fs' = { fs with heap := h } ∧ Later fs.heap h ∧ ¬Plenty fs.heap) ∨ A none fs')) ∨
      (ok = true ∧ ∃ start fs₁ d, A (some start) fs₁ ∧ fs' = { fs₁ with disk := d } ∧
        Made sector ⟨start, length, inodeMagic⟩ fs₁.disk d)) fs := by
  simp only [inodeCreate, wp_bind, wp_assert, decide_eq_true_eq, hlen, true_and, wp_malloc]
  cases h0 : fs.heap.structs 0 with
  | false =>
    simp only [Bool.false_eq_true, if_false, wp_pure]
    exact Or.inl ⟨trivial, Or.inl ⟨_, rfl, .nextStruct _, fun hp => by simp [hp.1 0] at h0⟩⟩
  | true =>
    simp only [if_true, wp_bind]
    refine wp_mono (halloc _ (.nextStruct _)) ?_
    intro r fs₁ hr
    cases r with
    | none => exact wp_pure.mpr (Or.inl ⟨rfl, Or.inr hr⟩)
    | some start =>
      obtain ⟨hcap, hle⟩ := hA start fs₁ hr
      simp only [wp_bind]
      rw [wp_diskWrite (by omega)]
      refine wp_mono (zeroSectors_spec _ _ _ (by rw [Disk.write_capacity]; omega)) ?_
      rintro - fs' ⟨d, rfl, hd, hbyte⟩
      refine wp_pure.mpr (Or.inr ⟨rfl, start, fs₁, d, hr, rfl, hd, fun a => ?_⟩)
      simp only [hbyte, Disk.write_byte]
      rfl

end Pintos.Filesys
