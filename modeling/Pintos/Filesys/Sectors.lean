import Pintos.Filesys.State

/- Reading and writing inodes, sector by sector.

   `inode_read_at` and `inode_write_at` go through a file in chunks. A chunk that is
   a whole sector goes straight between the disk and the caller's buffer, any other
   goes through a bounce buffer, which is allocated at the first need; where that
   fails the loop ends. The results below say that all this is a copy between the
   buffer and one contiguous run of bytes of the disk.

   Correspondence (C ↔ Lean):
     `disk_read`, `disk_write`                 ↔ `diskRead`, `diskWrite`
     `byte_to_sector`                          ↔ `byteToSector`
     the loops of the two functions            ↔ `readLoop`, `writeLoop`
     `inode_read_at`, `inode_write_at`         ↔ `inodeReadAt`, `inodeWriteAt`
   Sizes and offsets are not negative and no sum in the loops goes past the end of the
   file, so they are natural numbers. -/
namespace Pintos.Filesys

open Vm (Buf wordSize)
open Lib

/-! The disk. -/

def Disk.write (d : Disk) (sec : Nat) (buf : Buf) : Disk :=
  { d with sector := Function.update d.sector sec fun j => buf j }

def diskRead (sec : Nat) : FsM Buf := fun fs =>
  if sec < fs.disk.capacity then some (fun i => fs.disk.byte (sectorSize * sec + i), fs) else none

def diskWrite (sec : Nat) (buf : Buf) : FsM Unit := fun fs =>
  if sec < fs.disk.capacity then some ((), { fs with disk := fs.disk.write sec buf }) else none

/-- The disk with `k` bytes from address `lo` on taken from `f`. -/
def Disk.patch (d : Disk) (lo k : Nat) (f : Buf) : Disk :=
  { d with sector := fun sec j =>
      let a := sectorSize * sec + j
      if lo ≤ a ∧ a < lo + k then f (a - lo) else d.sector sec j }

/-- `memcpy` of `k` bytes from `src` to offset `i` of `dst`. -/
def memcpy (dst : Buf) (i : Nat) (src : Buf) (k : Nat) : Buf := fun a =>
  if i ≤ a ∧ a < i + k then src (a - i) else dst a

/-! The loops. -/

def byteToSector (n : InodeDisk) (pos : Nat) : Nat :=
  if (pos : Int) < n.length then (n.start + pos / sectorSize) % wordSize else wordSize - 1

def InodeDisk.left (n : InodeDisk) (offset : Nat) : Nat := (n.length - offset).toNat

/-- The bytes one turn moves: bounded by the request, the file and the sector. -/
def chunkSize (n : InodeDisk) (size offset : Nat) : Nat :=
  min size (min (n.left offset) (sectorSize - offset % sectorSize))

/-- The bounce buffer, allocated when it is first needed. -/
def getBounce (bounce : Bool) : FsM Bool := if bounce then pure true else mallocBounce

/-- The loop of `inode_read_at`. Every turn moves a byte, so `size` turns do. -/
def readLoop (n : InodeDisk) : (turns size offset bytesRead : Nat) → (bounce : Bool) → Buf →
    FsM (Nat × Buf)
  | 0, _, _, bytesRead, _, buffer => pure (bytesRead, buffer)
  | turns + 1, size, offset, bytesRead, bounce, buffer =>
    let chunk := chunkSize n size offset
    if chunk = 0 then pure (bytesRead, buffer)
    else if offset % sectorSize = 0 ∧ chunk = sectorSize then do
      let sec ← diskRead (byteToSector n offset)
      readLoop n turns (size - chunk) (offset + chunk) (bytesRead + chunk) bounce
        (memcpy buffer bytesRead sec sectorSize)
    else do
      if ← getBounce bounce then
        let sec ← diskRead (byteToSector n offset)
        readLoop n turns (size - chunk) (offset + chunk) (bytesRead + chunk) true
          (memcpy buffer bytesRead (fun i => sec (offset % sectorSize + i)) chunk)
      else return (bytesRead, buffer)

/-- The contents of the bounce buffer before a chunk is copied to it: the sector,
    unless the chunk fills it. -/
def fillBounce (sec offset chunk : Nat) : FsM Buf :=
  if offset % sectorSize > 0 ∨ chunk < sectorSize - offset % sectorSize then diskRead sec
  else pure fun _ => 0

def writeLoop (n : InodeDisk) (buffer : Buf) : (turns size offset bytesWritten : Nat) →
    (bounce : Bool) → FsM Nat
  | 0, _, _, bytesWritten, _ => pure bytesWritten
  | turns + 1, size, offset, bytesWritten, bounce =>
    let chunk := chunkSize n size offset
    if chunk = 0 then pure bytesWritten
    else if offset % sectorSize = 0 ∧ chunk = sectorSize then do
      diskWrite (byteToSector n offset) fun i => buffer (bytesWritten + i)
      writeLoop n buffer turns (size - chunk) (offset + chunk) (bytesWritten + chunk) bounce
    else do
      if ← getBounce bounce then
        let sec ← fillBounce (byteToSector n offset) offset chunk
        diskWrite (byteToSector n offset)
          (memcpy sec (offset % sectorSize) (fun i => buffer (bytesWritten + i)) chunk)
        writeLoop n buffer turns (size - chunk) (offset + chunk) (bytesWritten + chunk) true
      else return bytesWritten

/-- `inode_read_at`: the number of bytes read, and the buffer. -/
def inodeReadAt (inode : Nat) (buffer : Buf) (size offset : Nat) : FsM (Nat × Buf) := do
  let n ← follow ((← get).openInodes inode)
  readLoop n.data size size offset 0 false buffer

/-- `inode_write_at`: the number of bytes written. -/
def inodeWriteAt (inode : Nat) (buffer : Buf) (size offset : Nat) : FsM Nat := do
  let n ← follow ((← get).openInodes inode)
  if n.denyWriteCnt = 0 then writeLoop n.data buffer size size offset 0 false else return 0

/-! The disk as bytes. -/

theorem Disk.ext_byte {d e : Disk} (hcap : d.capacity = e.capacity) (h : ∀ a, d.byte a = e.byte a) :
    d = e := by
  obtain ⟨c, hc, s⟩ := d
  obtain ⟨c', hc', s'⟩ := e
  cases hcap
  have hs : s = s' := by
    funext sec j
    have hb := h (sectorSize * sec + j)
    have hj : (j : Nat) < 512 := j.2
    have hdiv : (sectorSize * sec + j) / sectorSize = sec := by
      simp only [sectorSize]; omega
    have hmod : (sectorSize * sec + j) % sectorSize = j := by
      simp only [sectorSize]; omega
    simp only [byte, hdiv, hmod] at hb
    exact hb
  rw [hs]

@[simp] theorem Disk.write_capacity (d : Disk) (sec : Nat) (buf : Buf) :
    (d.write sec buf).capacity = d.capacity := rfl

theorem Disk.write_byte (d : Disk) (sec : Nat) (buf : Buf) (a : Nat) :
    (d.write sec buf).byte a = if a / sectorSize = sec then buf (a % sectorSize) else d.byte a := by
  simp only [byte, write]
  by_cases h : a / sectorSize = sec
  · simp [h]
  · simp [h]

theorem Disk.patch_byte (d : Disk) (lo k : Nat) (f : Buf) (a : Nat) :
    (d.patch lo k f).byte a = if lo ≤ a ∧ a < lo + k then f (a - lo) else d.byte a := by
  have ha : sectorSize * (a / sectorSize) + a % sectorSize = a := Nat.div_add_mod a sectorSize
  simp only [byte, patch, ha]

@[simp] theorem Disk.patch_zero (d : Disk) (lo : Nat) (f : Buf) : d.patch lo 0 f = d := by
  refine ext_byte rfl fun a => ?_
  rw [patch_byte, if_neg (by omega)]

theorem Disk.patch_patch (d : Disk) (lo k k' : Nat) (f : Buf) :
    (d.patch lo k f).patch (lo + k) k' (fun i => f (k + i)) = d.patch lo (k + k') f := by
  refine ext_byte rfl fun a => ?_
  simp only [patch_byte]
  by_cases h₁ : lo + k ≤ a ∧ a < lo + k + k'
  · rw [if_pos h₁, if_pos (by omega)]
    congr 1
    omega
  · grind

theorem memcpy_zero (dst : Buf) (i : Nat) (src : Buf) : memcpy dst i src 0 = dst := by
  funext a
  rw [memcpy, if_neg (by omega)]

theorem memcpy_memcpy (dst : Buf) (i : Nat) (src : Buf) (k k' : Nat) :
    memcpy (memcpy dst i src k) (i + k) (fun j => src (k + j)) k' = memcpy dst i src (k + k') := by
  funext a
  simp only [memcpy]
  by_cases h₁ : i + k ≤ a ∧ a < i + k + k'
  · rw [if_pos h₁, if_pos (by omega)]
    congr 1
    omega
  · rw [if_neg h₁]
    by_cases h₂ : i ≤ a ∧ a < i + k
    · rw [if_pos h₂, if_pos (by omega)]
    · rw [if_neg h₂, if_neg (by omega)]

/-! How many bytes are moved. -/

/-- Every bounce buffer to come is allocated. -/
def Bounces (heap : Heap) : Prop := ∀ n, heap.bounces n = true

/-- Every allocation to come succeeds. -/
def Plenty (heap : Heap) : Prop := (∀ n, heap.structs n = true) ∧ Bounces heap

/-- What succeeds from now on also succeeds later. -/
structure Later (heap heap' : Heap) : Prop where
  plenty : Plenty heap → Plenty heap'
  bounces : Bounces heap → Bounces heap'

theorem Later.refl (heap : Heap) : Later heap heap := ⟨id, id⟩

theorem Later.trans {heap₁ heap₂ heap₃ : Heap} (h₁ : Later heap₁ heap₂) (h₂ : Later heap₂ heap₃) :
    Later heap₁ heap₃ := ⟨h₂.plenty ∘ h₁.plenty, h₂.bounces ∘ h₁.bounces⟩

theorem Later.nextStruct (heap : Heap) : Later heap heap.nextStruct :=
  ⟨fun h => ⟨fun n => h.1 (n + 1), h.2⟩, id⟩

theorem Later.nextBounce (heap : Heap) : Later heap heap.nextBounce :=
  ⟨fun h => ⟨h.1, fun n => h.2 (n + 1)⟩, fun h n => h (n + 1)⟩

theorem Later.of_not {heap heap' : Heap} (h : ¬Bounces heap) : Later heap heap' :=
  ⟨fun hp => absurd hp.2 h, fun hb => absurd hb h⟩

/-- The bytes of the request that the file has. -/
def InodeDisk.want (n : InodeDisk) (size offset : Nat) : Nat := min size (n.left offset)

/-- The bytes of the request before the first that needs the bounce buffer. -/
def InodeDisk.direct (n : InodeDisk) (size offset : Nat) : Nat :=
  if offset % sectorSize = 0 then n.want size offset / sectorSize * sectorSize else 0

/-- A loop that moved `k` bytes moved all, or stopped where it needed a bounce buffer
    and got none. -/
structure Moved (n : InodeDisk) (size offset : Nat) (bounce : Bool) (heap heap' : Heap)
    (k : Nat) : Prop where
  count : k = n.want size offset ∨
    (bounce = false ∧ k = n.direct size offset ∧ ¬Bounces heap)
  later : Later heap heap'

section Moved
variable {n : InodeDisk} {size offset k : Nat} {bounce : Bool} {heap heap₁ heap' : Heap}

theorem Moved.stop (h : chunkSize n size offset = 0) : Moved n size offset bounce heap heap 0 := by
  refine ⟨Or.inl ?_, .refl heap⟩
  simp only [chunkSize, InodeDisk.want, sectorSize] at h ⊢
  omega

theorem Moved.fail (hd : ¬(offset % sectorSize = 0 ∧ chunkSize n size offset = sectorSize))
    (hb : bounce = false) (hh : heap.bounces 0 = false) : Moved n size offset bounce heap heap₁ 0 := by
  have hno : ¬Bounces heap := fun hp => by simp [hp 0] at hh
  refine ⟨Or.inr ⟨hb, ?_, hno⟩, .of_not hno⟩
  simp only [InodeDisk.direct]
  by_cases ho : offset % sectorSize = 0
  · grind [chunkSize, InodeDisk.want, sectorSize]
  · rw [if_neg ho]

theorem Moved.next (h : Moved n (size - chunkSize n size offset)
      (offset + chunkSize n size offset) true heap₁ heap' k)
    (hp : Later heap heap₁) :
    Moved n size offset bounce heap heap' (chunkSize n size offset + k) := by
  refine ⟨Or.inl ?_, hp.trans h.later⟩
  have hk : k = _ := h.count.resolve_right fun hc => by cases hc.1
  simp only [chunkSize, InodeDisk.want, InodeDisk.left, sectorSize] at hk ⊢
  omega

theorem Moved.nextDirect (hd : offset % sectorSize = 0 ∧ chunkSize n size offset = sectorSize)
    (h : Moved n (size - chunkSize n size offset)
      (offset + chunkSize n size offset) bounce heap heap' k) :
    Moved n size offset bounce heap heap' (chunkSize n size offset + k) := by
  obtain ⟨ho, hc⟩ := hd
  refine ⟨?_, h.later⟩
  rw [hc] at h ⊢
  have hw : n.want size offset = sectorSize + n.want (size - sectorSize) (offset + sectorSize) := by
    grind [chunkSize, InodeDisk.want, InodeDisk.left]
  have ho' : (offset + sectorSize) % sectorSize = 0 := by
    rw [Nat.add_mod_right]
    exact ho
  have hdir : n.direct size offset =
      sectorSize + n.direct (size - sectorSize) (offset + sectorSize) := by
    rw [InodeDisk.direct, InodeDisk.direct, if_pos ho, if_pos ho', hw,
      Nat.add_div_left _ (by decide), Nat.succ_mul, Nat.add_comm]
  obtain hk | ⟨hb, hk, hp⟩ := h.count
  · exact Or.inl (by rw [hw, hk])
  · exact Or.inr ⟨hb, by rw [hdir, hk], hp⟩

end Moved

/-! One turn of a loop. -/

def InodeDisk.OnDisk (n : InodeDisk) (capacity : Nat) : Prop :=
  ∀ i : Nat, (i : Int) < n.length → n.start + i / sectorSize < capacity

theorem wp_malloc {Q : Bool → Fs → Prop} {fs : Fs} :
    wp malloc Q fs ↔ Q (fs.heap.structs 0) { fs with heap := fs.heap.nextStruct } := by
  constructor
  · rintro ⟨a, t, h, hq⟩
    cases h
    exact hq
  · exact fun hq => ⟨_, _, rfl, hq⟩

theorem wp_diskRead {Q : Buf → Fs → Prop} {fs : Fs} {sec : Nat} (h : sec < fs.disk.capacity) :
    wp (diskRead sec) Q fs ↔ Q (fun i => fs.disk.byte (sectorSize * sec + i)) fs := by
  constructor
  · rintro ⟨a, t, hr, hq⟩
    rw [diskRead, if_pos h] at hr
    cases hr
    exact hq
  · exact fun hq => ⟨_, _, if_pos h, hq⟩

theorem wp_diskWrite {Q : Unit → Fs → Prop} {fs : Fs} {sec : Nat} {buf : Buf}
    (h : sec < fs.disk.capacity) :
    wp (diskWrite sec buf) Q fs ↔ Q () { fs with disk := fs.disk.write sec buf } := by
  constructor
  · rintro ⟨a, t, hr, hq⟩
    rw [diskWrite, if_pos h] at hr
    cases hr
    exact hq
  · exact fun hq => ⟨_, _, if_pos h, hq⟩

theorem wp_getBounce {Q : Bool → Fs → Prop} {fs : Fs} {bounce : Bool}
    (hok : ∀ h, Later fs.heap h → Q true { fs with heap := h })
    (hfail : ∀ h, bounce = false → fs.heap.bounces 0 = false → Q false { fs with heap := h }) :
    wp (getBounce bounce) Q fs := by
  cases bounce with
  | true => exact wp_pure.mpr (hok fs.heap (.refl _))
  | false =>
    refine ⟨_, _, rfl, ?_⟩
    cases h0 : fs.heap.bounces 0 with
    | true => exact hok _ (.nextBounce _)
    | false => exact hfail _ rfl h0

section Turn
variable {n : InodeDisk} {size offset : Nat} {d : Disk}

theorem byteToSector_eq (hon : n.OnDisk d.capacity) (hc : chunkSize n size offset ≠ 0) :
    byteToSector n offset = n.start + offset / sectorSize ∧
      n.start + offset / sectorSize < d.capacity := by
  have hlen : (offset : Int) < n.length := by
    simp only [chunkSize, InodeDisk.left] at hc
    omega
  have hcap := hon offset hlen
  have hlba := d.lba28
  refine ⟨?_, hcap⟩
  rw [byteToSector, if_pos hlen, Nat.mod_eq_of_lt]
  simp only [wordSize]
  omega

theorem chunkSize_le (n : InodeDisk) (size offset : Nat) :
    chunkSize n size offset ≤ sectorSize - offset % sectorSize := by
  simp only [chunkSize]
  omega

theorem write_direct (start k : Nat) (f : Buf) (ho : offset % sectorSize = 0 ∧ k = sectorSize) :
    d.write (start + offset / sectorSize) f = d.patch (sectorSize * start + offset) k f := by
  refine Disk.ext_byte rfl fun a => ?_
  rw [Disk.write_byte, Disk.patch_byte]
  rw [sectorSize] at ho ⊢
  by_cases h : a / 512 = start + offset / 512
  · rw [if_pos h, if_pos (by omega)]
    congr 1
    omega
  · rw [if_neg h, if_neg (by omega)]

/-- So is a sector that is read, changed in part and written back. -/
theorem write_bounce (start k : Nat) (b f : Buf) (hk : k ≤ sectorSize - offset % sectorSize)
    (hb : ∀ i < sectorSize, ¬(offset % sectorSize ≤ i ∧ i < offset % sectorSize + k) →
      b i = d.byte (sectorSize * (start + offset / sectorSize) + i)) :
    d.write (start + offset / sectorSize) (memcpy b (offset % sectorSize) f k) =
      d.patch (sectorSize * start + offset) k f := by
  refine Disk.ext_byte rfl fun a => ?_
  rw [Disk.write_byte, Disk.patch_byte, memcpy]
  rw [sectorSize] at hk hb ⊢
  by_cases h : a / 512 = start + offset / 512
  · grind
  · rw [if_neg h, if_neg (by omega)]

end Turn

/-- The bytes of an inode, from `offset` on, as the disk has them. -/
def InodeDisk.bytes (n : InodeDisk) (d : Disk) (offset : Nat) : Buf := fun i =>
  d.byte (sectorSize * n.start + offset + i)

theorem InodeDisk.bytes_shift (n : InodeDisk) (d : Disk) (offset k : Nat) :
    n.bytes d (offset + k) = fun i => n.bytes d offset (k + i) := by
  funext i
  simp only [bytes, Nat.add_assoc]

theorem InodeDisk.bytes_sector (n : InodeDisk) (d : Disk) (offset : Nat) :
    (fun i => d.byte (sectorSize * (n.start + offset / sectorSize) + (offset % sectorSize + i))) =
      n.bytes d offset := by
  funext i
  simp only [bytes]
  congr 1
  rw [sectorSize]
  omega

/-! The loops. -/

/-- The reading loop copies a run of bytes and changes nothing else. -/
theorem readLoop_spec {n : InodeDisk} (turns size offset bytesRead : Nat) (bounce : Bool)
    (buffer : Buf) (fs : Fs) (hon : n.OnDisk fs.disk.capacity) (ht : size ≤ turns) :
    wp (readLoop n turns size offset bytesRead bounce buffer) (fun r fs' => ∃ k h,
      r = (bytesRead + k, memcpy buffer bytesRead (n.bytes fs.disk offset) k) ∧
        fs' = { fs with heap := h } ∧ Moved n size offset bounce fs.heap h k) fs := by
  induction turns generalizing size offset bytesRead bounce buffer fs with
  | zero =>
    refine wp_pure.mpr ⟨0, fs.heap, by rw [memcpy_zero]; rfl, rfl, Moved.stop ?_⟩
    simp only [chunkSize]
    omega
  | succ turns ih =>
    rw [readLoop]
    by_cases hc : chunkSize n size offset = 0
    · simp only [hc, if_true, wp_pure]
      exact ⟨0, fs.heap, by rw [memcpy_zero]; rfl, rfl, Moved.stop hc⟩
    obtain ⟨hsec, hcap⟩ := byteToSector_eq hon hc
    have hbytes := n.bytes_sector fs.disk offset
    rw [if_neg hc]
    by_cases hd : offset % sectorSize = 0 ∧ chunkSize n size offset = sectorSize
    · rw [if_pos hd, wp_bind, hsec, wp_diskRead hcap]
      refine wp_mono (ih _ _ _ _ _ fs hon (by omega)) ?_
      rintro r fs' ⟨k, h, rfl, rfl, hm⟩
      refine ⟨_, h, ?_, rfl, hm.nextDirect hd⟩
      simp only [hd.1, Nat.zero_add] at hbytes
      rw [n.bytes_shift, Nat.add_assoc, ← memcpy_memcpy, hbytes, hd.2]
    · rw [if_neg hd, wp_bind]
      refine wp_getBounce (fun h₁ hp => ?_) (fun h₁ hb h0 => ?_)
      · simp only [if_true, wp_bind, hsec]
        rw [wp_diskRead (by exact hcap)]
        refine wp_mono (ih _ _ _ _ _ { fs with heap := h₁ } hon (by omega)) ?_
        rintro r fs' ⟨k, h, rfl, rfl, hm⟩
        refine ⟨_, h, ?_, rfl, hm.next hp⟩
        rw [n.bytes_shift, Nat.add_assoc, ← memcpy_memcpy, hbytes]
      · simp only [Bool.false_eq_true, if_false, wp_pure]
        exact ⟨0, h₁, by rw [memcpy_zero]; rfl, rfl, Moved.fail hd hb h0⟩

/-- The writing loop changes one run of bytes of the disk and nothing else. -/
theorem writeLoop_spec {n : InodeDisk} {buffer : Buf} (turns size offset bytesWritten : Nat)
    (bounce : Bool) (fs : Fs) (hon : n.OnDisk fs.disk.capacity) (ht : size ≤ turns) :
    wp (writeLoop n buffer turns size offset bytesWritten bounce) (fun r fs' => ∃ k h,
      r = bytesWritten + k ∧
        fs' = { fs with
          disk := fs.disk.patch (sectorSize * n.start + offset) k fun i => buffer (bytesWritten + i)
          heap := h } ∧ Moved n size offset bounce fs.heap h k) fs := by
  induction turns generalizing size offset bytesWritten bounce fs with
  | zero =>
    refine wp_pure.mpr ⟨0, fs.heap, rfl, by rw [Disk.patch_zero], Moved.stop ?_⟩
    simp only [chunkSize]
    omega
  | succ turns ih =>
    rw [writeLoop]
    by_cases hc : chunkSize n size offset = 0
    · simp only [hc, if_true, wp_pure]
      exact ⟨0, fs.heap, rfl, by rw [Disk.patch_zero], Moved.stop hc⟩
    obtain ⟨hsec, hcap⟩ := byteToSector_eq hon hc
    -- what a turn wrote, followed by what the rest of the loop writes
    have hjoin : ∀ (d : Disk) (k : Nat),
        (d.patch (sectorSize * n.start + offset) (chunkSize n size offset)
            fun i => buffer (bytesWritten + i)).patch
          (sectorSize * n.start + (offset + chunkSize n size offset)) k
          (fun i => buffer (bytesWritten + chunkSize n size offset + i)) =
        d.patch (sectorSize * n.start + offset) (chunkSize n size offset + k)
          fun i => buffer (bytesWritten + i) := by
      intro d k
      rw [← Disk.patch_patch]
      simp only [Nat.add_assoc]
    rw [if_neg hc]
    by_cases hd : offset % sectorSize = 0 ∧ chunkSize n size offset = sectorSize
    · rw [if_pos hd, wp_bind, hsec, wp_diskWrite hcap, write_direct _ _ _ hd]
      refine wp_mono (ih _ _ _ _ _ hon (by omega)) ?_
      rintro r fs' ⟨k, h, rfl, rfl, hm⟩
      exact ⟨_, h, Nat.add_assoc .., by simp only [hjoin], hm.nextDirect hd⟩
    · rw [if_neg hd, wp_bind]
      refine wp_getBounce (fun h₁ hp => ?_) (fun h₁ hb h0 => ?_)
      · simp only [if_true, wp_bind, hsec]
        have hw : ∀ b : Buf, (∀ i < sectorSize, ¬(offset % sectorSize ≤ i ∧
            i < offset % sectorSize + chunkSize n size offset) →
              b i = fs.disk.byte (sectorSize * (n.start + offset / sectorSize) + i)) →
            wp (diskWrite (n.start + offset / sectorSize) (memcpy b (offset % sectorSize)
                (fun i => buffer (bytesWritten + i)) (chunkSize n size offset)))
              (fun _ t => wp (writeLoop n buffer turns (size - chunkSize n size offset)
                (offset + chunkSize n size offset) (bytesWritten + chunkSize n size offset) true)
                (fun r fs' => ∃ k h, r = bytesWritten + k ∧
                  fs' = { fs with
                    disk := fs.disk.patch (sectorSize * n.start + offset) k
                      fun i => buffer (bytesWritten + i)
                    heap := h } ∧ Moved n size offset bounce fs.heap h k) t)
              { fs with heap := h₁ } := by
          intro b hb
          rw [wp_diskWrite (by exact hcap), write_bounce _ _ _ _ (chunkSize_le ..) hb]
          refine wp_mono (ih _ _ _ _ _ hon (by omega)) ?_
          rintro r fs' ⟨k, h, rfl, rfl, hm⟩
          exact ⟨_, h, Nat.add_assoc .., by simp only [hjoin], hm.next hp⟩
        by_cases hf : offset % sectorSize > 0 ∨
            chunkSize n size offset < sectorSize - offset % sectorSize
        · grind [fillBounce, wp_diskRead]
        · grind [fillBounce, wp_pure]
      · grind [wp_pure, Disk.patch_zero, Moved.fail]

end Pintos.Filesys
