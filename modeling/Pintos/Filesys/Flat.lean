import Pintos.Filesys.Sectors

/- An inode is an array of bytes.

   Whatever path the loops of `inode_read_at` and `inode_write_at` take, they move
   the bytes of the request that the file has between the buffer and one place of
   the disk. This is what `Vm.inodeReadAt` and `Vm.inodeWriteAt` do in one step, with a
   bounce buffer or without one. A read after some writes then gives, byte for byte, the
   last value written. -/
namespace Pintos.Filesys

open Vm (Byte Buf)
open Lib

/-! One call. -/

section Call
variable {fs : Fs} {inode : Nat} {n : Inode}

theorem inodeReadAt_spec (hopen : fs.openInodes inode = some n)
    (hon : n.data.OnDisk fs.disk.capacity) (buffer : Buf) (size offset : Nat) :
    wp (inodeReadAt inode buffer size offset) (fun r fs' => ∃ k h,
      r = (k, memcpy buffer 0 (n.data.bytes fs.disk offset) k) ∧ fs' = { fs with heap := h } ∧
        Moved n.data size offset false fs.heap h k) fs := by
  simp only [inodeReadAt, wp_bind, wp_get, wp_follow]
  refine ⟨n, hopen, wp_mono (readLoop_spec size size offset 0 false buffer fs hon le_rfl) ?_⟩
  rintro r fs' ⟨k, h, rfl, rfl, hm⟩
  exact ⟨k, h, by rw [Nat.zero_add], rfl, hm⟩

theorem inodeWriteAt_spec (hopen : fs.openInodes inode = some n)
    (hon : n.data.OnDisk fs.disk.capacity) (hdeny : n.denyWriteCnt = 0) (buffer : Buf)
    (size offset : Nat) :
    wp (inodeWriteAt inode buffer size offset) (fun k fs' => ∃ h,
      fs' = { fs with
        disk := fs.disk.patch (sectorSize * n.data.start + offset) k buffer
        heap := h } ∧ Moved n.data size offset false fs.heap h k) fs := by
  simp only [inodeWriteAt, wp_bind, wp_get, wp_follow]
  refine ⟨n, hopen, ?_⟩
  rw [if_pos hdeny]
  refine wp_mono (writeLoop_spec size size offset 0 false fs hon le_rfl) ?_
  rintro r fs' ⟨k, h, rfl, rfl, hm⟩
  simp only [Nat.zero_add]
  exact ⟨h, rfl, hm⟩

theorem inodeWriteAt_denied (hopen : fs.openInodes inode = some n) (hdeny : n.denyWriteCnt ≠ 0)
    (buffer : Buf) (size offset : Nat) :
    wp (inodeWriteAt inode buffer size offset) (fun k fs' => k = 0 ∧ fs' = fs) fs := by
  simp only [inodeWriteAt, wp_bind, wp_get, wp_follow]
  refine ⟨n, hopen, ?_⟩
  rw [if_neg hdeny, wp_pure]
  exact ⟨rfl, rfl⟩

end Call

/-! The number of bytes. -/

/-- The bytes of a request that lie in the file. -/
def InodeDisk.inFile (n : InodeDisk) (size offset : Nat) : Int :=
  max 0 (min (size : Int) (n.length - offset))

/-- The number of bytes a call returns: all of the request that lie in the file, and a
    prefix of them if an allocation fails. -/
structure Count (n : InodeDisk) (size offset : Nat) (heap : Heap) (k : Nat) : Prop where
  all : Bounces heap → (k : Int) = n.inFile size offset
  le : (k : Int) ≤ n.inFile size offset

theorem InodeDisk.direct_le_want (n : InodeDisk) (size offset : Nat) :
    n.direct size offset ≤ n.want size offset := by
  rw [direct]
  by_cases h : offset % sectorSize = 0
  · rw [if_pos h]
    exact Nat.div_mul_le_self _ _
  · rw [if_neg h]
    exact Nat.zero_le _

theorem Moved.countOf {n : InodeDisk} {size offset k : Nat} {bounce : Bool}
    {heap heap' : Heap} (h : Moved n size offset bounce heap heap' k) :
    Count n size offset heap k := by
  have hw : (n.want size offset : Int) = n.inFile size offset := by
    simp only [InodeDisk.want, InodeDisk.left, InodeDisk.inFile]
    omega
  have hle := n.direct_le_want size offset
  obtain hk | ⟨-, hk, hp⟩ := h.count
  · exact ⟨fun _ => by rw [hk, hw], by omega⟩
  · exact ⟨fun h => absurd h hp, by omega⟩

theorem memcpy_start (buffer src : Buf) (k i : Nat) :
    memcpy buffer 0 src k i = if i < k then src i else buffer i := by
  by_cases h : i < k
  · rw [memcpy, if_pos (by omega), if_pos h, Nat.sub_zero]
  · rw [memcpy, if_neg (by omega), if_neg h]

/-! The inode as the rest of the kernel sees it. -/

/-- The inode as an array of bytes. -/
def Inode.flat (n : Inode) (d : Disk) : Vm.Inode :=
  ⟨n.data.length.toNat, n.data.bytes d 0, n.denyWriteCnt⟩

theorem InodeDisk.bytes_patch (n : InodeDisk) (d : Disk) (offset k : Nat) (buffer : Buf) (i : Nat) :
    n.bytes (d.patch (sectorSize * n.start + offset) k buffer) 0 i =
      if offset ≤ i ∧ i < offset + k then buffer (i - offset) else n.bytes d 0 i := by
  simp only [bytes, Disk.patch_byte, Nat.add_zero]
  by_cases h : offset ≤ i ∧ i < offset + k
  · rw [if_pos h, if_pos (by omega), Nat.add_sub_add_left]
  · rw [if_neg h, if_neg (by omega)]

/-- The bytes that were moved are those of the array, with or without the bounce buffer. -/
theorem Moved.flat {n : Inode} {size offset k : Nat} {heap heap' : Heap}
    (h : Moved n.data size offset false heap heap' k) (d : Disk) :
    ∃ b, (Bounces heap → b = true) ∧ k = (n.flat d).moved b size offset := by
  have hwant : n.data.want size offset = min size (n.data.length.toNat - offset) := by
    simp only [InodeDisk.want, InodeDisk.left]
    omega
  obtain hk | ⟨-, hk, hno⟩ := h.count
  · exact ⟨true, fun _ => rfl, hk.trans hwant⟩
  · refine ⟨false, fun hb => absurd hb hno, ?_⟩
    rw [hk, InodeDisk.direct, hwant]
    show (if offset % sectorSize = 0 then _ else 0) = if offset % sectorSize = 0 then _ else 0
    congr 1
    exact Nat.eq_sub_of_add_eq (Nat.div_add_mod' ..)

section Refines
variable {fs : Fs} {inode : Nat} {n : Inode} (hopen : fs.openInodes inode = some n)
  (hon : n.data.OnDisk fs.disk.capacity)
include hopen hon

/-- The sector loop writes what `Vm.inodeWriteAt` writes at once. -/
theorem inodeWriteAt_refines (buffer : Buf) (size offset : Nat) :
    wp (inodeWriteAt inode buffer size offset) (fun _ fs' =>
      ∃ b, (Bounces fs.heap → b = true) ∧
        n.flat fs'.disk = Vm.inodeWriteAt b (n.flat fs.disk) buffer size offset ∧
        fs'.openInodes inode = some n) fs := by
  by_cases hdeny : n.denyWriteCnt = 0
  · refine wp_mono (inodeWriteAt_spec hopen hon hdeny buffer size offset) ?_
    rintro k fs' ⟨h, rfl, hm⟩
    obtain ⟨b, hb, hk⟩ := hm.flat fs.disk
    refine ⟨b, hb, ?_, hopen⟩
    rw [Vm.inodeWriteAt, if_pos (by exact hdeny), ← hk]
    simp only [Inode.flat, Vm.Inode.mk.injEq, true_and, and_true]
    funext i
    rw [InodeDisk.bytes_patch]
  · refine wp_mono (inodeWriteAt_denied hopen hdeny buffer size offset) ?_
    rintro k fs' ⟨rfl, rfl⟩
    exact ⟨true, fun _ => rfl, by rw [Vm.inodeWriteAt, if_neg (by exact hdeny)], hopen⟩

theorem inodeReadAt_refines (buffer : Buf) (size offset : Nat) :
    wp (inodeReadAt inode buffer size offset) (fun r fs' =>
      ∃ b, (Bounces fs.heap → b = true) ∧
        r.2 = Vm.inodeReadAt b (n.flat fs.disk) buffer size offset ∧ fs'.disk = fs.disk) fs := by
  refine wp_mono (inodeReadAt_spec hopen hon buffer size offset) ?_
  rintro r fs' ⟨k, h, rfl, rfl, hm⟩
  obtain ⟨b, hb, hk⟩ := hm.flat fs.disk
  refine ⟨b, hb, ?_, rfl⟩
  funext i
  rw [Vm.inodeReadAt, ← hk]
  show memcpy buffer 0 _ k i = _
  rw [memcpy_start]
  simp only [Inode.flat, InodeDisk.bytes, Nat.add_zero, Nat.add_assoc]

end Refines

/-! A sequence of writes. -/

/-- The arguments of a call of `inode_write_at`. -/
structure Write where
  buffer : Buf
  size : Nat
  offset : Nat

/-- Calls of `inode_write_at`, with what each returns. -/
def writeAll (inode : Nat) : List Write → FsM (List Nat)
  | [] => pure []
  | w :: ws => do
    let k ← inodeWriteAt inode w.buffer w.size w.offset
    let ks ← writeAll inode ws
    return k :: ks

/-- Whether a write of `k` bytes reaches byte `i`. -/
def Write.covers (w : Write) (k i : Nat) : Bool := w.offset ≤ i && i < w.offset + k

/-- Byte `i` after writes of the given lengths: the value of the last that reaches it. -/
def lastWritten (f : Buf) (ws : List (Write × Nat)) (i : Nat) : Byte :=
  match ws.reverse.find? fun w => w.1.covers w.2 i with
  | some w => w.1.buffer (i - w.1.offset)
  | none => f i

theorem lastWritten_cons (f : Buf) (w : Write) (k : Nat) (ws : List (Write × Nat)) (i : Nat) :
    lastWritten f ((w, k) :: ws) i =
      lastWritten (fun j => if w.covers k j then w.buffer (j - w.offset) else f j) ws i := by
  simp only [lastWritten, List.reverse_cons, List.find?_append]
  cases hf : ws.reverse.find? fun w => w.1.covers w.2 i with
  | some v => rfl
  | none => by_cases hc : w.covers k i <;> simp [List.find?, hc]

/-- What a list of writes leaves: the file has the last values, the disk is as it was
    everywhere else. -/
structure Written (fs : Fs) (n : InodeDisk) (ws : List Write) (ks : List Nat) (fs' : Fs) :
    Prop where
  counts : List.Forall₂ (fun w k => Count n w.size w.offset fs.heap k) ws ks
  bytes : ∀ i : Nat, n.bytes fs'.disk 0 i = lastWritten (n.bytes fs.disk 0) (ws.zip ks) i
  frame : ∀ a : Nat, (a < sectorSize * n.start ∨
    ((sectorSize * n.start : Nat) : Int) + n.length ≤ a) → fs'.disk.byte a = fs.disk.byte a
  rest : ∃ d h, fs' = { fs with disk := d, heap := h } ∧ d.capacity = fs.disk.capacity
  later : Later fs.heap fs'.heap

theorem writeAll_spec {inode : Nat} {n : Inode} (hdeny : n.denyWriteCnt = 0) (ws : List Write)
    (fs : Fs) (hopen : fs.openInodes inode = some n) (hon : n.data.OnDisk fs.disk.capacity) :
    wp (writeAll inode ws) (fun ks fs' => Written fs n.data ws ks fs') fs := by
  induction ws generalizing fs with
  | nil => exact wp_pure.mpr ⟨.nil, fun _ => rfl, fun _ _ => rfl, ⟨_, _, rfl, rfl⟩, .refl _⟩
  | cons w ws ih =>
    rw [writeAll, wp_bind]
    refine wp_mono (inodeWriteAt_spec hopen hon hdeny w.buffer w.size w.offset) ?_
    rintro k fs₁ ⟨h, rfl, hm⟩
    rw [wp_bind]
    refine wp_mono (ih _ hopen hon) ?_
    intro ks fs' hr
    have hc := hm.countOf
    obtain ⟨d, h', hfs', hcap⟩ := hr.rest
    refine wp_pure.mpr ⟨.cons hc ?_, ?_, ?_, ⟨d, h', hfs', hcap⟩, hm.later.trans hr.later⟩
    · exact hr.counts.imp fun w k hk => ⟨hk.all ∘ hm.later.bounces, hk.le⟩
    · intro i
      rw [hr.bytes, List.zip_cons_cons, lastWritten_cons]
      congr 1
      funext j
      simp only [InodeDisk.bytes_patch, Write.covers, Bool.and_eq_true, decide_eq_true_eq]
    · grind [hr.frame, Disk.patch_byte, hc.le, InodeDisk.inFile]

/-! The inode is an array of bytes. -/

/-- `inode_read_at` and `inode_write_at` work on the bytes of the inode. -/
structure FlatBytes (fs : Fs) (inode : Nat) (n : InodeDisk) : Prop where
  /-- A write changes the bytes it returns, from `offset` on, and no other of the disk. -/
  write : ∀ (buffer : Buf) (size offset : Nat),
    wp (inodeWriteAt inode buffer size offset) (fun k fs' =>
      Count n size offset fs.heap k ∧
      (∀ a, fs'.disk.byte a =
        if sectorSize * n.start + offset ≤ a ∧ a < sectorSize * n.start + offset + k
        then buffer (a - (sectorSize * n.start + offset)) else fs.disk.byte a) ∧
      ∃ d h, fs' = { fs with disk := d, heap := h } ∧ d.capacity = fs.disk.capacity) fs
  /-- A read gives the bytes of the file and changes none. -/
  read : ∀ (buffer : Buf) (size offset : Nat),
    wp (inodeReadAt inode buffer size offset) (fun r fs' =>
      Count n size offset fs.heap r.1 ∧
      (∀ i, r.2 i = if i < r.1 then fs.disk.byte (sectorSize * n.start + offset + i)
        else buffer i) ∧
      ∃ h, fs' = { fs with heap := h }) fs
  /-- A read after writes gives the last values written. -/
  last : ∀ (ws : List Write) (buffer : Buf) (size offset : Nat),
    wp (writeAll inode ws) (fun ks fs₁ => Written fs n ws ks fs₁ ∧
      wp (inodeReadAt inode buffer size offset) (fun r fs' =>
        Count n size offset fs₁.heap r.1 ∧
        (∀ i, r.2 i = if i < r.1 then
            lastWritten (n.bytes fs.disk 0) (ws.zip ks) (offset + i)
          else buffer i) ∧
        fs'.disk = fs₁.disk) fs₁) fs

/-- **Sector I/O is I/O on a flat array of bytes**, for every inode whose extent lies
    on the disk and whose writes are not denied, every request and every sequence of
    writes, also where the allocation of a bounce buffer fails. -/
theorem sector_io_flat {fs : Fs} {inode : Nat} {n : Inode}
    (hopen : fs.openInodes inode = some n) (hon : n.data.OnDisk fs.disk.capacity)
    (hdeny : n.denyWriteCnt = 0) : FlatBytes fs inode n.data where
  write buffer size offset := by
    refine wp_mono (inodeWriteAt_spec hopen hon hdeny buffer size offset) ?_
    rintro k fs' ⟨h, rfl, hm⟩
    exact ⟨hm.countOf, fun a => Disk.patch_byte .., _, _, rfl, rfl⟩
  read buffer size offset := by
    refine wp_mono (inodeReadAt_spec hopen hon buffer size offset) ?_
    rintro r fs' ⟨k, h, rfl, rfl, hm⟩
    exact ⟨hm.countOf, fun i => memcpy_start .., h, rfl⟩
  last ws buffer size offset := by
    refine wp_mono (writeAll_spec hdeny ws fs hopen hon) ?_
    intro ks fs₁ hw
    refine ⟨hw, ?_⟩
    obtain ⟨d, h₁, rfl, hcap⟩ := hw.rest
    refine wp_mono (@inodeReadAt_spec { fs with disk := d, heap := h₁ } inode n hopen
      (by simpa only [hcap] using hon) buffer size offset) ?_
    rintro r fs' ⟨k, h, rfl, rfl, hm⟩
    refine ⟨hm.countOf, fun i => ?_, rfl⟩
    simp only [memcpy_start, ← hw.bytes, InodeDisk.bytes, Nat.add_assoc, Nat.zero_add]

/-- A disk of four sectors with the inode of a five byte file in sector 2. -/
def fiveBytes : Fs where
  disk := ⟨4, by decide, fun _ _ => 0⟩
  heap := ⟨fun _ => true, fun _ => true⟩
  openInodes := fun sec => if sec = 2 then some ⟨1, false, 0, 3, 5, inodeMagic⟩ else none
  files := fun _ => none
  nextFile := 0
  freeMap := ⟨4, fun _ => 15⟩
  freeMapFile := none

theorem sector_io_flat_fiveBytes :
    fiveBytes.openInodes 2 = some ⟨1, false, 0, 3, 5, inodeMagic⟩ ∧
      FlatBytes fiveBytes 2 ⟨3, 5, inodeMagic⟩ := by
  refine ⟨rfl, sector_io_flat (n := ⟨1, false, 0, 3, 5, inodeMagic⟩) rfl ?_ rfl⟩
  intro i hi
  simp only [sectorSize, fiveBytes] at hi ⊢
  omega

theorem fiveBytes_onDisk : InodeDisk.OnDisk ⟨3, 5, inodeMagic⟩ fiveBytes.disk.capacity := by
  intro i hi
  simp only [sectorSize, fiveBytes] at hi ⊢
  omega

theorem inodeWriteAt_refines_fiveBytes : wp (inodeWriteAt 2 (fun _ => 7) 9 1) (fun _ fs' =>
    ∃ b, (Bounces fiveBytes.heap → b = true) ∧
      Inode.flat ⟨1, false, 0, 3, 5, inodeMagic⟩ fs'.disk = Vm.inodeWriteAt b
        (Inode.flat ⟨1, false, 0, 3, 5, inodeMagic⟩ fiveBytes.disk) (fun _ => 7) 9 1 ∧
      fs'.openInodes 2 = some ⟨1, false, 0, 3, 5, inodeMagic⟩) fiveBytes :=
  inodeWriteAt_refines rfl fiveBytes_onDisk _ 9 1

theorem inodeReadAt_refines_fiveBytes : wp (inodeReadAt 2 (fun _ => 7) 9 1) (fun r fs' =>
    ∃ b, (Bounces fiveBytes.heap → b = true) ∧
      r.2 = Vm.inodeReadAt b (Inode.flat ⟨1, false, 0, 3, 5, inodeMagic⟩ fiveBytes.disk)
        (fun _ => 7) 9 1 ∧ fs'.disk = fiveBytes.disk) fiveBytes :=
  inodeReadAt_refines rfl fiveBytes_onDisk _ 9 1

end Pintos.Filesys
