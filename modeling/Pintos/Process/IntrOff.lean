import Pintos.Process.Effects

/- The disk while interrupts are off.

   `thread_exit` turns interrupts off and then closes the executable. Interrupts have to be
   on for an access to the disk: `issue_pio_command` asserts that they are. With interrupts
   off all accesses fail, as they do on a disk without sectors, and so a command makes none
   if it has an outcome there (`intrOff`).

   Closing a file takes the disk if it is the last reference to a file that has been
   removed: the sectors are given back, and the free map is written, twice. Of a map that
   is less than a sector this takes a bounce buffer, and without memory for one nothing is
   written. `exit_without_disk` says that there is no other case. `sema_up` and `schedule`,
   which are called after that, are not part of the file system.

   Correspondence (C ↔ Lean):
     `ASSERT (intr_get_level () == INTR_ON)`    ↔ `intrOff`
     `file_close (thread_current ()->self_file)` ↔ `fileClose` -/
namespace Pintos.Process

open Vm (Buf)
open Filesys
open Lib

/-- The state in which every access to the disk fails. -/
def intrOff (fs : Fs) : Fs := { fs with disk := ⟨0, Nat.zero_le _, fs.disk.sector⟩ }

/-- The command has an outcome, without the disk. -/
def WithoutDisk {α : Type} (m : FsM α) (fs : Fs) : Prop := wp m (fun _ _ => True) (intrOff fs)

/-- Whether closing the file takes the disk: the sectors of a removed file are given back,
    and the free map is written in whole sectors, or through a buffer if there is one. -/
def closeUsesDisk (fs : Fs) (file : Nat) : Bool :=
  match fs.files file with
  | none => false
  | some f => match fs.openInodes f.inode with
    | none => false
    | some n => n.openCnt = 1 && n.removed && (sectorSize ≤ byteCnt fs.freeMap.bitCnt ||
        fs.heap.bounces 0 || fs.heap.bounces 1)

theorem closeUsesDisk_iff {fs : Fs} {f : Nat} {F : File} {n : Inode} (hF : fs.files f = some F)
    (hn : fs.openInodes F.inode = some n) : closeUsesDisk fs f = true ↔
      (n.openCnt = 1 ∧ n.removed = true) ∧ (sectorSize ≤ byteCnt fs.freeMap.bitCnt ∨
        fs.heap.bounces 0 = true ∨ fs.heap.bounces 1 = true) := by
  simp only [closeUsesDisk, hF, hn, Bool.and_eq_true, Bool.or_eq_true, decide_eq_true_eq, or_assoc]

/-! Writing the free map. -/

section
variable {fs : Fs} {file : Nat} {m : Inode}

theorem not_wp_diskRead {sec : Nat} {Q : Buf → Fs → Prop} : ¬wp (diskRead sec) Q (intrOff fs) := by
  rintro ⟨b, fs', h, -⟩
  simp [diskRead, intrOff] at h

theorem not_wp_diskWrite {sec : Nat} {buf : Buf} {Q : Unit → Fs → Prop} :
    ¬wp (diskWrite sec buf) Q (intrOff fs) := by
  rintro ⟨b, fs', h, -⟩
  simp [diskWrite, intrOff] at h

/-- The loop of `inode_write_at`, over all of a file that is not empty. -/
theorem writeLoop_intrOff {n : InodeDisk} {size : Nat} (hsize : n.length = size) (hpos : 0 < size)
    (buffer : Buf) {Q : Nat → Fs → Prop} :
    wp (writeLoop n buffer size size 0 0 false) Q (intrOff fs) ↔
      ¬(sectorSize ≤ size ∨ fs.heap.bounces 0 = true) ∧
        Q 0 (intrOff { fs with heap := fs.heap.nextBounce }) := by
  have hchunk : chunkSize n size 0 = min size sectorSize := by
    rw [chunkSize, InodeDisk.left, hsize, Nat.zero_mod, Nat.sub_zero]
    omega
  obtain ⟨t, rfl⟩ : ∃ t, size = t + 1 := ⟨size - 1, by omega⟩
  rw [writeLoop, hchunk]
  have hne : min (t + 1) sectorSize ≠ 0 := by
    rw [show sectorSize = 512 from rfl]
    omega
  simp only [if_neg hne, Nat.zero_mod, true_and]
  by_cases hfull : sectorSize ≤ t + 1
  · grind [wp_bind, not_wp_diskWrite]
  · rw [if_neg (by omega), wp_bind, getBounce, if_neg Bool.false_ne_true]
    have hmalloc : ∀ {R : Bool → Fs → Prop}, wp mallocBounce R (intrOff fs) ↔
        R (fs.heap.bounces 0) (intrOff { fs with heap := fs.heap.nextBounce }) := by
      intro R
      exact ⟨fun h => wp_elim h rfl, fun h => wp_intro rfl h⟩
    rw [hmalloc]
    cases hb : fs.heap.bounces 0 with
    | false => grind [wp_pure]
    | true => grind [wp_bind, fillBounce, not_wp_diskRead]

theorem bitmapWrite_intrOff (hm : MapFile fs file m) (hpos : 0 < fs.freeMap.bitCnt)
    {Q : Bool → Fs → Prop} :
    wp (bitmapWrite file) Q (intrOff fs) ↔
      ¬(sectorSize ≤ byteCnt fs.freeMap.bitCnt ∨ fs.heap.bounces 0 = true) ∧
        Q false (intrOff { fs with heap := fs.heap.nextBounce }) := by
  have hbytes : 0 < byteCnt fs.freeMap.bitCnt := by
    simp only [byteCnt, elemCnt, elemBits]
    omega
  obtain ⟨f, hf, hinode⟩ := hm.handle
  have hfile : (intrOff fs).files file = some f := hf
  have hnode : (intrOff fs).openInodes f.inode = some m := by
    rw [hinode]
    exact hm.inode
  rw [bitmapWrite, wp_bind, wp_get, wp_bind, fileWriteAt, wp_bind, wp_get, wp_bind, hfile,
    wp_follow]
  simp only [Option.some.injEq, exists_eq_left', inodeWriteAt, wp_bind, wp_get, hnode, wp_follow,
    hm.allowed, if_true]
  have hloop := fun R => @writeLoop_intrOff fs _ _ hm.size hbytes fs.freeMap.toBuf R
  refine (hloop _).trans (and_congr_right fun _ => ?_)
  have hno : ¬0 = byteCnt fs.freeMap.bitCnt := by omega
  rw [wp_pure, show (intrOff fs).freeMap = fs.freeMap from rfl, decide_eq_false hno]

theorem freeMapRelease_intrOff (hfile : fs.freeMapFile = some file) (hm : MapFile fs file m)
    (hcap : fs.freeMap.bitCnt = fs.disk.capacity) (hpos : 0 < fs.freeMap.bitCnt) {sec cnt : Nat}
    (hle : sec + cnt ≤ fs.freeMap.bitCnt) (hrun : fs.freeMap.Run sec cnt true)
    {Q : Unit → Fs → Prop} :
    wp (freeMapRelease sec cnt) Q (intrOff fs) ↔
      ¬(sectorSize ≤ byteCnt fs.freeMap.bitCnt ∨ fs.heap.bounces 0 = true) ∧
        Q () (intrOff { fs with
          heap := fs.heap.nextBounce
          freeMap := fs.freeMap.fill sec cnt false }) := by
  have hsize : fs.freeMap.bitCnt < Vm.wordSize := by grind [fs.disk.lba28, Vm.wordSize]
  have hfile' : (intrOff fs).freeMapFile = some file := hfile
  have hmap : (intrOff fs).freeMap = fs.freeMap := rfl
  simp only [freeMapRelease, wp_bind, wp_get, wp_follow, setFreeMap, wp_modify, wp_assert, hfile',
    hmap, bitmapAll_eq hsize hle hrun, bitmapSetMultiple_eq hsize hle, Option.some.injEq,
    exists_eq_left', true_and]
  have hm' : MapFile { fs with freeMap := fs.freeMap.fill sec cnt false } file m :=
    hm.congr rfl rfl rfl (Bitmap.fill_bitCnt ..)
  show wp (bitmapWrite file >>= fun _ => pure ()) Q
    (intrOff { fs with freeMap := fs.freeMap.fill sec cnt false, freeMapFile := some file }) ↔ _
  rw [← hfile, wp_bind, bitmapWrite_intrOff hm' (by rw [Bitmap.fill_bitCnt]; exact hpos), wp_pure,
    Bitmap.fill_bitCnt]

end

/-! Closing a file. -/

section
variable {fs : Fs} {g : Ghost} {f : Nat} {F : File} {n : Inode}

theorem Core.releaseSectors_intrOff (h : Core fs g) (hn : g.own F.inode = some n.data)
    {Q : Unit → Fs → Prop} (hQ : ∀ t, Q () t) :
    wp (do freeMapRelease F.inode 1; freeMapRelease n.data.start (bytesToSectors n.data.length)) Q
      (intrOff fs) ↔ ¬(sectorSize ≤ byteCnt fs.freeMap.bitCnt ∨ fs.heap.bounces 0 = true ∨
        fs.heap.bounces 1 = true) := by
  obtain ⟨file, m, hfile, hmf, -⟩ := h.map
  have hfine := h.space.fine hn
  have hsize := h.space.size
  have hpos : 0 < fs.freeMap.bitCnt := by
    have := hfine.sector_lt
    omega
  rw [wp_bind, freeMapRelease_intrOff hfile hmf hsize hpos (by rw [hsize]; exact hfine.sector_lt)
    (h.space.marked hn)]
  have hrun : (fs.freeMap.fill F.inode 1 false).Run n.data.start n.data.sectors true := by
    intro j hj
    have hself := hfine.self
    rw [InodeDisk.Holds] at hself
    rw [Bitmap.fill_bit, if_neg (by omega)]
    exact h.space.run hn j hj
  rw [show bytesToSectors n.data.length = n.data.sectors from rfl, @freeMapRelease_intrOff { fs with
      heap := fs.heap.nextBounce
      freeMap := fs.freeMap.fill F.inode 1 false } file m hfile
    (hmf.congr rfl rfl rfl (Bitmap.fill_bitCnt ..)) ((Bitmap.fill_bitCnt ..).trans hsize)
    (by rw [Bitmap.fill_bitCnt]; exact hpos) _ _
    (by rw [Bitmap.fill_bitCnt, hsize]; exact hfine.extent_le) hrun]
  simp only [Bitmap.fill_bitCnt, hQ, and_true, Heap.nextBounce, Nat.zero_add]
  tauto

theorem fileAllowWrite_intrOff {fs' : Fs} (h : fileAllowWrite f fs = some ((), fs')) :
    fileAllowWrite f (intrOff fs) = some ((), intrOff fs') ∧ fs'.heap = fs.heap := by
  have hwp : wp (fileAllowWrite f) (fun _ t => t = fs') fs := ⟨(), fs', h, rfl⟩
  suffices hoff : wp (fileAllowWrite f) (fun _ t => t = intrOff fs' ∧ fs'.heap = fs.heap)
      (intrOff fs) by
    obtain ⟨⟨⟩, t, ht, rfl, hheap⟩ := hoff
    exact ⟨ht, hheap⟩
  simp only [fileAllowWrite, wp_bind, wp_get, wp_follow] at hwp ⊢
  obtain ⟨F, hF, hwp⟩ := hwp
  refine ⟨F, hF, ?_⟩
  by_cases hd : F.denyWrite = true
  · simp only [if_pos hd, wp_bind, setFile, wp_modify, inodeAllowWrite, wp_get, wp_follow,
      wp_assert, setInode] at hwp ⊢
    obtain ⟨n, hn, hpos, hle, hfs⟩ := hwp
    refine ⟨n, hn, hpos, hle, ?_⟩
    rw [← hfs]
    exact ⟨rfl, rfl⟩
  · grind [wp_pure]

theorem Core.fileClose_intrOff (h : Core fs g) (hf : Files fs g) (hF : fs.files f = some F)
    (hmap : fs.freeMapFile ≠ some f) :
    WithoutDisk (fileClose (some f)) fs ↔ closeUsesDisk fs f = false := by
  obtain ⟨n, hn⟩ := h.inode (hf.pos hF)
  obtain ⟨⟨⟩, fs₁, hallow, ⟨g₁, hgo, hcnt, hown⟩, hset⟩ := h.fileAllowWrite hf hF hmap
  have hF₁ : fs₁.files f = some { F with denyWrite := false } := by
    rw [hset.files, Function.update_self]
  obtain ⟨n₁, hn₁, hopen, hrem, hdata⟩ := hset.inodes _ n hn
  have hdeny : g₁.deny F.inode < g₁.cnt F.inode :=
    hgo.files.deny_lt (F := { F with denyWrite := false }) hF₁ rfl
  obtain ⟨hown₁, hcnt₁, -⟩ := hgo.core.opened hn₁
  have hs0 : F.inode ≠ freeMapSector := fun hi => hmap (hf.map hF hi)
  obtain ⟨hallow', hheap⟩ := fileAllowWrite_intrOff hallow
  have hstart : WithoutDisk (fileClose (some f)) fs ↔
      wp (do inodeClose (some F.inode); setFile f none) (fun _ _ => True) (intrOff fs₁) := by
    rw [WithoutDisk, fileClose, wp_bind]
    have hnext : wp (do let f' ← follow ((← get).files f); inodeClose (some f'.inode); setFile f none)
        (fun _ _ => True) (intrOff fs₁) ↔
        wp (do inodeClose (some F.inode); setFile f none) (fun _ _ => True) (intrOff fs₁) := by
      rw [wp_bind, wp_get, wp_bind, wp_follow, show (intrOff fs₁).files f = _ from hF₁]
      simp only [Option.some.injEq, exists_eq_left']
    exact Iff.trans ⟨fun h => wp_elim h hallow', fun h => wp_intro hallow' h⟩ hnext
  rw [hstart, ← Bool.not_eq_true, closeUsesDisk_iff hF hn, ← hopen, ← hrem, ← hheap, ← hset.freeMap]
  have hinode : (intrOff fs₁).openInodes F.inode = some n₁ := hn₁
  simp only [inodeClose, wp_bind, wp_get, wp_follow, hinode, Option.some.injEq, exists_eq_left']
  by_cases hone : n₁.openCnt = 1
  · rw [if_pos hone, wp_bind, setInode, wp_modify]
    by_cases hr : n₁.removed = true
    · -- The inode has left the list of open ones when its sectors are given back.
      have hcore := hgo.core.closeInode (by omega) (by omega) hs0
      have hrel := Core.releaseSectors_intrOff (n := n₁) (F := F) hcore hown₁
        (Q := fun _ t => wp (setFile f none) (fun _ _ => True) t)
        fun t => by rw [setFile, wp_modify]; trivial
      rw [if_pos hr]
      refine hrel.trans (not_congr ?_)
      exact (and_iff_right ⟨hone, hr⟩).symm
    · grind [wp_pure, setFile, wp_modify]
  · grind [setInode, wp_modify, setFile]

end

/-! `thread_exit`. -/

/-- What `thread_exit` calls after `intr_disable`, as far as the file system goes. -/
def afterIntrDisable (selfFile : Option Nat) : FsM Unit := fileClose selfFile

/-- **`thread_exit` leaves the disk alone with interrupts off unless the executable has been
    removed and nobody else has it open**, in every state of every run. Then it takes the
    disk, if the free map has a whole sector or there is memory for a bounce buffer. -/
theorem exit_without_disk {fs₀ fs : Fs} (h₀ : Started fs₀) (h : Reach fsStep Legal fs₀ fs)
    (selfFile : Option Nat)
    (hself : ∀ f, selfFile = some f → (fs.files f).isSome ∧ fs.freeMapFile ≠ some f) :
    WithoutDisk (afterIntrDisable selfFile) fs ↔ selfFile.any (closeUsesDisk fs) = false := by
  cases selfFile with
  | none => exact iff_of_true (wp_pure.mpr trivial) rfl
  | some f =>
    obtain ⟨hopen, hmap⟩ := hself f rfl
    obtain ⟨F, hF⟩ := Option.isSome_iff_exists.mp hopen
    obtain ⟨d, b, own, map, root, hm⟩ := h₀.mounted
    obtain ⟨g, hg⟩ := Goes.of_reach hm.core hm.files h
    exact Core.fileClose_intrOff hg.core hg.files hF hmap

/-- An executable `a` is made, opened by `load`, and denied to writers. -/
def runExecutable : List Call :=
  [.create (fun _ => 0) nameA 600, .openName nameA, .denyWrite 2]

def legal (fs : Fs) (c : Call) : Bool :=
  (match c.file with
    | none => true
    | some f => (fs.files f).isSome && fs.freeMapFile != some f) && decide (c.size < 2147483648)

theorem legal_sound (fs : Fs) (c : Call) (h : legal fs c = true) : Legal fs c := by
  rw [legal, Bool.and_eq_true, decide_eq_true_eq] at h
  refine ⟨fun f hf => ?_, h.2⟩
  rw [hf] at h
  simpa using h.1

/-- A run on a disk that has just been formatted, with memory for everything. -/
theorem exists_run (l : List Call) (c : Fs → Bool)
    (hc : ((filesysInit (fun _ => 0) true (boot blankDisk allGranted)).any fun x =>
      runOk fsStep legal x.2 l && (run fsStep x.2 l).any c) = true) :
    ∃ fs₀ fs, Started fs₀ ∧ Reach fsStep Legal fs₀ fs ∧ Bounces fs.heap ∧ c fs = true := by
  obtain ⟨⟨⟨⟩, fs₀⟩, hinit, hall⟩ := (Option.any_eq_true _ _).mp hc
  rw [Bool.and_eq_true] at hall
  obtain ⟨fs, hr, hfs⟩ := exists_reach _ _ l _ legal_sound hall.1 hall.2
  obtain ⟨hl, d, b, own, map, root, hm, -⟩ := filesysInit_format.1 _ _ hinit
  obtain ⟨g, hg⟩ := Goes.of_reach hm.core hm.files hr
  exact ⟨fs₀, fs, .format hinit, hr, (hl.trans hg.later).bounces fun _ => rfl, hfs⟩

theorem exit_without_disk_named : ∃ fs₀ fs, Started fs₀ ∧ Reach fsStep Legal fs₀ fs ∧
    (fs.files 2).isSome = true ∧ WithoutDisk (afterIntrDisable (some 2)) fs := by
  obtain ⟨fs₀, fs, h₀, hr, -, hfs⟩ := exists_run runExecutable (fun fs => (fs.files 2).isSome &&
    fs.freeMapFile != some 2 && !closeUsesDisk fs 2) (by decide +kernel)
  rw [Bool.and_eq_true, Bool.and_eq_true, bne_iff_ne, Bool.not_eq_true'] at hfs
  refine ⟨fs₀, fs, h₀, hr, hfs.1.1, (exit_without_disk h₀ hr (some 2) ?_).mpr hfs.2⟩
  rintro f hf
  cases hf
  exact hfs.1

/-- The executable is removed while it runs. -/
def removeExecutable : List Call := runExecutable ++ [.remove nameA]

/-- **Another process has removed the executable.** Closing it writes the free map. -/
theorem exit_uses_disk : ∃ fs₀ fs, Started fs₀ ∧ Reach fsStep Legal fs₀ fs ∧
    (fs.files 2).isSome = true ∧ ¬WithoutDisk (afterIntrDisable (some 2)) fs := by
  obtain ⟨fs₀, fs, h₀, hr, -, hfs⟩ := exists_run removeExecutable
    (fun fs => (fs.files 2).isSome && (afterIntrDisable (some 2) (intrOff fs)).isNone)
    (by decide +kernel)
  rw [Bool.and_eq_true, Option.isNone_iff_eq_none] at hfs
  refine ⟨fs₀, fs, h₀, hr, hfs.1, ?_⟩
  rintro ⟨a, t, ht, -⟩
  rw [hfs.2] at ht
  cases ht

end Pintos.Process
