import Pintos.Filesys.Format
import Pintos.Lib.Run

/- Runs of the file system.

   A run starts where `filesys_init` ends, on a disk it has formatted or on one with a
   file system, and goes on with calls in any order. What is proved of every state that
   a run reaches:
     1. `files_apart`: no sector belongs to two files, all those of files are marked in
        the free map, and no call fails an `ASSERT`;
     2. `free_map_on_disk`: the free map in memory is the one in its file, so that
        starting again from the disk finds the same map;
     3. `failed_create_iff`: when a `filesys_create` that returns false leaves the free
        map and the directory as they were. It does not if the name is refused after
        sectors have been taken for the data (`failed_create_leaks`). -/
namespace Pintos.Filesys

open Vm (Buf)
open Lib

variable {fs : Fs} {g : Ghost}

/-! Calls. -/

/-- A call, with what it is given. The sizes of `create` are those of an `off_t`. -/
inductive Call where
  | create (junk : Buf) (name : Name) (size : Int)
  | openName (name : Name)
  | remove (name : Name)
  | reopen (file : Nat)
  | close (file : Nat)
  | denyWrite (file : Nat)
  | allowWrite (file : Nat)
  | read (file : Nat) (buffer : Buf) (size : Nat)
  | write (file : Nat) (buffer : Buf) (size : Nat)
  | readAt (file : Nat) (buffer : Buf) (size offset : Nat)
  | writeAt (file : Nat) (buffer : Buf) (size offset : Nat)
  | seek (file newPos : Nat)

def Call.exec : Call → FsM Unit
  | create junk name size => do let _ ← filesysCreate junk name size
  | openName name => do let _ ← filesysOpen name
  | remove name => do let _ ← filesysRemove name
  | reopen file => do let _ ← fileReopen file
  | close file => fileClose (some file)
  | denyWrite file => fileDenyWrite file
  | allowWrite file => fileAllowWrite file
  | read file buffer size => do let _ ← fileRead file buffer size
  | write file buffer size => do let _ ← fileWrite file buffer size
  | readAt file buffer size offset => do let _ ← fileReadAt file buffer size offset
  | writeAt file buffer size offset => do let _ ← fileWriteAt file buffer size offset
  | seek file newPos => fileSeek file newPos

/-- The open file that is passed, if one is. -/
def Call.file : Call → Option Nat
  | create .. | openName _ | remove _ => none
  | reopen file | close file | denyWrite file | allowWrite file | read file .. | write file ..
  | readAt file .. | writeAt file .. | seek file _ => some file

def Call.size : Call → Int
  | create _ _ size => size
  | _ => 0

def fsStep (fs : Fs) (c : Call) : Option Fs := (c.exec fs).map Prod.snd

/-- Files that are passed are open, and are not the one of the free map, which is never
    handed out. -/
structure Legal (fs : Fs) (c : Call) : Prop where
  file : ∀ f, c.file = some f → (fs.files f).isSome ∧ fs.freeMapFile ≠ some f
  size : c.size < 2147483648

theorem Goes.refl (h : Core fs g) (hf : Files fs g) : Goes fs g fs g :=
  ⟨h, hf, rfl, rfl, rfl, .refl _, fun _ => id⟩

theorem Goes.trans {fs₁ fs₂ fs₃ : Fs} {g₁ g₂ g₃ : Ghost} (h₁ : Goes fs₁ g₁ fs₂ g₂)
    (h₂ : Goes fs₂ g₂ fs₃ g₃) : Goes fs₁ g₁ fs₃ g₃ :=
  ⟨h₂.core, h₂.files, h₂.map.trans h₁.map, h₂.root.trans h₁.root, h₂.mapFile.trans h₁.mapFile,
    h₁.later.trans h₂.later, fun hb hs => by
      rw [← h₁.map]
      exact h₂.synced (h₁.later.bounces hb) (by rw [h₁.map]; exact h₁.synced hb hs)⟩

section Step
variable {fs fs' : Fs} {g : Ghost}

/-- The effect of any call. It has an outcome, unless a new file should have less than no
    bytes. -/
theorem Core.call (h : Core fs g) (hf : Files fs g) {c : Call} (hl : Legal fs c) :
    wpIf (0 ≤ c.size) c.exec (fun _ fs' => ∃ g', Goes fs g fs' g') fs := by
  have hopen : ∀ {f}, c.file = some f → ∃ F, fs.files f = some F ∧ fs.freeMapFile ≠ some f :=
    fun hc => by
      obtain ⟨hs, hne⟩ := hl.file _ hc
      obtain ⟨F, hF⟩ := Option.isSome_iff_exists.mp hs
      exact ⟨F, hF, hne⟩
  cases c with
  | create junk name size =>
    rw [Call.exec, wpIf_bind]
    by_cases hneg : size < 0
    · refine wpIf_mono (wpIf_imp (h.create_neg junk name hneg) fun hz => ?_) ?_
      · exact absurd hz (by simp only [Call.size]; omega)
      · exact fun _ _ ⟨_, hlead⟩ => wpIf_pure.mpr ⟨g, hlead.goes hf rfl rfl⟩
    · refine wpIf_mono (wpIf_of_wp (h.create junk name (by omega) hl.size)) ?_
      rintro ok fs' ⟨hfail, hdone⟩
      rw [wpIf_pure]
      cases ok with
      | false => exact ⟨g, (hfail rfl).leads.goes hf rfl rfl⟩
      | true =>
        obtain ⟨sector, start, hd⟩ := hdone rfl
        exact ⟨_, hd.leads.goes hf rfl rfl⟩
  | openName name =>
    rw [Call.exec, wpIf_bind]
    refine wpIf_mono (wpIf_of_wp (h.filesysOpen hf name)) ?_
    rintro r fs' (⟨-, -, hg, -⟩ | ⟨-, k, -, -, ho⟩)
    · exact wpIf_pure.mpr ⟨g, hg⟩
    · exact wpIf_pure.mpr ⟨_, ho.goes⟩
  | remove name =>
    rw [Call.exec, wpIf_bind]
    refine wpIf_mono (wpIf_of_wp (h.filesysRemove hf name)) ?_
    rintro ok fs' (⟨-, -, hg, -⟩ | ⟨-, k, g', hr⟩)
    · exact wpIf_pure.mpr ⟨g, hg⟩
    · exact wpIf_pure.mpr ⟨g', hr.goes⟩
  | reopen file =>
    obtain ⟨F, hF, hne⟩ := hopen rfl
    rw [Call.exec, wpIf_bind]
    refine wpIf_mono (wpIf_of_wp (h.fileReopen hf hF hne)) ?_
    rintro r fs' (⟨-, -, -, hg⟩ | ⟨-, ho⟩)
    · exact wpIf_pure.mpr ⟨g, hg⟩
    · exact wpIf_pure.mpr ⟨_, ho.goes⟩
  | close file =>
    obtain ⟨F, hF, hne⟩ := hopen rfl
    refine wpIf_mono (wpIf_of_wp (h.fileClose hf hF hne)) ?_
    exact fun _ _ ⟨g', hc⟩ => ⟨g', hc.goes⟩
  | denyWrite file =>
    obtain ⟨F, hF, hne⟩ := hopen rfl
    refine wpIf_mono (wpIf_of_wp (h.fileDenyWrite hf hF hne)) ?_
    exact fun _ _ ⟨⟨g', hg, _⟩, _⟩ => ⟨g', hg⟩
  | allowWrite file =>
    obtain ⟨F, hF, hne⟩ := hopen rfl
    refine wpIf_mono (wpIf_of_wp (h.fileAllowWrite hf hF hne)) ?_
    exact fun _ _ ⟨⟨g', hg, _⟩, _⟩ => ⟨g', hg⟩
  | read file buffer size =>
    obtain ⟨F, hF, hne⟩ := hopen rfl
    rw [Call.exec, wpIf_bind]
    refine wpIf_mono (wpIf_of_wp (h.fileRead hf hF hne buffer size)) ?_
    exact fun _ _ hr => wpIf_pure.mpr ⟨g, hr.1⟩
  | write file buffer size =>
    obtain ⟨F, hF, hne⟩ := hopen rfl
    rw [Call.exec, wpIf_bind]
    refine wpIf_mono (wpIf_of_wp (h.fileWrite hf hF hne buffer size)) ?_
    exact fun _ _ hw => wpIf_pure.mpr ⟨g, hw.1.goes⟩
  | readAt file buffer size offset =>
    obtain ⟨F, hF, -⟩ := hopen rfl
    rw [Call.exec, wpIf_bind]
    refine wpIf_mono (wpIf_of_wp (h.fileReadAt hf hF buffer size offset)) ?_
    exact fun _ _ hr => wpIf_pure.mpr ⟨g, hr.1⟩
  | writeAt file buffer size offset =>
    obtain ⟨F, hF, hne⟩ := hopen rfl
    rw [Call.exec, wpIf_bind]
    refine wpIf_mono (wpIf_of_wp (h.fileWriteAt hf hF hne buffer size offset)) ?_
    exact fun _ _ hw => wpIf_pure.mpr ⟨g, hw.1.goes⟩
  | seek file newPos =>
    obtain ⟨F, hF, hne⟩ := hopen rfl
    refine wpIf_mono (wpIf_of_wp (h.fileSeek hf hF hne newPos)) ?_
    exact fun _ _ hs => ⟨g, hs.1⟩

theorem fsStep_eq {c : Call} (h : fsStep fs c = some fs') : c.exec fs = some ((), fs') := by
  obtain ⟨⟨u, t⟩, hx, rfl⟩ := Option.map_eq_some_iff.mp h
  exact hx

theorem Goes.of_reach {fs₀ : Fs} {g₀ : Ghost} (h₀ : Core fs₀ g₀) (hf₀ : Files fs₀ g₀)
    (h : Reach fsStep Legal fs₀ fs) : ∃ g, Goes fs₀ g₀ fs g := by
  refine h.inv (I := fun fs => ∃ g, Goes fs₀ g₀ fs g) ⟨g₀, .refl h₀ hf₀⟩ ?_
  rintro s c s' ⟨g, hg⟩ hl hs
  obtain ⟨g', hg'⟩ := (hg.core.call hg.files hl).1 _ _ (fsStep_eq hs)
  exact ⟨g', hg.trans hg'⟩

end Step

/-! Where a run starts. -/

/-- `filesys_init` has returned: it has formatted the disk, or there was a file system. -/
inductive Started : Fs → Prop
  | format {d : Disk} {heap : Heap} {bits : Nat → BitVec 32} {fs : Fs} :
    filesysInit bits true (boot d heap) = some ((), fs) → Started fs
  | mount {d : Disk} {b : Bitmap} {own : Nat → Option InodeDisk} {map root : InodeDisk}
    {heap : Heap} {bits : Nat → BitVec 32} {fs : Fs} : Volume d b own map root →
    filesysInit bits false (boot d heap) = some ((), fs) → Started fs

theorem Started.mounted (h : Started fs) :
    ∃ d b own map root, Mounted d b own map root fs := by
  cases h with
  | format h =>
    obtain ⟨-, d, b, own, map, root, hm, -⟩ := filesysInit_format.1 _ _ h
    exact ⟨d, b, own, map, root, hm⟩
  | mount v h => exact ⟨_, _, _, _, _, ((filesysInit_mount v).1 _ _ h).2⟩

/-! Sectors of different files. -/

/-- The file whose inode is in sector `s` exists: it is one of the two of the file system
    itself, it has a name, or it is open. -/
def Present (fs : Fs) (s : Nat) : Prop :=
  s = freeMapSector ∨ s = rootDirSector ∨
    Named (fs.disk.inodeAt rootDirSector) fs.disk s ∨ (fs.openInodes s).isSome

/-- The sectors of the files are their own and in use. The inode of a file is taken from
    the disk; one that is open is the same in memory. -/
structure FilesApart (fs : Fs) : Prop where
  opened : ∀ {s m}, fs.openInodes s = some m → m.data = fs.disk.inodeAt s
  named : ∀ {j k}, j < (fs.disk.inodeAt rootDirSector).entryCnt →
    k < (fs.disk.inodeAt rootDirSector).entryCnt →
    inUse (dirEntry (fs.disk.inodeAt rootDirSector) fs.disk j) = true →
    inUse (dirEntry (fs.disk.inodeAt rootDirSector) fs.disk k) = true →
    inodeSector (dirEntry (fs.disk.inodeAt rootDirSector) fs.disk j) =
      inodeSector (dirEntry (fs.disk.inodeAt rootDirSector) fs.disk k) → j = k
  apart : ∀ {s t sec}, Present fs s → Present fs t → Occupies s (fs.disk.inodeAt s) sec →
    Occupies t (fs.disk.inodeAt t) sec → s = t
  self : ∀ {s}, Present fs s → ¬(fs.disk.inodeAt s).Holds s
  marked : ∀ {s sec}, Present fs s → Occupies s (fs.disk.inodeAt s) sec →
    sec < fs.disk.capacity ∧ bitmapTest fs.freeMap sec = some true

theorem Core.rootAt (h : Core fs g) :
    fs.disk.inodeAt rootDirSector = g.root := (h.space.fine h.rootNode).stored

theorem Core.own_of_present (h : Core fs g) {s : Nat} (hs : Present fs s) :
    g.own s = some (fs.disk.inodeAt s) := by
  have hown : ∃ n, g.own s = some n := by
    rcases hs with rfl | rfl | hn | ho
    · exact ⟨_, h.mapNode⟩
    · exact ⟨_, h.rootNode⟩
    · rw [h.rootAt] at hn
      exact Option.isSome_iff_exists.mp (h.listing.owned hn)
    · obtain ⟨m, hm⟩ := Option.isSome_iff_exists.mp ho
      exact ⟨_, (h.opened hm).1⟩
  obtain ⟨n, hn⟩ := hown
  rw [hn, (h.space.fine hn).stored]

theorem Core.filesApart (h : Core fs g) : FilesApart fs where
  opened := fun hm => (h.space.fine (h.opened hm).1).stored.symm
  named := by
    rw [h.rootAt]
    exact h.listing.distinct
  apart := fun hs ht => h.space.excl.apart (h.own_of_present hs) (h.own_of_present ht)
  self := fun hs => (h.space.fine (h.own_of_present hs)).self
  marked := fun {s sec} hs hocc => by
    have hown := h.own_of_present hs
    have hlt : sec < fs.disk.capacity := by
      rcases hocc with rfl | hx
      · exact (h.space.fine hown).sector_lt
      · exact Nat.lt_of_lt_of_le hx.2 (h.space.fine hown).extent_le
    refine ⟨hlt, ?_⟩
    rw [bitmapTest_eq (by rw [h.space.size]; exact hlt), h.space.excl.used hown hocc]

/-- **Files never share sectors.** In every state of every run the files that exist,
    among them those that have been removed but are still open, have inode and data
    sectors of their own, all of them marked in the free map. Every call has an outcome
    there, so no `ASSERT` fails, that of `free_map_release` included. -/
theorem files_apart {fs₀ fs : Fs} (h₀ : Started fs₀) (h : Reach fsStep Legal fs₀ fs) :
    FilesApart fs ∧ ∀ c, Legal fs c → 0 ≤ c.size → ∃ fs', fsStep fs c = some fs' := by
  obtain ⟨d, b, own, map, root, hm⟩ := h₀.mounted
  obtain ⟨g, hg⟩ := Goes.of_reach hm.core hm.files h
  refine ⟨hg.core.filesApart, fun c hl hsize => ?_⟩
  obtain ⟨u, fs', hx⟩ := (hg.core.call hg.files hl).2 hsize
  exact ⟨fs', by rw [fsStep, hx]; rfl⟩

/-- A disk of sixteen sectors, and memory for everything. -/
def blankDisk : Disk := ⟨16, by decide, fun _ _ => 0⟩

def allGranted : Heap := ⟨fun _ => true, fun _ => true⟩

def nameA : Name := ⟨[97], by decide⟩

/-- A file of two sectors is made, opened and removed. -/
def removeOpen : List Call :=
  [.create (fun _ => 0) nameA 600, .openName nameA, .remove nameA]

/-- The calls name no open file, so nothing is asked of the states they are made in. -/
theorem removeOpen_legal : ∀ c ∈ removeOpen, ∀ fs, Legal fs c := by
  intro c hc fs
  simp only [removeOpen, List.mem_cons, List.not_mem_nil, or_false] at hc
  rcases hc with rfl | rfl | rfl <;> exact ⟨fun _ hf => (by cases hf), by decide⟩

theorem removeOpen_any : ((filesysInit (fun _ => 0) true (boot blankDisk allGranted)).bind
    fun r => run fsStep r.2 removeOpen).any (fun fs => (fs.openInodes 4).any (·.removed)) = true := by
  decide +kernel

/-- On a disk that has just been formatted the file is still open in the end. -/
theorem removeOpen_runs : ∃ fs₀ fs,
    filesysInit (fun _ => 0) true (boot blankDisk allGranted) = some ((), fs₀) ∧
      run fsStep fs₀ removeOpen = some fs ∧ (fs.openInodes 4).any (·.removed) = true := by
  obtain ⟨fs, hrun, hopen⟩ := Option.any_eq_true _ _ |>.mp removeOpen_any
  obtain ⟨⟨⟨⟩, fs₀⟩, hinit, hrun⟩ := Option.bind_eq_some_iff.mp hrun
  exact ⟨fs₀, fs, hinit, hrun, hopen⟩

theorem files_apart_removeOpen : ∃ fs₀ fs,
    filesysInit (fun _ => 0) true (boot blankDisk allGranted) = some ((), fs₀) ∧
      run fsStep fs₀ removeOpen = some fs ∧ (fs.openInodes 4).any (·.removed) = true ∧
      FilesApart fs := by
  obtain ⟨fs₀, fs, hinit, hrun, hopen⟩ := removeOpen_runs
  exact ⟨fs₀, fs, hinit, hrun, hopen,
    (files_apart (.format hinit) (reach_of_all removeOpen_legal hrun)).1⟩

/-! The free map on the disk. -/

/-- The same map, in all the elements there are. -/
def SameMap (b b' : Bitmap) : Prop :=
  b.bitCnt = b'.bitCnt ∧ ∀ e < elemCnt b.bitCnt, b.bits e = b'.bits e

/-- Bits that are in use are the same, and the others of the last element are clear. -/
theorem SameMap.of_bits {b b' : Bitmap} (hcnt : b.bitCnt = b'.bitCnt) (ht : b.Trim) (ht' : b'.Trim)
    (h : ∀ i < b.bitCnt, b.bit i = b'.bit i) : SameMap b b' := by
  refine ⟨hcnt, fun e he => BitVec.eq_of_getLsbD_eq fun k hk => ?_⟩
  have hidx : elemIdx (elemBits * e + k) = e := by
    simp only [elemIdx, elemBits]
    omega
  have hmod : (elemBits * e + k) % elemBits = k := by
    simp only [elemBits]
    omega
  have hlt : elemBits * e + k < elemBits * elemCnt b.bitCnt := by
    simp only [elemBits] at he ⊢
    omega
  have hbit : b.bit (elemBits * e + k) = b'.bit (elemBits * e + k) := by
    by_cases hin : elemBits * e + k < b.bitCnt
    · exact h _ hin
    · rw [ht _ (by omega) hlt, ht' _ (by omega) (by rw [← hcnt]; exact hlt)]
  simpa only [Bitmap.bit, hidx, hmod] using hbit

/-- The file of the free map holds the map that is in memory: reading it changes nothing,
    and neither does starting again without formatting. -/
structure MapOnDisk (fs : Fs) : Prop where
  read : ∃ file, fs.freeMapFile = some file ∧ wp (bitmapRead file) (fun ok fs' =>
    ok = true ∧ SameMap fs'.freeMap fs.freeMap) fs
  reboot : ∀ heap bits, wpIf (Plenty heap) (filesysInit bits false) (fun _ fs' =>
    SameMap fs'.freeMap fs.freeMap) (boot fs.disk heap)

theorem Core.volume (h : Core fs g) (hs : Synced g.map fs.disk fs.freeMap) :
    Volume fs.disk fs.freeMap g.own g.map g.root :=
  ⟨h.space, h.mapNode, by rw [← h.space.size]; exact h.mapSize, h.rootNode, h.listing, hs.agrees⟩

theorem Core.mapOnDisk (h : Core fs g)
    (hs : Synced g.map fs.disk fs.freeMap) (hb : Bounces fs.heap) : MapOnDisk fs := by
  obtain ⟨f, m, hf, hmf, hdata⟩ := h.map
  have hpos : 0 < fs.freeMap.bitCnt := by
    rw [h.space.size]
    exact (h.space.fine h.mapNode).sector_lt
  refine ⟨⟨f, hf, wp_mono (bitmapRead_spec hmf hpos) ?_⟩, fun heap bits =>
    wpIf_mono (filesysInit_mount (h.volume hs)) ?_⟩
  · rintro ok fs' ⟨b, h', rfl, -, hcnt, hok, hsync⟩
    have hsync := hsync (hok hb)
    rw [hdata] at hsync
    refine ⟨hok hb, .of_bits hcnt hsync.trim hs.trim fun i hi => ?_⟩
    rw [← hsync.agrees i hi, hcnt]
    exact hs.agrees i (hcnt ▸ hi)
  · rintro - fs' ⟨-, hm⟩
    have hcnt : fs'.freeMap.bitCnt = fs.freeMap.bitCnt := by
      rw [hm.core.space.size, hm.disk, h.space.size]
    exact .of_bits hcnt hm.synced.trim hs.trim fun i hi => hm.bits i (hcnt ▸ hi)

/-- **The free map on the disk is the one in memory**, in every state of every run in
    which the bounce buffers are allocated, whatever the size of the disk and whichever
    other allocations fail. -/
theorem free_map_on_disk {fs₀ fs : Fs} (h₀ : Started fs₀) (hb : Bounces fs₀.heap)
    (h : Reach fsStep Legal fs₀ fs) : MapOnDisk fs := by
  obtain ⟨d, b, own, map, root, hm⟩ := h₀.mounted
  obtain ⟨g, hg⟩ := Goes.of_reach hm.core hm.files h
  refine hg.core.mapOnDisk ?_ (hg.later.bounces hb)
  rw [hg.map]
  exact hg.synced hb hm.synced

theorem free_map_on_disk_removeOpen : ∃ fs₀ fs,
    filesysInit (fun _ => 0) true (boot blankDisk allGranted) = some ((), fs₀) ∧
      run fsStep fs₀ removeOpen = some fs ∧ MapOnDisk fs := by
  obtain ⟨fs₀, fs, hinit, hrun, -⟩ := removeOpen_runs
  have hb : Bounces fs₀.heap := (filesysInit_format.1 _ _ hinit).1.bounces fun _ => rfl
  exact ⟨fs₀, fs, hinit, hrun,
    free_map_on_disk (.format hinit) hb (reach_of_all removeOpen_legal hrun)⟩

/-! Files that could not be made. -/

/-- A call left the free map and the entries of the root directory as they were. -/
structure Unchanged (fs fs' : Fs) : Prop where
  freeMap : fs'.freeMap = fs.freeMap
  entries : SameEntries (fs.disk.inodeAt rootDirSector) fs.disk fs'.disk

/-- There is a free sector for an inode and, without it, room for its data. -/
def HasRoom (b : Bitmap) (cnt : Nat) : Prop := ∃ sector start, Room b cnt sector start

/-- A new file has data and there is room for it, but the directory does not take it. -/
def Leaks (fs : Fs) (name : Name) (size : Int) : Prop :=
  0 < bytesToSectors size ∧ HasRoom fs.freeMap (bytesToSectors size) ∧
    ¬Accepts (fs.disk.inodeAt rootDirSector) fs.disk name

/-- Sectors that were free and are taken now make a difference. -/
theorem Room.fill_ne {b : Bitmap} {cnt sector start : Nat} (h : Room b cnt sector start)
    (hcnt : 0 < cnt) : b.fill start cnt true ≠ b := by
  intro heq
  have hbit := congrArg (·.bit start) heq
  simp only [Bitmap.fill_bit, if_pos (show start ≤ start ∧ start < start + cnt by omega)] at hbit
  have hfree := h.data.2.1 0 hcnt
  rw [Nat.add_zero, Bitmap.fill_bit, ← hbit, ite_self] at hfree
  cases hfree

section Failed
variable {fs fs' : Fs} {g : Ghost} {name : Name} {cnt : Nat}

theorem CreateFailed.unchanged (h : CreateFailed fs g name cnt fs') (hc : Core fs g)
    (hno : cnt = 0 ∨ ¬HasRoom fs.freeMap cnt) : Unchanged fs fs' := by
  refine ⟨?_, by rw [hc.rootAt]; exact h.entries⟩
  rcases h.freeMap with ⟨hsame, -⟩ | ⟨sector, start, hroom, hfill, -⟩
  · exact hsame
  · rcases hno with rfl | hno
    · exact hfill
    · exact absurd ⟨sector, start, hroom⟩ hno

/-- With memory for everything, the call has an effect on the free map exactly if the
    directory refused the name of a file that has data. -/
theorem CreateFailed.unchanged_iff (h : CreateFailed fs g name cnt fs') (hc : Core fs g)
    (hp : Plenty fs.heap) : Unchanged fs fs' ↔ ¬(0 < cnt ∧ HasRoom fs.freeMap cnt) := by
  refine ⟨fun hu hleak => ?_, fun hno => h.unchanged hc ?_⟩
  · rcases h.freeMap with ⟨-, hroom⟩ | ⟨sector, start, hroom, hfill, -⟩
    · obtain ⟨-, sector, start, hr⟩ := hleak
      exact hroom hp sector start hr
    · exact hroom.fill_ne hleak.1 (hfill.symm.trans hu.freeMap)
  · grind

end Failed

/-- **When a failed `filesys_create` has no effect.** A call that returns false leaves the
    free map and the directory as they were if the file has no data or there is no room
    for it. If no allocation fails, it does so exactly if it is not the case that the file
    has data, there is room for it and the directory does not take the name. -/
theorem failed_create_iff {fs₀ fs : Fs} (h₀ : Started fs₀) (h : Reach fsStep Legal fs₀ fs)
    (junk : Buf) (name : Name) {size : Int} (h0 : 0 ≤ size) (h31 : size < 2147483648) :
    wp (filesysCreate junk name size) (fun ok fs' =>
      (bytesToSectors size = 0 ∨ ¬HasRoom fs.freeMap (bytesToSectors size) →
        ok = false → Unchanged fs fs') ∧
      (Plenty fs.heap → ((ok = false → Unchanged fs fs') ↔ ¬Leaks fs name size))) fs := by
  obtain ⟨d, b, own, map, root, hm⟩ := h₀.mounted
  obtain ⟨g, hg⟩ := Goes.of_reach hm.core hm.files h
  have hc := hg.core
  refine wp_mono (hc.create junk name h0 h31) ?_
  rintro ok fs' ⟨hfail, hdone⟩
  refine ⟨fun hno hok => (hfail hok).unchanged hc hno, fun hp => ?_⟩
  rw [Leaks, hc.rootAt]
  cases ok with
  | true =>
    obtain ⟨sector, start, hd⟩ := hdone rfl
    exact ⟨fun _ hl => hl.2.2 (hd.accepts hp), fun _ hok => by cases hok⟩
  | false =>
    have hf := hfail rfl
    simp only [forall_const, hf.unchanged_iff hc hp, not_and]
    constructor
    · exact fun hno hcnt hroom => absurd hroom (hno hcnt)
    · intro hno hcnt hroom
      rcases hf.freeMap with ⟨-, hnone⟩ | ⟨sector, start, -, -, hacc⟩
      · obtain ⟨sector, start, hr⟩ := hroom
        exact hnone hp sector start hr
      · exact hno hcnt hroom (hacc hp)

def oneByte : Call := .create (fun _ => 0) nameA 1

theorem oneByte_any : ((filesysInit (fun _ => 0) true (boot blankDisk allGranted)).bind fun r =>
    (run fsStep r.2 [oneByte]).bind fun fs =>
      (filesysCreate (fun _ => 0) nameA 1 fs).map fun x => (fs, x)).any (fun y =>
    !y.2.1 && bitmapTest y.1.freeMap 7 = some false &&
      bitmapTest y.2.2.freeMap 7 = some true) = true := by
  decide +kernel

/-- On a disk with a file `a`, making another one of this name fails. -/
theorem oneByte_runs : ∃ fs₀ fs fs',
    filesysInit (fun _ => 0) true (boot blankDisk allGranted) = some ((), fs₀) ∧
      run fsStep fs₀ [oneByte] = some fs ∧
      filesysCreate (fun _ => 0) nameA 1 fs = some (false, fs') ∧
      bitmapTest fs.freeMap 7 = some false ∧ bitmapTest fs'.freeMap 7 = some true := by
  obtain ⟨⟨fs, ok, fs'⟩, hy, hbits⟩ := Option.any_eq_true _ _ |>.mp oneByte_any
  obtain ⟨⟨⟨⟩, fs₀⟩, hinit, hy⟩ := Option.bind_eq_some_iff.mp hy
  obtain ⟨fs₁, hrun, hy⟩ := Option.bind_eq_some_iff.mp hy
  obtain ⟨x, hx, heq⟩ := Option.map_eq_some_iff.mp hy
  cases heq
  simp only [Bool.and_eq_true, Bool.not_eq_true', decide_eq_true_eq] at hbits
  obtain ⟨⟨rfl, hfree⟩, htaken⟩ := hbits
  exact ⟨fs₀, fs, fs', hinit, hrun, hx, hfree, htaken⟩

/-- **The data sectors of a refused file stay taken**: sector 7 was free before the call
    that failed, and is not any more. -/
theorem failed_create_leaks : ∃ fs₀ fs fs',
    filesysInit (fun _ => 0) true (boot blankDisk allGranted) = some ((), fs₀) ∧
      run fsStep fs₀ [oneByte] = some fs ∧
      filesysCreate (fun _ => 0) nameA 1 fs = some (false, fs') ∧
      ¬Unchanged fs fs' := by
  obtain ⟨fs₀, fs, fs', hinit, hrun, hx, hfree, htaken⟩ := oneByte_runs
  refine ⟨fs₀, fs, fs', hinit, hrun, hx, fun hu => ?_⟩
  rw [hu.freeMap, hfree] at htaken
  cases htaken

/-- A file without data that is refused in the same state leaves nothing behind. -/
theorem failed_create_iff_noData : ∃ fs₀ fs,
    filesysInit (fun _ => 0) true (boot blankDisk allGranted) = some ((), fs₀) ∧
      run fsStep fs₀ [oneByte] = some fs ∧
      wp (filesysCreate (fun _ => 0) nameA 0)
        (fun ok fs' => ok = false → Unchanged fs fs') fs := by
  have hlegal : ∀ c ∈ [oneByte], ∀ fs, Legal fs c := by
    intro c hc fs
    rw [List.mem_singleton] at hc
    exact hc ▸ ⟨fun _ hf => (by cases hf), by decide⟩
  obtain ⟨fs₀, fs, -, hinit, hrun, -⟩ := oneByte_runs
  refine ⟨fs₀, fs, hinit, hrun, wp_mono (failed_create_iff (.format hinit)
    (reach_of_all hlegal hrun) (fun _ => 0) nameA (by decide) (by decide)) ?_⟩
  exact fun ok fs' hu => hu.1 (Or.inl (by decide))

end Pintos.Filesys
