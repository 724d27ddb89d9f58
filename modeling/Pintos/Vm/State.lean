import Mathlib.Data.List.AList
import Pintos.Lib.Chunks

/- The data the virtual memory code works on.

   One record, `VmState`, holds what `vm/`, `userprog/pagedir.c`,
   `userprog/exception.c` and the unmapping code of `userprog/` share: the user
   pool and its bitmap, the frame table, every process's page directory,
   supplemental page table and mapping list, the swap table with its disk, and
   the contents of the files that can be mapped.

   Correspondence (C ↔ Lean):
     a user pool page, by its kernel address  ↔ its index in the pool
     `struct frame_entry`                     ↔ `FrameEntry`
     `struct sup_page_entry`                  ↔ `SupPageEntry`, under its `upage`
     a page table entry                       ↔ `Pte`, under its user page
     `struct swap_entry`, by pointer          ↔ its index in `swapTable`
     `struct file`, by pointer                ↔ an index of `files`
     a null or never written pointer          ↔ `none`
   The fields `is_valid` and `fault_case` of `sup_page_entry` and `pte` of
   `frame_entry` are written by the source and read by nothing, so they are left
   out. A thread is named by its tid and tids are not reused, so a use of a dead
   thread's memory is visible as such. -/
namespace Pintos.Vm

abbrev Byte := UInt8

/-- The contents of a page or a sector, by offset. -/
abbrev Buf := Nat → Byte

abbrev Tid := Nat

def pgsize : Nat := 4096
def diskSectorSize : Nat := 512
def physBase : Nat := 0xc0000000

/-- Pointers and `size_t` are 32 bits wide. -/
def wordSize : Nat := 0x100000000

def pgRoundDown (a : Nat) : Nat := a - a % pgsize
def pgOfs (a : Nat) : Nat := a % pgsize
def isUserVaddr (a : Nat) : Bool := a < physBase

/-- What `pagedir.c` asserts of the page it is given. -/
def isUserPage (upage : Nat) : Bool := pgOfs upage == 0 && isUserVaddr upage

/-- A page table entry: the frame and the bits `PTE_P`, `PTE_W` and `PTE_D`. -/
structure Pte where
  kpage : Nat
  present : Bool
  writable : Bool
  dirty : Bool
  deriving DecidableEq, Repr

/-- The user part of a page directory, by user page. -/
abbrev Pagedir := AList (fun _ : Nat => Pte)

structure SupPageEntry where
  kpage : Option Nat
  swapAddress : Option Nat
  fileAddress : Option Nat
  filePos : Nat
  deriving DecidableEq, Repr

/-- A supplemental page table, by user page. The source keeps it as a hash table
    ordered by `upage`; the order of the entries is not looked at. -/
abbrev SupPageTable := AList (fun _ : Nat => SupPageEntry)

/-- `upage` is `none` until `frame_entry_set_pte` writes it. -/
structure FrameEntry where
  usingThread : Tid
  kpage : Nat
  upage : Option Nat
  deriving DecidableEq, Repr

structure SwapEntry where
  isUsed : Bool
  firstSecNo : Nat
  deriving DecidableEq, Repr

structure Disk where
  capacity : Nat
  sector : Nat → Buf

/-- A file's inode: its contents as a byte array. -/
structure Inode where
  length : Nat
  data : Buf
  denyWriteCnt : Nat

/-- An open `struct file`. `file_open` callocs it, so `mapping` starts as 0. -/
structure File where
  inode : Nat
  mapping : Int

structure VmState where
  poolSize : Nat
  usedMap : Nat → Bool
  mem : Nat → Buf
  frameTable : List FrameEntry
  pagedir : Tid → Pagedir
  supPageTable : Tid → SupPageTable
  mappingList : Tid → List Nat
  selfFile : Tid → Option Nat
  /-- `start_process` has left `load` and entered user mode. -/
  loaded : Tid → Bool
  exited : Tid → Bool
  files : Nat → File
  nextFile : Nat
  inodes : Nat → Inode
  /-- Whether `malloc` has a bounce buffer for the next read, or write, of the file. -/
  readBounce : Nat → Bool
  writeBounce : Nat → Bool
  swapTable : List SwapEntry
  swapDisk : Disk

/-! User pages. -/

theorem isUserPage_iff {u : Nat} : isUserPage u = true ↔ u % 4096 = 0 ∧ u < 0xc0000000 := by
  rw [isUserPage, isUserVaddr, Bool.and_eq_true, beq_iff_eq, decide_eq_true_iff]
  exact Iff.rfl

theorem page_ofs {u o : Nat} (hu : isUserPage u = true) (ho : o < pgsize) :
    pgRoundDown (u + o) = u ∧ pgOfs (u + o) = o := by
  have hmod := (isUserPage_iff.mp hu).1
  rw [show pgsize = 4096 from rfl] at ho
  rw [pgRoundDown, pgOfs, show pgsize = 4096 from rfl]
  omega

/-! Page directories. -/

/-- `pagedir_get_page`, for a page: the frame it is mapped to. -/
def pagedirGetPage (pd : Pagedir) (upage : Nat) : Option Nat :=
  match pd.lookup upage with
  | some e => if e.present then some e.kpage else none
  | none => none

def pagedirIsDirty (pd : Pagedir) (upage : Nat) : Bool :=
  match pd.lookup upage with
  | some e => e.dirty
  | none => false

/-- `pagedir_clear_page` below its assertion: only the present bit goes. -/
def clearPresent (pd : Pagedir) (upage : Nat) : Pagedir :=
  match pd.lookup upage with
  | some e => if e.present then pd.insert upage { e with present := false } else pd
  | none => pd

theorem getPage_eq_some {pd : Pagedir} {u k : Nat} :
    pagedirGetPage pd u = some k ↔ ∃ e, pd.lookup u = some e ∧ e.present = true ∧ e.kpage = k := by
  unfold pagedirGetPage
  cases he : pd.lookup u with
  | none => simp
  | some e => by_cases hp : e.present = true <;> simp [hp]

theorem getPage_insert (pd : Pagedir) (u v : Nat) (e : Pte) :
    pagedirGetPage (pd.insert u e) v =
      if v = u then (if e.present then some e.kpage else none) else pagedirGetPage pd v := by
  unfold pagedirGetPage
  by_cases h : v = u
  · subst h; simp
  · simp [h]

theorem getPage_clearPresent (pd : Pagedir) (u v : Nat) :
    pagedirGetPage (clearPresent pd u) v = if v = u then none else pagedirGetPage pd v := by
  unfold clearPresent
  split
  · next e he =>
    split
    · simp [getPage_insert]
    · next hp =>
      by_cases h : v = u
      · subst h; simp [pagedirGetPage, he, hp]
      · simp [h]
  · next he =>
    by_cases h : v = u
    · subst h; simp [pagedirGetPage, he]
    · simp [h]

/-- Clearing the present bit leaves every dirty bit as it is. -/
theorem isDirty_clearPresent (pd : Pagedir) (u v : Nat) :
    pagedirIsDirty (clearPresent pd u) v = pagedirIsDirty pd v := by
  unfold clearPresent
  split
  · next e he =>
    split
    · by_cases h : v = u
      · subst h; simp [pagedirIsDirty, he]
      · simp [pagedirIsDirty, h]
    · rfl
  · rfl

@[simp] theorem getPage_empty (u : Nat) : pagedirGetPage ∅ u = none := by
  simp [pagedirGetPage]

/-! The swap disk. -/

/-- `disk_write`: `select_sector` asserts that the sector is on the disk. -/
def diskWrite (d : Disk) (sec : Nat) (buf : Buf) : Option Disk :=
  if sec < d.capacity then some { d with sector := Function.update d.sector sec buf } else none

def diskRead (d : Disk) (sec : Nat) : Option Buf :=
  if sec < d.capacity then some (d.sector sec) else none

/-- The copy loop of `swap_out`: `n` sectors of the page, in order. -/
def writeSectors (d : Disk) (sec : Nat) (page : Buf) : Nat → Option Disk
  | 0 => some d
  | n + 1 => (writeSectors d sec page n).bind fun d' =>
      diskWrite d' (sec + n) (Lib.chunk diskSectorSize page n)

/-- The copy loop of `swap_in`: `n` sectors into the page, in order. -/
def readSectors (d : Disk) (sec : Nat) (page : Buf) : Nat → Option Buf
  | 0 => some page
  | n + 1 => (readSectors d sec page n).bind fun pg =>
      (diskRead d (sec + n)).map fun b i =>
        if n * diskSectorSize ≤ i ∧ i < (n + 1) * diskSectorSize then b (i - n * diskSectorSize)
        else pg i

theorem writeSectors_eq (d : Disk) (sec : Nat) (page : Buf) (n : Nat) (h : sec + n ≤ d.capacity) :
    writeSectors d sec page n =
      some { d with sector := Lib.writeChunks diskSectorSize page d.sector sec n } := by
  induction n with
  | zero => rfl
  | succ n ih =>
    rw [writeSectors, ih (by omega), Option.bind_some, diskWrite, if_pos (by simp only; omega)]
    rfl

theorem writeSectors_capacity {d : Disk} {sec : Nat} {page : Buf} : ∀ (n : Nat) {d' : Disk},
    writeSectors d sec page n = some d' → d'.capacity = d.capacity
  | 0, _, h => by cases h; rfl
  | n + 1, _, h => by
    rw [writeSectors, Option.bind_eq_some_iff] at h
    obtain ⟨d₁, hd₁, hw⟩ := h
    unfold diskWrite at hw
    split at hw
    · have hcap := writeSectors_capacity n hd₁
      cases hw
      exact hcap
    · cases hw

theorem writeSectors_some {d d' : Disk} {sec : Nat} {page : Buf} {n : Nat} (hn : 0 < n)
    (h : writeSectors d sec page n = some d') :
    sec + n ≤ d.capacity ∧
      d' = { d with sector := Lib.writeChunks diskSectorSize page d.sector sec n } := by
  suffices hle : sec + n ≤ d.capacity by
    refine ⟨hle, ?_⟩
    rw [writeSectors_eq d sec page n hle] at h
    exact (Option.some.inj h).symm
  obtain ⟨m, rfl⟩ : ∃ m, n = m + 1 := ⟨n - 1, by omega⟩
  rw [writeSectors, Option.bind_eq_some_iff] at h
  obtain ⟨d₁, hd₁, hw⟩ := h
  -- the last sector written is the highest one, and its assertion passed
  have hcap : d₁.capacity = d.capacity := writeSectors_capacity m hd₁
  unfold diskWrite at hw
  split at hw
  · omega
  · cases hw

theorem readSectors_some {d : Disk} {sec : Nat} {page page' : Buf} {n : Nat} (hn : 0 < n)
    (h : readSectors d sec page n = some page') :
    sec + n ≤ d.capacity := by
  obtain ⟨m, rfl⟩ : ∃ m, n = m + 1 := ⟨n - 1, by omega⟩
  rw [readSectors, Option.bind_eq_some_iff] at h
  obtain ⟨pg, -, hr⟩ := h
  rw [Option.map_eq_some_iff] at hr
  obtain ⟨b, hb, -⟩ := hr
  unfold diskRead at hb
  split at hb
  · omega
  · cases hb

theorem readSectors_eq (d : Disk) (sec : Nat) (page : Buf) (n : Nat) (h : sec + n ≤ d.capacity) :
    readSectors d sec page n = some fun i =>
      if i < n * diskSectorSize then Lib.readChunks diskSectorSize d.sector sec i else page i := by
  induction n with
  | zero => simp [readSectors]
  | succ n ih =>
    rw [readSectors, ih (by omega), Option.bind_some, diskRead, if_pos (by omega), Option.map_some]
    congr 1
    funext i
    have hS : diskSectorSize = 512 := rfl
    by_cases hlo : n * diskSectorSize ≤ i ∧ i < (n + 1) * diskSectorSize
    · grind [Lib.readChunks]
    · grind

/-! Inodes, as byte arrays. -/

/-- How many bytes `inode_read_at` and `inode_write_at` move: those that the file has. A sector
    that is not moved as a whole needs the bounce buffer, and without it the loop ends. -/
def Inode.moved (nd : Inode) (bounce : Bool) (size offset : Nat) : Nat :=
  let n := min size (nd.length - offset)
  if bounce then n else if offset % diskSectorSize = 0 then n - n % diskSectorSize else 0

/-- `inode_write_at`: nothing while writes are denied, and nothing past the end. -/
def inodeWriteAt (bounce : Bool) (nd : Inode) (buf : Buf) (size offset : Nat) : Inode :=
  if nd.denyWriteCnt = 0 then
    { nd with data := fun i =>
        if offset ≤ i ∧ i < offset + nd.moved bounce size offset then buf (i - offset)
        else nd.data i }
  else nd

/-- `inode_read_at` into `buf`: bytes past the end of the file are left as they were. -/
def inodeReadAt (bounce : Bool) (nd : Inode) (buf : Buf) (size offset : Nat) : Buf := fun i =>
  if i < nd.moved bounce size offset then nd.data (offset + i) else buf i

@[simp] theorem inodeWriteAt_length (b : Bool) (nd : Inode) (buf : Buf) (size offset : Nat) :
    (inodeWriteAt b nd buf size offset).length = nd.length := by
  unfold inodeWriteAt; split <;> rfl

@[simp] theorem inodeWriteAt_denyWriteCnt (b : Bool) (nd : Inode) (buf : Buf) (size offset : Nat) :
    (inodeWriteAt b nd buf size offset).denyWriteCnt = nd.denyWriteCnt := by
  unfold inodeWriteAt; split <;> rfl

end Pintos.Vm
