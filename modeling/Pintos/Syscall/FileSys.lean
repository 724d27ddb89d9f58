import Pintos.Vm.State

/- The file system as the system calls see it.

   `Vm.Inode` already holds an inode's contents as a byte array. Here the rest:
   the root directory, the free map, the in-memory side of the inodes and each
   thread's open files. The functions below are the ones that change this data
   and touch no user memory; `none` is a failed `ASSERT`.

   Correspondence (C ↔ Lean):
     an inode, by its sector                     ↔ an index of `inodes` and `info`
     `struct file` on a thread's `file_list`     ↔ `OpenFile`
     `struct dir_entry` of the root directory    ↔ `DirEntry`, the name without its NUL
     `free_map_allocate`, `free_map_release`     ↔ `freeMapAllocate`, `freeMapRelease`
     `inode_open`, `inode_reopen`                ↔ `inodeOpen`
     `inode_close`, `inode_create`               ↔ `inodeClose`, `inodeCreate`
     `filesys_create` after its look at NAME     ↔ `filesysCreate`
     `dir_remove` after its `lookup`             ↔ `dirRemove`
     `give_file_descriptor`, `find_file_by_fd`   ↔ `giveFileDescriptor`, `findFileByFd`
   Memory for kernel objects is there whenever it is asked for. The inodes of the
   free map and of the root directory are opened and closed within one call and
   never removed, so their counts are left out. -/
namespace Pintos.Syscall

open Vm (Byte Inode Tid)
open Function

structure OpenFile where
  fd : Int
  inode : Nat
  pos : Nat
  denyWrite : Bool
  deriving DecidableEq

structure DirEntry where
  inodeSector : Nat
  name : List Byte
  inUse : Bool
  deriving DecidableEq

/-- `start` is on disk, the rest of `struct inode` in memory. -/
structure InodeInfo where
  start : Nat
  openCnt : Nat
  removed : Bool

structure FileSys where
  inodes : Nat → Inode
  info : Nat → InodeInfo
  dir : List DirEntry
  diskSize : Nat
  /-- The bit of a sector: whether it is in use. -/
  freeMap : Nat → Bool
  fileList : Tid → List OpenFile

/-! The free map. -/

def bytesToSectors (size : Nat) : Nat := (size + 511) / 512

/-- Whether the `cnt` bits from `sector` on all have the value. -/
def allBits (m : Nat → Bool) (sector cnt : Nat) (value : Bool) : Bool :=
  (List.range cnt).all fun j => m (sector + j) == value

def setBits (m : Nat → Bool) (sector cnt : Nat) (value : Bool) : Nat → Bool := fun j =>
  if sector ≤ j ∧ j < sector + cnt then value else m j

/-- `free_map_allocate`: first fit. -/
def freeMapAllocate (fs : FileSys) (cnt : Nat) : Option (FileSys × Nat) :=
  ((List.range (fs.diskSize + 1 - cnt)).find? fun i => allBits fs.freeMap i cnt false).map fun i =>
    ({ fs with freeMap := setBits fs.freeMap i cnt true }, i)

/-- `free_map_release` asserts that all the sectors are in use. -/
def freeMapRelease (fs : FileSys) (sector cnt : Nat) : Option FileSys :=
  if sector + cnt ≤ fs.diskSize ∧ allBits fs.freeMap sector cnt true = true then
    some { fs with freeMap := setBits fs.freeMap sector cnt false }
  else none

/-! Inodes. -/

def setInfo (fs : FileSys) (i : Nat) (n : InodeInfo) : FileSys :=
  { fs with info := update fs.info i n }

/-- `inode_open`, also as `inode_reopen`: one more opener. -/
def inodeOpen (fs : FileSys) (i : Nat) : FileSys :=
  setInfo fs i { fs.info i with openCnt := (fs.info i).openCnt + 1 }

/-- `inode_close`: the last opener of a removed inode gives its sectors back. -/
def inodeClose (fs : FileSys) (i : Nat) : Option FileSys :=
  let n := fs.info i
  if n.openCnt = 1 ∧ n.removed = true then
    (freeMapRelease fs i 1).bind fun fs₁ =>
      (freeMapRelease fs₁ n.start (bytesToSectors (fs.inodes i).length)).map fun fs₂ =>
        setInfo fs₂ i { n with openCnt := 0, removed := false }
  else some (setInfo fs i { n with openCnt := n.openCnt - 1 })

/-- `inode_create` below its assertion on the length; the Boolean is the result. -/
def inodeCreate (fs : FileSys) (sector length : Nat) : FileSys × Bool :=
  match freeMapAllocate fs (bytesToSectors length) with
  | some (fs₁, start) =>
    ({ fs₁ with
        inodes := update fs₁.inodes sector ⟨length, fun _ => 0, 0⟩
        info := update fs₁.info sector ⟨start, 0, false⟩ }, true)
  | none => (fs, false)

/-! The root directory. -/

/-- The slot a new entry goes to. The directory does not grow, so there may be none. -/
def freeEntry (fs : FileSys) : Option Nat := fs.dir.findIdx? fun e => !e.inUse

/-- `filesys_create` for a name that is not in the directory; the number is the
    result. `initial_size` is an `off_t`, and `inode_create` asserts that it is not
    negative. -/
def filesysCreate (fs : FileSys) (name : List Byte) (initialSize : Int) : Option (Nat × FileSys) :=
  match freeMapAllocate fs 1 with
  | none => some (0, fs)
  | some (fs₁, sector) =>
    if initialSize < 0 then none
    else
      match inodeCreate fs₁ sector initialSize.toNat with
      | (fs₂, false) => (freeMapRelease fs₂ sector 1).map fun fs' => (0, fs')
      | (fs₂, true) =>
        match freeEntry fs₂ with
        | some slot => some (1, { fs₂ with dir := fs₂.dir.set slot ⟨sector, name, true⟩ })
        | none => (freeMapRelease fs₂ sector 1).map fun fs' => (0, fs')

/-- `dir_remove` once the entry is found. -/
def dirRemove (fs : FileSys) (slot : Nat) : Option FileSys :=
  match fs.dir[slot]? with
  | some e =>
    let i := e.inodeSector
    let fs₁ := inodeOpen { fs with dir := fs.dir.set slot { e with inUse := false } } i
    inodeClose (setInfo fs₁ i { fs₁.info i with removed := true }) i
  | none => some fs

/-! Descriptors. -/

def setFileList (fs : FileSys) (p : Tid) (l : List OpenFile) : FileSys :=
  { fs with fileList := update fs.fileList p l }

def toWord (i : Int) : Nat := (i % Vm.wordSize).toNat

/-- The descriptor `give_file_descriptor` hands out next. -/
def nextFd (l : List OpenFile) : Int :=
  match l.getLast? with
  | some f => f.fd + 1
  | none => 2

/-- `file_open` and `give_file_descriptor`, with the descriptor as it goes to `eax`. -/
def giveFileDescriptor (fs : FileSys) (p : Tid) (i : Nat) : Nat × FileSys :=
  let l := fs.fileList p
  (toWord (nextFd l), setFileList (inodeOpen fs i) p (l ++ [⟨nextFd l, i, 0, false⟩]))

def findFileByFd (fs : FileSys) (p : Tid) (fd : Int) : Option OpenFile :=
  (fs.fileList p).find? fun f => f.fd == fd

/-- The position of an open file is written. -/
def setPos (fs : FileSys) (p : Tid) (fd : Int) (pos : Nat) : FileSys :=
  setFileList fs p ((fs.fileList p).map fun f => if f.fd = fd then { f with pos := pos } else f)

/-- `list_remove` and `file_close`. A file on a `file_list` does not deny writes. -/
def closeFd (fs : FileSys) (p : Tid) (f : OpenFile) : Option FileSys :=
  inodeClose (setFileList fs p ((fs.fileList p).erase f)) f.inode

/-- The files of a thread are closed in list order. -/
def closeAll (fs : FileSys) (p : Tid) : Option FileSys :=
  (fs.fileList p).foldlM (fun fs f => closeFd fs p f) fs

/-- The bytes `bs` are written to an inode at `offset`. -/
def writeBytes (fs : FileSys) (i offset : Nat) (bs : List Byte) : FileSys :=
  { fs with inodes := update fs.inodes i { fs.inodes i with
      data := fun j => if offset ≤ j then (bs[j - offset]?).getD ((fs.inodes i).data j)
        else (fs.inodes i).data j } }

end Pintos.Syscall
