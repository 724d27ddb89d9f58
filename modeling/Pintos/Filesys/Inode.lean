import Pintos.Filesys.Flat
import Pintos.Filesys.Bitmap

/- Inodes, open files and the free map.

   The three parts of `filesys/` call each other: an inode is made in sectors taken
   from the free map, and the free map is kept in a file. An inode in memory is named
   by its sector, an open file by a number that is not used again.

   Correspondence (C ↔ Lean):
     `bitmap_write`, `bitmap_read`                 ↔ `bitmapWrite`, `bitmapRead`
     `free_map_allocate`, `free_map_release`       ↔ `freeMapAllocate`, `freeMapRelease`
     `bytes_to_sectors`                            ↔ `bytesToSectors`
     `inode_create`, `inode_open`, `inode_reopen`,
       `inode_close`, `inode_remove`,
       `inode_deny_write`, `inode_allow_write`     ↔ `inodeCreate` … `inodeAllowWrite`
     `file_open`, `file_reopen`, `file_close`,
       `file_deny_write`, `file_allow_write`,
       `file_read`, `file_write`                   ↔ `fileOpen` … `fileWrite`
     `free_map_init`, `free_map_create`,
       `free_map_open`, `free_map_close`           ↔ `freeMapInit` … `freeMapClose`
   A null pointer is `none`. Memory that `malloc` returns has any contents: what is in
   it is an argument where it can matter. -/
namespace Pintos.Filesys

open Vm (Buf wordSize)
open Lib Function

/-! The free map. -/

/-- The bits as they are laid out in memory. -/
def Bitmap.toBuf (b : Bitmap) : Buf := fun i => byteOf (b.bits (i / 4)).toNat (i % 4)

def Bitmap.ofBuf (bitCnt : Nat) (buf : Buf) : Bitmap := ⟨bitCnt, fun e => .ofNat 32 (word buf (4 * e))⟩

def fileWriteAt (file : Nat) (buffer : Buf) (size offset : Nat) : FsM Nat := do
  let f ← follow ((← get).files file)
  inodeWriteAt f.inode buffer size offset

def fileReadAt (file : Nat) (buffer : Buf) (size offset : Nat) : FsM (Nat × Buf) := do
  let f ← follow ((← get).files file)
  inodeReadAt f.inode buffer size offset

/-- `bitmap_write` of the free map. -/
def bitmapWrite (file : Nat) : FsM Bool := do
  let b := (← get).freeMap
  let size := byteCnt b.bitCnt
  return (← fileWriteAt file b.toBuf size 0) = size

/-- The bits after a read: those of the last element that are not in use are cleared. -/
def Bitmap.mask (b : Bitmap) : Bitmap :=
  let last := elemCnt b.bitCnt - 1
  { b with bits := update b.bits last (b.bits last &&& lastMask b) }

def bitmapRead (file : Nat) : FsM Bool := do
  let b := (← get).freeMap
  if b.bitCnt > 0 then
    let size := byteCnt b.bitCnt
    let (k, buf) ← fileReadAt file b.toBuf size 0
    modify fun fs => { fs with freeMap := (Bitmap.ofBuf b.bitCnt buf).mask }
    return k = size
  else return true

def setFreeMap (b : Bitmap) : FsM Unit := modify fun fs => { fs with freeMap := b }

/-- `free_map_allocate`: the first of `cnt` sectors, if there are as many in a row. -/
def freeMapAllocate (cnt : Nat) : FsM (Option Nat) := do
  let fs ← get
  let (b, sector) ← follow (bitmapScanAndFlip fs.freeMap 0 cnt false)
  setFreeMap b
  match sector, fs.freeMapFile with
  | some sec, some file =>
    if ← bitmapWrite file then return some sec
    else
      setFreeMap (← follow (bitmapSetMultiple b sec cnt false))
      return none
  | sector, _ => return sector

def freeMapRelease (sector cnt : Nat) : FsM Unit := do
  let fs ← get
  assert (← follow (bitmapAll fs.freeMap sector cnt))
  setFreeMap (← follow (bitmapSetMultiple fs.freeMap sector cnt false))
  discard (bitmapWrite (← follow fs.freeMapFile))

/-! Inodes. -/

/-- `bytes_to_sectors`: the sum is an `int`, the result a `size_t`. -/
def bytesToSectors (size : Int) : Nat := ofInt ((Int.bmod (size + 511) wordSize).tdiv 512)

def setInode (sector : Nat) (n : Option Inode) : FsM Unit :=
  modify fun fs => { fs with openInodes := update fs.openInodes sector n }

/-- The loop of `inode_create` that clears the new sectors. -/
def zeroSectors : (cnt sec : Nat) → FsM Unit
  | 0, _ => pure ()
  | cnt + 1, sec => do
    diskWrite (sec % wordSize) fun _ => 0
    zeroSectors cnt (sec + 1)

def inodeCreate (sector : Nat) (length : Int) : FsM Bool := do
  assert (0 ≤ length)
  if ← malloc then
    let sectors := bytesToSectors length
    match ← freeMapAllocate sectors with
    | none => return false
    | some start =>
      diskWrite sector (InodeDisk.encode ⟨start, length, inodeMagic⟩)
      zeroSectors sectors start
      return true
  else return false

def inodeReopen (inode : Nat) : FsM Unit := do
  let n ← follow ((← get).openInodes inode)
  setInode inode (some { n with openCnt := n.openCnt + 1 })

def inodeOpen (sector : Nat) : FsM (Option Nat) := do
  if ((← get).openInodes sector).isSome then
    inodeReopen sector
    return some sector
  else if ← malloc then
    let b ← diskRead sector
    setInode sector (some ⟨1, false, 0, .decode b⟩)
    return some sector
  else return none

def inodeClose (inode : Option Nat) : FsM Unit := do
  match inode with
  | none => return ()
  | some s =>
    let n ← follow ((← get).openInodes s)
    if n.openCnt = 1 then
      setInode s none
      if n.removed then
        freeMapRelease s 1
        freeMapRelease n.data.start (bytesToSectors n.data.length)
    else setInode s (some { n with openCnt := n.openCnt - 1 })

def inodeRemove (inode : Nat) : FsM Unit := do
  let n ← follow ((← get).openInodes inode)
  setInode inode (some { n with removed := true })

def inodeDenyWrite (inode : Nat) : FsM Unit := do
  let n ← follow ((← get).openInodes inode)
  setInode inode (some { n with denyWriteCnt := n.denyWriteCnt + 1 })
  assert (n.denyWriteCnt + 1 ≤ n.openCnt)

def inodeAllowWrite (inode : Nat) : FsM Unit := do
  let n ← follow ((← get).openInodes inode)
  assert (0 < n.denyWriteCnt)
  assert (n.denyWriteCnt ≤ n.openCnt)
  setInode inode (some { n with denyWriteCnt := n.denyWriteCnt - 1 })

/-! Open files. -/

def setFile (file : Nat) (f : Option File) : FsM Unit :=
  modify fun fs => { fs with files := update fs.files file f }

def newFile (f : File) : FsM Nat := do
  let file := (← get).nextFile
  modify fun fs => { fs with
    files := update fs.files file (some f)
    nextFile := file + 1 }
  return file

def fileOpen (inode : Option Nat) : FsM (Option Nat) := do
  let ok ← malloc
  match inode, ok with
  | some s, true => return some (← newFile ⟨s, 0, false⟩)
  | inode, _ =>
    inodeClose inode
    return none

def fileReopen (file : Nat) : FsM (Option Nat) := do
  let f ← follow ((← get).files file)
  inodeReopen f.inode
  fileOpen (some f.inode)

def fileDenyWrite (file : Nat) : FsM Unit := do
  let f ← follow ((← get).files file)
  if f.denyWrite then return ()
  else
    setFile file (some { f with denyWrite := true })
    inodeDenyWrite f.inode

def fileAllowWrite (file : Nat) : FsM Unit := do
  let f ← follow ((← get).files file)
  if f.denyWrite then
    setFile file (some { f with denyWrite := false })
    inodeAllowWrite f.inode
  else return ()

def fileClose (file : Option Nat) : FsM Unit := do
  match file with
  | none => return ()
  | some file =>
    fileAllowWrite file
    let f ← follow ((← get).files file)
    inodeClose (some f.inode)
    setFile file none

def fileRead (file : Nat) (buffer : Buf) (size : Nat) : FsM (Nat × Buf) := do
  let f ← follow ((← get).files file)
  let r ← inodeReadAt f.inode buffer size f.pos
  setFile file (some { f with pos := f.pos + r.1 })
  return r

def fileWrite (file : Nat) (buffer : Buf) (size : Nat) : FsM Nat := do
  let f ← follow ((← get).files file)
  let k ← inodeWriteAt f.inode buffer size f.pos
  setFile file (some { f with pos := f.pos + k })
  return k

def fileSeek (file newPos : Nat) : FsM Unit := do
  let f ← follow ((← get).files file)
  setFile file (some { f with pos := newPos })

/-! The file the free map is kept in. -/

def freeMapSector : Nat := 0

def rootDirSector : Nat := 1

/-- `free_map_init`, with `bits` as the memory that `bitmap_create` gets. -/
def freeMapInit (bits : Nat → BitVec 32) : FsM Unit := do
  assert (← malloc)
  assert (← malloc)
  let b ← follow (bitmapCreate bits (← get).disk.capacity)
  let b ← follow (bitmapMark b freeMapSector)
  let b ← follow (bitmapMark b rootDirSector)
  setFreeMap b

/-- The file of the free map is opened; failing to do so is a panic. -/
def openFreeMapFile : FsM Nat := do
  let inode ← inodeOpen freeMapSector
  let file ← follow (← fileOpen inode)
  modify fun fs => { fs with freeMapFile := some file }
  return file

def freeMapOpen : FsM Unit := do
  let file ← openFreeMapFile
  assert (← bitmapRead file)

def freeMapClose : FsM Unit := do
  fileClose (← get).freeMapFile

def freeMapCreate : FsM Unit := do
  let b := (← get).freeMap
  assert (← inodeCreate freeMapSector (byteCnt b.bitCnt))
  let file ← openFreeMapFile
  assert (← bitmapWrite file)

end Pintos.Filesys
