import Pintos.Syscall.FileSys

/- Kernel code as trees.

   A system call handler is a tree of the things it asks of the machine: a check
   of a pointer against the page table, a byte of memory at an address that comes
   from the user, a lock, the keyboard, the file system's data. What a node gives
   back picks the branch, so every path of the handler is a path of its tree. The
   tree says nothing of what the machine does at a node: an access may fault, and
   then the rest of the tree may never be run.

   Correspondence (C ↔ Lean):
     `is_invalid`                            ↔ `Prog.invalid`
     a read or write through a user pointer  ↔ `Prog.load`, `Prog.store`, one byte each
     `strlen` of a user string               ↔ `Prog.string`, which gives the bytes too
     `lock_acquire`, `lock_release` on the
     lock of `syscall.c`                     ↔ `Prog.acquire`, `Prog.release`
     the same in `disk_read`, `disk_write`
     on the file system disk's channel       ↔ `Prog.diskAcquire`, `Prog.diskRelease`
     `ASSERT`                                ↔ `Prog.assert`, or `none` from an update
     `thread_exit`                           ↔ `Prog.exit`
     `input_getc`, a byte of `putbuf`        ↔ `Prog.getc`, `Prog.putc`
     `process_execute` and what waits for it ↔ `Prog.execute`
     `process_wait`                          ↔ `Prog.wait`
   A pointer into nowhere that is followed and happens to be mapped is `Prog.wild`. -/
namespace Pintos.Syscall

open Vm (Byte Tid wordSize)

inductive Prog (α : Type) where
  | ret (a : α)
  | exit
  | wild
  | assert (ok : Bool) (k : Prog α)
  | invalid (addr : Nat) (k : Bool → Prog α)
  | load (addr : Nat) (k : Byte → Prog α)
  | store (addr : Nat) (b : Byte) (k : Prog α)
  | string (addr : Nat) (k : List Byte → Prog α)
  | acquire (k : Prog α)
  | release (k : Prog α)
  | diskAcquire (k : Prog α)
  | diskRelease (k : Prog α)
  | getc (k : Byte → Prog α)
  | putc (b : Byte) (k : Prog α)
  /-- The file system's data is read. -/
  | files (k : FileSys → Prog α)
  /-- It is changed, and a number comes out; `none` is a failed `ASSERT`. -/
  | update (f : FileSys → Option (Nat × FileSys)) (k : Nat → Prog α)
  | mmap (ino addr : Nat) (k : Option Int → Prog α)
  | munmap (mapping : Int) (k : Prog α)
  | execute (cmdLine : List Byte) (k : Int → Prog α)
  | wait (pid : Int) (k : Int → Prog α)

namespace Prog

def bind {α β : Type} : Prog α → (α → Prog β) → Prog β
  | .ret a, g => g a
  | .exit, _ => .exit
  | .wild, _ => .wild
  | .assert ok k, g => .assert ok (k.bind g)
  | .invalid a k, g => .invalid a fun r => (k r).bind g
  | .load a k, g => .load a fun r => (k r).bind g
  | .store a b k, g => .store a b (k.bind g)
  | .string a k, g => .string a fun r => (k r).bind g
  | .acquire k, g => .acquire (k.bind g)
  | .release k, g => .release (k.bind g)
  | .diskAcquire k, g => .diskAcquire (k.bind g)
  | .diskRelease k, g => .diskRelease (k.bind g)
  | .getc k, g => .getc fun r => (k r).bind g
  | .putc b k, g => .putc b (k.bind g)
  | .files k, g => .files fun r => (k r).bind g
  | .update f k, g => .update f fun r => (k r).bind g
  | .mmap i a k, g => .mmap i a fun r => (k r).bind g
  | .munmap m k, g => .munmap m (k.bind g)
  | .execute c k, g => .execute c fun r => (k r).bind g
  | .wait c k, g => .wait c fun r => (k r).bind g

instance : Monad Prog where
  pure := .ret
  bind := bind

/-- An update with nothing to report. -/
def modify {α : Type} (f : FileSys → Option FileSys) (k : Prog α) : Prog α :=
  .update (fun fs => (f fs).map fun fs' => (0, fs')) fun _ => k

end Prog

/-! Words of memory. -/

/-- Pointers are 32 bits wide. -/
def ptr (a i : Nat) : Nat := (a + i) % wordSize

/-- A word read as an `int` or an `off_t`. -/
def toInt (w : Nat) : Int := if w < wordSize / 2 then w else (w : Int) - wordSize

def minusOne : Nat := wordSize - 1

/-- A word, least significant byte first. -/
def loadWord (a : Nat) : Prog Nat := do
  let b₀ ← .load (ptr a 0) .ret
  let b₁ ← .load (ptr a 1) .ret
  let b₂ ← .load (ptr a 2) .ret
  let b₃ ← .load (ptr a 3) .ret
  return b₀.toNat + 256 * (b₁.toNat + 256 * (b₂.toNat + 256 * b₃.toNat))

/-- The bytes `bs` are written in order from `a` on. -/
def storeBytes (a : Nat) : List Byte → Prog Unit
  | [] => .ret ()
  | b :: bs => .store (ptr a 0) b (storeBytes (ptr a 1) bs)

/-- `n` bytes are read in order from `a` on. -/
def loadBytes (a : Nat) : Nat → Prog (List Byte)
  | 0 => .ret []
  | n + 1 => .load (ptr a 0) fun b => do
      let bs ← loadBytes (ptr a 1) n
      return b :: bs

/-! The directory. -/

/-- `strcmp` of a user string with the name of an entry: whether they are equal.
    It stops at the first difference. -/
def strcmp (a : Nat) : List Byte → Prog Bool
  | [] => .load (ptr a 0) fun b => .ret (b == 0)
  | c :: cs => .load (ptr a 0) fun b => if b = c then strcmp (ptr a 1) cs else .ret false

/-- The loop of `lookup`, from the entry number `slot` on. -/
def lookupFrom (a : Nat) (slot : Nat) : List DirEntry → Prog (Option (Nat × DirEntry))
  | [] => .ret none
  | e :: es => do
    if e.inUse then
      if ← strcmp a e.name then return some (slot, e)
    lookupFrom a (slot + 1) es

/-- A sector is read or written through a buffer of the kernel. -/
def sector : Prog Unit := .diskAcquire (.diskRelease (.ret ()))

/-- `lookup` in the root directory of the name at `a`. -/
def lookup (a : Nat) : Prog (Option (Nat × DirEntry)) := do
  sector
  .files fun fs => lookupFrom a 0 fs.dir

/-! Reading and writing files. -/

/-- The bytes an inode holds at `offset`, `n` of them. -/
def inodeBytes (fs : FileSys) (i offset n : Nat) : List Byte :=
  (List.range n).map fun j => (fs.inodes i).data (offset + j)

/-- How much `inode_read_at` and `inode_write_at` move in one turn of their loops. -/
def chunkSize (length size offset : Nat) : Nat :=
  min size (min (length - offset) (512 - offset % 512))

/-- Whether the turn moves a full sector, without a bounce buffer. -/
def direct (chunk offset : Nat) : Bool := offset % 512 == 0 && chunk == 512

/-- The loop of `inode_read_at`. A full sector goes from the disk port to the
    buffer while the channel is held; a part of one is copied by `memcpy`. Both
    assert that the buffer is not null. Every turn moves a byte, so `size` turns do. -/
def readLoop (i buffer : Nat) : (turns size offset bytesRead : Nat) → Prog Nat
  | 0, _, _, bytesRead => .ret bytesRead
  | turns + 1, size, offset, bytesRead => .files fun fs =>
    let chunk := chunkSize (fs.inodes i).length size offset
    if chunk = 0 then .ret bytesRead
    else do
      let bs := inodeBytes fs i offset chunk
      if direct chunk offset then
        .assert (ptr buffer bytesRead ≠ 0) <| .diskAcquire do
          storeBytes (ptr buffer bytesRead) bs
          .diskRelease (.ret ())
      else do
        sector
        .assert (ptr buffer bytesRead ≠ 0) (storeBytes (ptr buffer bytesRead) bs)
      readLoop i buffer turns (size - chunk) (offset + chunk) (bytesRead + chunk)

def writeLoop (i buffer : Nat) : (turns size offset bytesWritten : Nat) → Prog Nat
  | 0, _, _, bytesWritten => .ret bytesWritten
  | turns + 1, size, offset, bytesWritten => .files fun fs =>
    let chunk := chunkSize (fs.inodes i).length size offset
    if chunk = 0 then .ret bytesWritten
    else do
      if direct chunk offset then
        .assert (ptr buffer bytesWritten ≠ 0) <| .diskAcquire do
          let bs ← loadBytes (ptr buffer bytesWritten) chunk
          .modify (fun fs => some (writeBytes fs i offset bs)) (.diskRelease (.ret ()))
      else do
        sector
        .assert (ptr buffer bytesWritten ≠ 0) do
          let bs ← loadBytes (ptr buffer bytesWritten) chunk
          .modify (fun fs => some (writeBytes fs i offset bs)) sector
      writeLoop i buffer turns (size - chunk) (offset + chunk) (bytesWritten + chunk)

/-- `file_read`: `size` is an `off_t`, and a negative one reads nothing. -/
def fileRead (p : Tid) (f : OpenFile) (buffer : Nat) (size : Int) : Prog Nat := do
  let n ← readLoop f.inode buffer size.toNat size.toNat f.pos 0
  .modify (fun fs => some (setPos fs p f.fd (f.pos + n))) (.ret n)

/-- `file_write`: nothing is written while writes to the inode are denied. -/
def fileWrite (p : Tid) (f : OpenFile) (buffer : Nat) (size : Int) : Prog Nat :=
  .files fun fs => do
    let n ← if (fs.inodes f.inode).denyWriteCnt = 0 then
        writeLoop f.inode buffer size.toNat size.toNat f.pos 0
      else .ret 0
    .modify (fun fs => some (setPos fs p f.fd (f.pos + n))) (.ret n)

end Pintos.Syscall
