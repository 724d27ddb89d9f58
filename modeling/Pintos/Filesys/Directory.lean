import Pintos.Filesys.Inode

/- Directories and the operations on named files.

   A directory is an inode whose bytes are entries of twenty bytes: the inode sector
   (0 to 3), the name with its NUL (4 to 18) and the `in_use` flag (19). The loops over
   entries end at the first read that comes back short; `turns` bounds them by the
   length of the directory, and a loop that used them all up would have no outcome.

   Correspondence (C ↔ Lean):
     `struct dir_entry`                       ↔ twenty bytes of a `Buf`
     `strcmp`, `strlcpy`                      ↔ `strcmp`, `strlcpy`
     `dir_create`, `dir_open`, `dir_close`    ↔ `dirCreate`, `dirOpen`, `dirClose`
     `lookup`, `dir_lookup`                   ↔ `lookup`, `dirLookup`
     `dir_add`, `dir_remove`, `dir_readdir`   ↔ `dirAdd`, `dirRemove`, `dirReaddir`
     `filesys_create`, `filesys_open`,
       `filesys_remove`                       ↔ `filesysCreate`, `filesysOpen`, `filesysRemove`
     `do_format`, `filesys_init`              ↔ `doFormat`, `filesysInit`
   The local variable `e` of `dir_add` is not initialised: its first contents are an
   argument. -/
namespace Pintos.Filesys

open Vm (Byte Buf wordSize)
open Lib

/-! Strings. -/

/-- A C string: its bytes up to the NUL. -/
structure Name where
  chars : List Byte
  noNul : 0 ∉ chars
  deriving DecidableEq

def nameMax : Nat := 14

/-- Whether `strcmp` of a string with the one at `i` in a buffer is zero. -/
def strcmp : List Byte → Buf → Nat → Bool
  | [], b, i => b i = 0
  | c :: cs, b, i => b i = c && strcmp cs b (i + 1)

/-- `strlcpy` to `i` in a buffer, with the size of the destination. -/
def strlcpy (dst : Buf) (i : Nat) (src : List Byte) (size : Nat) : Buf :=
  let len := min src.length (size - 1)
  memcpy dst i (fun j => if j < len then src.getD j 0 else 0) (len + 1)

/-! Directory entries. -/

def dirEntrySize : Nat := 20

def inodeSector (e : Buf) : Nat := word e 0

def inUse (e : Buf) : Bool := e 19 != 0

/-- The entry with the inode sector, the name and the flag of a new file. -/
def fillEntry (e : Buf) (name : Name) (sector : Nat) : Buf :=
  let e := memcpy e 19 (fun _ => 1) 1
  let e := strlcpy e 4 name.chars (nameMax + 1)
  memcpy e 0 (byteOf sector) 4

def clearEntry (e : Buf) : Buf := memcpy e 19 (fun _ => 0) 1

structure Dir where
  inode : Nat
  pos : Nat

/-! Directories. -/

def dirCreate (sector entryCnt : Nat) : FsM Bool :=
  inodeCreate sector (toInt (entryCnt * dirEntrySize % wordSize))

def dirOpen (inode : Option Nat) : FsM (Option Dir) := do
  let ok ← malloc
  match inode, ok with
  | some s, true => return some ⟨s, 0⟩
  | inode, _ =>
    inodeClose inode
    return none

def dirOpenRoot : FsM (Option Dir) := do dirOpen (← inodeOpen rootDirSector)

def dirClose (dir : Option Dir) : FsM Unit := do
  match dir with
  | none => return ()
  | some dir => inodeClose (some dir.inode)

/-- A loop over the entries from `ofs` on, up to one that `stop` accepts: the contents
    of `e` and the offset where it ended, and whether an entry was accepted. -/
def entryLoop (inode : Nat) (stop : Buf → Bool) : (turns ofs : Nat) → (e : Buf) →
    FsM (Bool × Buf × Nat)
  | 0, _, _ => fun _ => none
  | turns + 1, ofs, e => do
    let (k, e) ← inodeReadAt inode e dirEntrySize ofs
    if k = dirEntrySize then
      if stop e then return (true, e, ofs)
      else entryLoop inode stop turns (ofs + dirEntrySize) e
    else return (false, e, ofs)

/-- More turns than a loop over the entries of an inode can make. -/
def entryTurns (inode : Nat) : FsM Nat := do
  let n ← follow ((← get).openInodes inode)
  return n.data.length.toNat + 1

/-- `lookup`: the entry and its offset. -/
def lookup (dir : Dir) (name : Name) : FsM (Option (Buf × Nat)) := do
  let turns ← entryTurns dir.inode
  let (found, e, ofs) ←
    entryLoop dir.inode (fun e => inUse e && strcmp name.chars e 4) turns 0 fun _ => 0
  return if found then some (e, ofs) else none

def dirLookup (dir : Dir) (name : Name) : FsM (Option Nat) := do
  match ← lookup dir name with
  | some (e, _) => inodeOpen (inodeSector e)
  | none => return none

def dirAdd (junk : Buf) (dir : Dir) (name : Name) (sector : Nat) : FsM Bool := do
  if name.chars = [] ∨ name.chars.length > nameMax then return false
  else if (← lookup dir name).isSome then return false
  else
    let turns ← entryTurns dir.inode
    let (_, e, ofs) ← entryLoop dir.inode (fun e => !inUse e) turns 0 junk
    return (← inodeWriteAt dir.inode (fillEntry e name sector) dirEntrySize ofs) = dirEntrySize

def dirRemove (dir : Dir) (name : Name) : FsM Bool := do
  match ← lookup dir name with
  | none => return false
  | some (e, ofs) =>
    match ← inodeOpen (inodeSector e) with
    | none => return false
    | some s =>
      let k ← inodeWriteAt dir.inode (clearEntry e) dirEntrySize ofs
      (if k = dirEntrySize then inodeRemove s else pure ())
      inodeClose (some s)
      return k = dirEntrySize

/-- The string at `i` in a buffer, of at most `size` bytes. -/
def cString (b : Buf) : (size i : Nat) → List Byte
  | 0, _ => []
  | size + 1, i => if b i = 0 then [] else b i :: cString b size (i + 1)

/-- `dir_readdir`: the name, and the directory with its position moved on. -/
def dirReaddir (dir : Dir) : FsM (Option (List Byte) × Dir) := do
  let turns ← entryTurns dir.inode
  let (found, e, ofs) ← entryLoop dir.inode inUse turns dir.pos fun _ => 0
  if found then return (some (cString e nameMax 4), { dir with pos := ofs + dirEntrySize })
  else return (none, { dir with pos := ofs })

/-! Files by name. -/

def filesysCreate (junk : Buf) (name : Name) (initialSize : Int) : FsM Bool := do
  match ← dirOpenRoot with
  | none => return false
  | some dir =>
    match ← freeMapAllocate 1 with
    | none =>
      dirClose (some dir)
      return false
    | some sector =>
      let made ← inodeCreate sector initialSize
      let success ← (if made then dirAdd junk dir name sector else pure false)
      (if success = false ∧ sector ≠ 0 then freeMapRelease sector 1 else pure ())
      dirClose (some dir)
      return success

def filesysOpen (name : Name) : FsM (Option Nat) := do
  match ← dirOpenRoot with
  | none => fileOpen none
  | some dir =>
    let inode ← dirLookup dir name
    dirClose (some dir)
    fileOpen inode

def filesysRemove (name : Name) : FsM Bool := do
  match ← dirOpenRoot with
  | none => return false
  | some dir =>
    let success ← dirRemove dir name
    dirClose (some dir)
    return success

def doFormat : FsM Unit := do
  freeMapCreate
  assert (← dirCreate rootDirSector 16)
  freeMapClose

def filesysInit (bits : Nat → BitVec 32) (format : Bool) : FsM Unit := do
  modify fun fs => { fs with openInodes := fun _ => none }
  freeMapInit bits
  (if format then doFormat else pure ())
  freeMapOpen

end Pintos.Filesys
