import Mathlib.Algebra.Group.Nat.Defs
import Pintos.Vm.State
import Pintos.Lib.Cmd

/- What the file system works on.

   The disk is an array of sectors. Everything else in `Fs` is in memory: the open
   inodes, the open files and the free map. Code of `filesys/` is a command on `Fs`;
   it has no outcome where an `ASSERT` fails, where the kernel panics or where a
   pointer is followed that is not good.

   Correspondence (C ↔ Lean):
     `struct disk`                         ↔ `Disk`
     `struct inode_disk`                   ↔ `InodeDisk`, `InodeDisk.encode`, `decode`
     `struct inode`, by its sector         ↔ `Inode`, under its sector in `openInodes`
     `struct file`, by pointer             ↔ `File`, under its number in `files`
     `free_map`, `free_map_file`           ↔ `freeMap`, `freeMapFile`
     `malloc`, `calloc`                    ↔ `malloc`, `mallocBounce`
   `open_inodes` holds one element for each sector and the order of its elements does
   not matter, so it is a map. Which allocations will succeed is part of the state:
   `heap` says so for all that are still to come. -/
namespace Pintos.Filesys

open Vm (Byte Buf wordSize)
open Lib (Cmd)

def sectorSize : Nat := 512

/-- A disk with 28-bit sector numbers, as `select_sector` asserts. -/
structure Disk where
  capacity : Nat
  lba28 : capacity ≤ 2 ^ 28
  sector : Nat → Fin sectorSize → Byte

/-- The byte at an address, counted from the start of the disk. -/
def Disk.byte (d : Disk) (a : Nat) : Byte :=
  d.sector (a / sectorSize) ⟨a % sectorSize, Nat.mod_lt _ (by decide)⟩

/-- On-disk inode. `length` is an `off_t`. -/
structure InodeDisk where
  start : Nat
  length : Int
  magic : Nat
  deriving DecidableEq

structure Inode where
  openCnt : Nat
  removed : Bool
  denyWriteCnt : Nat
  data : InodeDisk
  deriving DecidableEq

structure File where
  inode : Nat
  pos : Nat
  denyWrite : Bool
  deriving DecidableEq

/-- The bits are kept in 32-bit elements, lowest bit first. -/
structure Bitmap where
  bitCnt : Nat
  bits : Nat → BitVec 32

/-- Which of the allocations still to come succeed: those of structures, and those of
    the bounce buffers of `inode_read_at` and `inode_write_at`. -/
structure Heap where
  structs : Nat → Bool
  bounces : Nat → Bool

structure Fs where
  disk : Disk
  heap : Heap
  openInodes : Nat → Option Inode
  files : Nat → Option File
  nextFile : Nat
  freeMap : Bitmap
  freeMapFile : Option Nat

abbrev FsM := Cmd Fs

/-- The heap after an allocation of one kind or the other. -/
def Heap.nextStruct (h : Heap) : Heap := { h with structs := fun n => h.structs (n + 1) }

def Heap.nextBounce (h : Heap) : Heap := { h with bounces := fun n => h.bounces (n + 1) }

/-- Whether the next allocation of a structure succeeds. -/
def malloc : FsM Bool := fun fs => some (fs.heap.structs 0, { fs with heap := fs.heap.nextStruct })

/-- Whether the next allocation of a bounce buffer does. -/
def mallocBounce : FsM Bool := fun fs =>
  some (fs.heap.bounces 0, { fs with heap := fs.heap.nextBounce })

/-! Words in memory, least significant byte first. -/

def byteOf (w j : Nat) : Byte := UInt8.ofNat (w / 256 ^ j % 256)

/-- The word at offset `i` of a buffer. -/
def word (b : Buf) (i : Nat) : Nat :=
  (b i).toNat + 256 * ((b (i + 1)).toNat + 256 * ((b (i + 2)).toNat + 256 * (b (i + 3)).toNat))

theorem word_lt (b : Buf) (i : Nat) : word b i < wordSize := by
  have h₀ := (b i).toNat_lt
  have h₁ := (b (i + 1)).toNat_lt
  have h₂ := (b (i + 2)).toNat_lt
  have h₃ := (b (i + 3)).toNat_lt
  simp only [word, wordSize]
  omega

/-- A buffer that has a word at `i` reads as that word there. -/
theorem word_eq {b : Buf} {i w : Nat} (h : ∀ j < 4, b (i + j) = byteOf w j) (hw : w < wordSize) :
    word b i = w := by
  have h₀ := h 0 (by decide)
  have h₁ := h 1 (by decide)
  have h₂ := h 2 (by decide)
  have h₃ := h 3 (by decide)
  simp only [wordSize] at hw
  simp only [Nat.add_zero] at h₀
  simp only [word, h₀, h₁, h₂, h₃, byteOf, UInt8.toNat_ofNat', Nat.pow_zero]
  omega

/-- A 32-bit word read as an `int`. -/
def toInt (w : Nat) : Int := if w < wordSize / 2 then w else (w : Int) - wordSize

def ofInt (i : Int) : Nat := (i % wordSize).toNat

theorem ofInt_lt (i : Int) : ofInt i < wordSize := by
  simp only [ofInt, wordSize]
  omega

theorem toInt_ofInt {i : Int} (hlo : -2147483648 ≤ i) (hhi : i < 2147483648) :
    toInt (ofInt i) = i := by
  unfold toInt
  by_cases h : ofInt i < wordSize / 2
  · rw [if_pos h]
    simp only [ofInt, wordSize] at h ⊢
    omega
  · rw [if_neg h]
    simp only [ofInt, wordSize] at h ⊢
    omega

/-! The inode on disk. -/

def inodeMagic : Nat := 0x494e4f44

/-- The sector `inode_create` writes; the unused words are zero. -/
def InodeDisk.encode (n : InodeDisk) : Buf := fun i =>
  if i < 4 then byteOf n.start i
  else if i < 8 then byteOf (ofInt n.length) (i - 4)
  else if i < 12 then byteOf n.magic (i - 8)
  else 0

/-- The sector as `inode_open` reads it. -/
def InodeDisk.decode (b : Buf) : InodeDisk := ⟨word b 0, toInt (word b 4), word b 8⟩

theorem InodeDisk.decode_congr {b c : Buf} (h : ∀ i < sectorSize, b i = c i) :
    decode b = decode c := by
  have hw : ∀ i, i + 3 < sectorSize → word b i = word c i := by
    intro i hi
    simp only [word, h i (by omega), h (i + 1) (by omega), h (i + 2) (by omega), h (i + 3) hi]
  simp only [decode, hw 0 (by decide), hw 4 (by decide), hw 8 (by decide)]

theorem InodeDisk.decode_encode {n : InodeDisk} (hs : n.start < wordSize)
    (hlo : -2147483648 ≤ n.length) (hhi : n.length < 2147483648) (hm : n.magic < wordSize) :
    decode n.encode = n := by
  have h₀ : word n.encode 0 = n.start := by grind [word_eq, encode]
  have h₄ : word n.encode 4 = ofInt n.length := by
    refine word_eq (fun j hj => ?_) (ofInt_lt _)
    rw [encode, if_neg (by omega), if_pos (by omega), Nat.add_sub_cancel_left]
  have h₈ : word n.encode 8 = n.magic := by grind [word_eq, encode]
  simp only [decode, h₀, h₄, h₈, toInt_ofInt hlo hhi]

end Pintos.Filesys
